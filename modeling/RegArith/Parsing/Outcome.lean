import RegArith.Text.Describe

/-!
# Outcomes of a parsing attempt

An attempt at an index either matches, with an `Output`, or fails, with a `NoMatch`. Both carry
the position information that error messages are made of: an output remembers the furthest index
at which anything failed while it was produced, and a failure is an index.

## Main definitions

* `Match` — a payload that may be absent although the attempt succeeded
* `Output` — value, first unconsumed index, furthest failure
* `NoMatch` — a failure at an index, with its message
* `Outcome` — one or the other
-/

namespace RegArith

/-! ### Payloads -/

/-- What a success carries: a value, or nothing at all. -/
inductive Match (α : Type) where
  | value (v : α)
  | empty
deriving DecidableEq

namespace Match

variable {α : Type}

/-- Whether the payload is absent. -/
def isEmpty : Match α → Bool
  | value _ => false
  | empty => true

/-- The payload, if there is one. -/
def toOption : Match α → Option α
  | value v => some v
  | empty => none

instance [Describe α] : Describe (Match α) where
  describe
    | value v => describeApp "Value" [describe v]
    | empty => "Empty"

end Match

/-! ### Successes -/

/-- A success: the value, the first unconsumed index, and the furthest index that a failure
reached while the value was produced. -/
structure Output (α : Type) where
  /-- The value that was read. -/
  value : α
  /-- The first index that was not consumed. -/
  next : Nat
  /-- The furthest failure on the way, or `next` if none lies beyond it. -/
  furthest : Nat
deriving DecidableEq

namespace Output

variable {α β : Type}

/-- A success without any failure on the way. -/
def new (v : α) (next : Nat) : Output α := ⟨v, next, next⟩

/-- A success that read nothing and carries nothing. -/
def empty (next : Nat) : Output (Match α) := new .empty next

/-- Records a failure at `index`. -/
def reached (o : Output α) (index : Nat) : Output α :=
  { o with furthest := max o.furthest index }

/-- Changes the value and keeps the positions. -/
def map (f : α → β) (o : Output α) : Output β := ⟨f o.value, o.next, o.furthest⟩

/-- Outputs are compared by value and extent; failures on the way do not count. -/
instance [BEq α] : BEq (Output α) where
  beq a b := a.value == b.value && a.next == b.next

@[simp] theorem value_new (v : α) (n : Nat) : (new v n).value = v := rfl

@[simp] theorem next_new (v : α) (n : Nat) : (new v n).next = n := rfl

@[simp] theorem furthest_new (v : α) (n : Nat) : (new v n).furthest = n := rfl

@[simp] theorem value_reached (o : Output α) (n : Nat) : (o.reached n).value = o.value := rfl

@[simp] theorem next_reached (o : Output α) (n : Nat) : (o.reached n).next = o.next := rfl

@[simp] theorem furthest_reached (o : Output α) (n : Nat) :
    (o.reached n).furthest = max o.furthest n := rfl

@[simp] theorem value_map (f : α → β) (o : Output α) : (o.map f).value = f o.value := rfl

@[simp] theorem next_map (f : α → β) (o : Output α) : (o.map f).next = o.next := rfl

@[simp] theorem furthest_map (f : α → β) (o : Output α) : (o.map f).furthest = o.furthest := rfl

end Output

/-! ### Failures -/

/-- A failure: nothing matched when trying at `index`. -/
structure NoMatch where
  /-- Where the attempt failed. -/
  index : Nat
deriving DecidableEq

namespace NoMatch

/-- Of two failures, the one that got further. -/
def furthest (a b : NoMatch) : NoMatch := if a.index < b.index then b else a

/-- The text of a failure. -/
def message (e : NoMatch) : String := s!"No match at index {e.index}"

@[simp] theorem index_furthest (a b : NoMatch) :
    (a.furthest b).index = max a.index b.index := by
  unfold furthest; split <;> omega

end NoMatch

/-- The outcome of an attempt. -/
abbrev Outcome (α : Type) : Type := Except NoMatch (Output α)

end RegArith
