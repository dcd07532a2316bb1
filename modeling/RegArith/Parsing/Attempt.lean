import RegArith.Parsing.Journal
import RegArith.Parsing.Outcome

/-!
# Attempts and how they combine

An `Attempt` is what a parser means: given the tokens and an index it ends with an outcome and
the journal after it, or it does not end. Not ending can only come from recursion through named
rules, so it is passed on by every operation here and introduced by none.

Failure is an ordinary value. Ordered choice, repetition and look-ahead branch on it and may try
again from the same or an earlier index; what they decide is which failures count towards the
furthest index.

## Main definitions

* `Attempt` — tokens, index and journal to outcome and journal, unless it does not end
* `satisfy`, `nothing`, `never`, `endOfInput` — the primitives
* `seq`, `alt`, `transform`, `star`, `plus` — the regular operations, which keep every failure
* `guard`, `diff`, `followedBy`, `notFollowedBy` — conditions on a match
* `traced` — one printed line for each attempt

## Implementation notes

`star` goes round again only after a match that moved forward within the input. No match does
anything else but stand still, as every primitive consumes at most the token at its index; the
test is made by the loop itself so that it ends whatever it repeats.
-/

namespace RegArith

/-- The meaning of a parser: from tokens and an index to an outcome, unless it does not end. -/
abbrev Attempt (σ τ α : Type) : Type :=
  Array τ → Nat → StateT (Journal σ) Option (Outcome α)

namespace Attempt

variable {σ τ α β : Type}

/-! ### Primitives -/

/-- Consumes one token if `pred` holds for it. -/
def satisfy (pred : τ → Bool) : Attempt σ τ τ := fun tokens i =>
  return match tokens[i]? with
    | some token => if pred token then .ok (.new token (i + 1)) else .error ⟨i⟩
    | none => .error ⟨i⟩

/-- Succeeds without consuming anything. -/
def nothing : Attempt σ τ (Match α) := fun _ i => return .ok (.empty i)

/-- Never succeeds. -/
def never : Attempt σ τ α := fun _ i => return .error ⟨i⟩

/-- Succeeds exactly at the end of the tokens. -/
def endOfInput : Attempt σ τ (Match α) := fun tokens i =>
  return if i = tokens.size then .ok (.empty i) else .error ⟨i⟩

/-! ### Regular operations -/

/-- One after the other. Failures inside the first count also when the second fails. -/
def seq (a : Attempt σ τ α) (b : Attempt σ τ β) : Attempt σ τ (α × β) := fun tokens i => do
  match ← a tokens i with
  | .error e => return .error e
  | .ok x =>
    match ← b tokens x.next with
    | .error e => return .error (e.furthest ⟨x.furthest⟩)
    | .ok y =>
      return .ok (((Output.new (x.value, y.value) y.next).reached x.furthest).reached y.furthest)

/-- Ordered choice: the second is tried only when the first fails. -/
def alt (a b : Attempt σ τ α) : Attempt σ τ α := fun tokens i => do
  match ← a tokens i with
  | .ok x => return .ok x
  | .error e =>
    match ← b tokens i with
    | .ok y => return .ok (y.reached e.index)
    | .error f => return .error (e.furthest f)

/-- Applies an action, which may use and change the state, to the value of a match. -/
def transform (a : Attempt σ τ α) (action : α → StateM σ β) : Attempt σ τ β := fun tokens i => do
  match ← a tokens i with
  | .error e => return .error e
  | .ok x =>
    let journal ← get
    let (value, state) := (action x.value).run journal.state
    set { journal with state := state }
    return .ok (x.map fun _ => value)

/-- The loop of `star`: `values` holds what was read so far, latest first. -/
def starFrom (a : Attempt σ τ α) (tokens : Array τ) (i furthest : Nat) (values : List α)
    (journal : Journal σ) : Option (Output (List α) × Journal σ) :=
  match a tokens i journal with
  | none => none
  | some (.error e, journal) =>
    some ((Output.new values.reverse i).reached (max furthest e.index), journal)
  | some (.ok x, journal) =>
    if i < x.next ∧ x.next ≤ tokens.size then
      starFrom a tokens x.next (max furthest x.furthest) (x.value :: values) journal
    else
      some ((Output.new (x.value :: values).reverse x.next).reached (max furthest x.furthest),
        journal)
termination_by tokens.size - i

/-- Zero or more, as many as there are. A match that consumes nothing is the last one. -/
def star (a : Attempt σ τ α) : Attempt σ τ (List α) := fun tokens i => do
  return .ok (← starFrom a tokens i i [])

/-- One or more. -/
def plus (a : Attempt σ τ α) : Attempt σ τ (List α) :=
  transform (seq a (star a)) fun (x, xs) => return x :: xs

/-! ### Conditions -/

/-- A match whose value satisfies `pred`. -/
def guard (a : Attempt σ τ α) (pred : α → Bool) : Attempt σ τ α := fun tokens i => do
  match ← a tokens i with
  | .error e => return .error e
  | .ok x => return if pred x.value then .ok x else .error ⟨i⟩

/-- A match of the first, unless the second matches at the same index. -/
def diff (a : Attempt σ τ α) (b : Attempt σ τ β) : Attempt σ τ α := fun tokens i => do
  match ← a tokens i with
  | .error e => return .error e
  | .ok x =>
    match ← b tokens i with
    | .ok _ => return .error ⟨i⟩
    | .error _ => return .ok x

/-- A match of the first with a match of the second right after it, which is not consumed. -/
def followedBy (a : Attempt σ τ α) (b : Attempt σ τ β) : Attempt σ τ α := fun tokens i => do
  match ← a tokens i with
  | .error e => return .error e
  | .ok x =>
    match ← b tokens x.next with
    | .ok _ => return .ok x
    | .error e => return .error e

/-- A match of the first without a match of the second right after it. -/
def notFollowedBy (a : Attempt σ τ α) (b : Attempt σ τ β) : Attempt σ τ α := fun tokens i => do
  match ← a tokens i with
  | .error e => return .error e
  | .ok x =>
    match ← b tokens x.next with
    | .ok _ => return .error ⟨i⟩
    | .error _ => return .ok x

/-! ### Observation -/

/-- Prints a line, made from the index and the outcome, after every attempt. -/
def traced (a : Attempt σ τ α) (line : Nat → Outcome α → String) : Attempt σ τ α :=
  fun tokens i => do
    let outcome ← a tokens i
    modify (·.print (line i outcome))
    return outcome

end Attempt

end RegArith
