import RegArith.Parsing.Parser
import RegArith.Parsing.Search

/-!
# Parsing that always ends

Only recursion through rules can keep an attempt from ending. A parser that mentions no rules
therefore means a total function, and so does a search with it.

## Main definitions

* `Attempt.Ends` — the attempt ends on every input
* `Parser.run`, `Parser.find` — total functions for parsers without rules

## Main results

* `Parser.ends_evalWith` — a parser ends if the rules it mentions do
* `Attempt.find_isSome` — a search ends if its attempts do
-/

namespace RegArith

namespace Attempt

variable {σ τ α β : Type}

/-- The attempt ends on all tokens, from every index, with every journal. -/
def Ends (a : Attempt σ τ α) : Prop := ∀ tokens i journal, (a tokens i journal).isSome

theorem ends_satisfy (pred : τ → Bool) : Ends (satisfy pred : Attempt σ τ τ) := fun _ _ _ => rfl

theorem ends_nothing : Ends (nothing : Attempt σ τ (Match α)) := fun _ _ _ => rfl

theorem ends_never : Ends (never : Attempt σ τ α) := fun _ _ _ => rfl

theorem ends_endOfInput : Ends (endOfInput : Attempt σ τ (Match α)) := fun _ _ _ => rfl

/-- What follows an attempt that ends, and ends itself, ends. -/
theorem isSome_bind {γ : Type} {x : StateT (Journal σ) Option β}
    {f : β → StateT (Journal σ) Option γ} {journal : Journal σ} (hx : (x journal).isSome)
    (hf : ∀ b j, (f b j).isSome) :
    ((x >>= f) journal).isSome := by
  obtain ⟨⟨b, j⟩, h⟩ := Option.isSome_iff_exists.1 hx
  have hbind : (x >>= f) journal = f b j := by simp [bind, StateT.bind, h]
  rw [hbind]
  exact hf b j

theorem ends_seq {a : Attempt σ τ α} {b : Attempt σ τ β} (ha : a.Ends) (hb : b.Ends) :
    (seq a b).Ends := by
  intro tokens i journal
  refine isSome_bind (ha tokens i journal) fun x j => ?_
  cases x with
  | error e => rfl
  | ok x =>
    refine isSome_bind (hb tokens x.next j) fun y j => ?_
    cases y <;> rfl

theorem ends_alt {a b : Attempt σ τ α} (ha : a.Ends) (hb : b.Ends) : (alt a b).Ends := by
  intro tokens i journal
  refine isSome_bind (ha tokens i journal) fun x j => ?_
  cases x with
  | ok x => rfl
  | error e =>
    refine isSome_bind (hb tokens i j) fun y j => ?_
    cases y <;> rfl

theorem ends_transform {a : Attempt σ τ α} (ha : a.Ends) (action : α → StateM σ β) :
    (transform a action).Ends := by
  intro tokens i journal
  refine isSome_bind (ha tokens i journal) fun x j => ?_
  cases x <;> rfl

theorem starFrom_isSome {a : Attempt σ τ α} (ha : a.Ends) (tokens : Array τ) (i furthest : Nat)
    (values : List α) (journal : Journal σ) :
    (starFrom a tokens i furthest values journal).isSome := by
  fun_induction starFrom a tokens i furthest values journal with
  | case1 i furthest values journal h => exact absurd (ha tokens i journal) (by simp [h])
  | case2 => rfl
  | case3 _ _ _ _ _ _ _ _ ih => exact ih
  | case4 => rfl

theorem ends_star {a : Attempt σ τ α} (ha : a.Ends) : (star a).Ends := fun tokens i journal =>
  isSome_bind (starFrom_isSome ha tokens i i [] journal) fun _ _ => rfl

theorem ends_plus {a : Attempt σ τ α} (ha : a.Ends) : (plus a).Ends :=
  ends_transform (ends_seq ha (ends_star ha)) _

theorem ends_guard {a : Attempt σ τ α} (ha : a.Ends) (pred : α → Bool) : (guard a pred).Ends := by
  intro tokens i journal
  refine isSome_bind (ha tokens i journal) fun x j => ?_
  cases x <;> rfl

theorem ends_diff {a : Attempt σ τ α} {b : Attempt σ τ β} (ha : a.Ends) (hb : b.Ends) :
    (diff a b).Ends := by
  intro tokens i journal
  refine isSome_bind (ha tokens i journal) fun x j => ?_
  cases x with
  | error e => rfl
  | ok x =>
    refine isSome_bind (hb tokens i j) fun y j => ?_
    cases y <;> rfl

theorem ends_followedBy {a : Attempt σ τ α} {b : Attempt σ τ β} (ha : a.Ends) (hb : b.Ends) :
    (followedBy a b).Ends := by
  intro tokens i journal
  refine isSome_bind (ha tokens i journal) fun x j => ?_
  cases x with
  | error e => rfl
  | ok x =>
    refine isSome_bind (hb tokens x.next j) fun y j => ?_
    cases y <;> rfl

theorem ends_notFollowedBy {a : Attempt σ τ α} {b : Attempt σ τ β} (ha : a.Ends) (hb : b.Ends) :
    (notFollowedBy a b).Ends := by
  intro tokens i journal
  refine isSome_bind (ha tokens i journal) fun x j => ?_
  cases x with
  | error e => rfl
  | ok x =>
    refine isSome_bind (hb tokens x.next j) fun y j => ?_
    cases y <;> rfl

theorem ends_traced {a : Attempt σ τ α} (ha : a.Ends) (line : Nat → Outcome α → String) :
    (traced a line).Ends := fun tokens i journal =>
  isSome_bind (ha tokens i journal) fun _ _ => rfl

theorem search_isSome {a : Attempt σ τ α} (ha : a.Ends) (tokens : Array τ) (start : Nat)
    (journal : Journal σ) : (search a tokens start journal).isSome := by
  fun_induction search a tokens start journal with
  | case1 start journal _ h => exact absurd (ha tokens start journal) (by simp [h])
  | case2 => rfl
  | case3 _ _ _ _ _ _ ih => exact ih
  | case4 => rfl

theorem searchAllFrom_isSome {a : Attempt σ τ α} (ha : a.Ends) (tokens : Array τ) (start : Nat)
    (found : List (Output α)) (journal : Journal σ) :
    (searchAllFrom a tokens start found journal).isSome := by
  fun_induction searchAllFrom a tokens start found journal with
  | case1 start found journal _ h => exact absurd (ha tokens start journal) (by simp [h])
  | case2 _ _ _ _ _ _ _ ih => exact ih
  | case3 _ _ _ _ _ _ _ ih => exact ih
  | case4 => rfl

theorem searchAll_isSome {a : Attempt σ τ α} (ha : a.Ends) (tokens : Array τ)
    (journal : Journal σ) : (searchAll a tokens journal).isSome :=
  isSome_bind (searchAllFrom_isSome ha tokens 0 [] journal) fun found _ => by cases found <;> rfl

theorem find_isSome {a : Attempt σ τ α} (ha : a.Ends) (mode : Mode) (tokens : Array τ)
    (journal : Journal σ) : (find a mode tokens journal).isSome := by
  cases mode with
  | parse index => exact isSome_bind (ha tokens index journal) fun _ _ => rfl
  | search start => exact isSome_bind (search_isSome ha tokens start journal) fun _ _ => rfl
  | searchAll => exact searchAll_isSome ha tokens journal

end Attempt

namespace Parser

variable {σ τ α : Type} {n : Nat} {ty : Fin n → Type}

/-- A parser ends if the rules it mentions do. -/
theorem ends_evalWith {rules : (r : Fin n) → Place → Attempt σ τ (ty r)}
    (h : ∀ r place, (rules r place).Ends) (p : Parser σ τ ty α) (place : Place) :
    (p.evalWith rules place).Ends := by
  induction p generalizing place with
  | satisfy pred => exact Attempt.ends_satisfy pred
  | nothing => exact Attempt.ends_nothing
  | never => exact Attempt.ends_never
  | endOfInput => exact Attempt.ends_endOfInput
  | seq p q hp hq => exact Attempt.ends_seq (hp _) (hq _)
  | alt p q hp hq => exact Attempt.ends_alt (hp _) (hq _)
  | transform p action hp => exact Attempt.ends_transform (hp _) action
  | star p hp => exact Attempt.ends_star (hp _)
  | plus p hp => exact Attempt.ends_plus (hp _)
  | rule r => exact fun tokens i journal => h r _ tokens i _
  | guard p pred hp => exact Attempt.ends_guard (hp _) pred
  | diff p q hp hq => exact Attempt.ends_diff (hp _) (hq _)
  | followedBy p q hp hq => exact Attempt.ends_followedBy (hp _) (hq _)
  | notFollowedBy p q hp hq => exact Attempt.ends_notFollowedBy (hp _) (hq _)
  | trace p name description hp => exact Attempt.ends_traced (hp _) _

/-! ### Parsers without rules -/

/-- The meaning of a parser without rules. -/
def closed (p : Parser σ τ NoRules α) : Attempt σ τ α := p.evalWith (fun r => r.elim0) []

theorem ends_closed (p : Parser σ τ NoRules α) : p.closed.Ends :=
  p.ends_evalWith (fun r => r.elim0) []

/-- Tries to match at an index. -/
def run (p : Parser σ τ NoRules α) (tokens : Array τ) (i : Nat) (journal : Journal σ) :
    Outcome α × Journal σ :=
  (p.closed tokens i journal).get (p.ends_closed tokens i journal)

/-- The matches that a mode asks for. -/
def find (p : Parser σ τ NoRules α) (mode : Mode) (tokens : Array τ) (journal : Journal σ) :
    Except NoMatch (List (Output α)) × Journal σ :=
  (p.closed.find mode tokens journal).get (Attempt.find_isSome p.ends_closed mode tokens journal)

end Parser

end RegArith
