import Std.Data.HashSet

/-!
# What an attempt leaves behind

Attempts are retried and abandoned freely, and the outcome of one does not tell what happened on
the way. What does stay, also after an attempt was abandoned, is kept in a `Journal`: the state
that a grammar's own actions have written, the lines that traced parsers printed, and the rules
that were constructed because a reference to them was used for the first time.

## Main definitions

* `Branch`, `Place` — the address of a node in the unfolded parser
* `Journal` — state, printed lines, constructed rules
* `Journal.visit` — a reference constructs its rule unless it holds it

## Main results

* `Journal.mem_built_visit_iff` — a visit constructs the rule at its place and no other
-/

namespace RegArith

/-- One step from a parser to a part of it. -/
inductive Branch where
  /-- The first of two parts. -/
  | left
  /-- The second of two parts. -/
  | right
  /-- From a reference into the rule it names. -/
  | inside
deriving DecidableEq, Hashable

/-- The address of a node in a parser whose references are unfolded, last step first. Every
reference names a separate copy of its rule, so that places tell the copies apart. -/
abbrev Place : Type := List Branch

/-- The lasting effects of the attempts made so far. -/
structure Journal (σ : Type) where
  /-- The state that actions read and write. -/
  state : σ
  /-- The text printed by traced parsers. -/
  log : String := ""
  /-- The references that hold their rule by now. -/
  built : Std.HashSet Place := ∅
  /-- Every construction of a rule, latest first. -/
  constructions : List Place := []

namespace Journal

variable {σ : Type}

/-- The journal before the first attempt. -/
def new (s : σ) : Journal σ := { state := s }

/-- Adds one line to the log. -/
def print (j : Journal σ) (line : String) : Journal σ := { j with log := j.log ++ line ++ "\n" }

/-- Visits the reference at `place`: its rule is constructed unless the reference holds it
already. -/
def visit (j : Journal σ) (place : Place) : Journal σ :=
  if place ∈ j.built then j
  else { j with built := j.built.insert place, constructions := place :: j.constructions }

/-- How many rules have been constructed. -/
def builds (j : Journal σ) : Nat := j.constructions.length

/-- The same journal with an empty log. -/
def withoutLog (j : Journal σ) : Journal σ := { j with log := "" }

theorem mem_built_visit_iff {j : Journal σ} {place q : Place} :
    q ∈ (j.visit place).built ↔ q = place ∨ q ∈ j.built := by
  unfold visit
  split
  · next h => exact ⟨.inr, fun hq => hq.elim (fun heq => heq ▸ h) id⟩
  · rw [Std.HashSet.mem_insert, beq_iff_eq, eq_comm]

theorem builds_le_builds_visit (j : Journal σ) (place : Place) :
    j.builds ≤ (j.visit place).builds := by
  unfold visit builds
  split <;> simp

end Journal

end RegArith
