import RegArith.Parsing.Attempt

/-!
# Searching for matches

A search makes attempts from one start after the other. Only starts in front of a token are
tried, so that nothing is found at the very end, not even an empty match.

## Main definitions

* `Attempt.search` — the first match from an index on
* `Attempt.searchAll` — all matches that do not overlap, from left to right
* `Mode`, `Attempt.find` — the three ways to use a parser, with one kind of answer
-/

namespace RegArith

namespace Attempt

variable {σ τ α : Type}

/-- The first match that starts at `start` or later. -/
def search (a : Attempt σ τ α) (tokens : Array τ) (start : Nat) (journal : Journal σ) :
    Option (Outcome α × Journal σ) :=
  if start < tokens.size then
    match a tokens start journal with
    | none => none
    | some (.ok x, journal) => some (.ok x, journal)
    | some (.error _, journal) => search a tokens (start + 1) journal
  else
    some (.error ⟨tokens.size⟩, journal)
termination_by tokens.size - start

/-- The loop of `searchAll`: `found` holds the matches so far, latest first. The next start is
the end of the match just found, or one token on if that match was empty. -/
def searchAllFrom (a : Attempt σ τ α) (tokens : Array τ) (start : Nat) (found : List (Output α))
    (journal : Journal σ) : Option (List (Output α) × Journal σ) :=
  if start < tokens.size then
    match a tokens start journal with
    | none => none
    | some (.ok x, journal) =>
      searchAllFrom a tokens (max x.next (start + 1)) (x :: found) journal
    | some (.error _, journal) => searchAllFrom a tokens (start + 1) found journal
  else
    some (found.reverse, journal)
termination_by tokens.size - start

/-- All matches, leftmost first and none overlapping another; a failure if there is none. -/
def searchAll (a : Attempt σ τ α) (tokens : Array τ) :
    StateT (Journal σ) Option (Except NoMatch (List (Output α))) := do
  match ← searchAllFrom a tokens 0 [] with
  | [] => return .error ⟨tokens.size⟩
  | found => return .ok found

end Attempt

/-- A way to use a parser. -/
inductive Mode where
  /-- One attempt at an index. -/
  | parse (index : Nat)
  /-- The first match from an index on. -/
  | search (start : Nat)
  /-- All matches. -/
  | searchAll
deriving DecidableEq

/-- The matches that a mode asks for, or a failure if there are none. -/
def Attempt.find {σ τ α : Type} (a : Attempt σ τ α) (mode : Mode) (tokens : Array τ) :
    StateT (Journal σ) Option (Except NoMatch (List (Output α))) :=
  match mode with
  | .parse index => do return (← a tokens index).map ([·])
  | .search start => do return (← a.search tokens start).map ([·])
  | .searchAll => a.searchAll tokens

end RegArith
