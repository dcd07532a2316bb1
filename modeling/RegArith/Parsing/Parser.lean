import RegArith.Parsing.Attempt
import RegArith.Text.Lowercase
import RegArith.Text.Style

/-!
# Parsers

A `Parser` is a piece of grammar as data: primitives, the operations on them, and references to
named rules. Rules are numbered, `ty r` is the type of the values of rule `r`, and a reference is
resolved only when an attempt comes to it, which is what lets a rule mention itself.

A parser means an `Attempt`. `evalWith` gives the meaning of one parser from a meaning of the
rules; `eval` unfolds references to a given depth; `attempt` chooses a depth that no parse
without endless recursion exceeds.

## Main definitions

* `Parser` — grammar as data
* `Parser.seqList`, `altList`, `word`, `oneOf`, `single`, `range` — derived parsers
* `Parser.evalWith`, `eval`, `attempt` — the meaning of a parser

## Implementation notes

Every reference stands for a separate copy of its rule, so the evaluators carry the `Place` of
the node they are at. Operations with one part pass the place on; the two uses that `plus` makes
of its part are the same copy.
-/

namespace RegArith

/-- Grammar as data: a parser of `α`s over tokens `τ`, with actions on a state `σ` and references
to rules whose values have the types `ty`. -/
inductive Parser (σ τ : Type) {n : Nat} (ty : Fin n → Type) : Type → Type 1 where
  /-- One token with a property. -/
  | satisfy (pred : τ → Bool) : Parser σ τ ty τ
  /-- Success without payload, consuming nothing. -/
  | nothing {α : Type} : Parser σ τ ty (Match α)
  /-- No success at all. -/
  | never {α : Type} : Parser σ τ ty α
  /-- The end of the tokens. -/
  | endOfInput {α : Type} : Parser σ τ ty (Match α)
  /-- One after the other. -/
  | seq {α β : Type} (p : Parser σ τ ty α) (q : Parser σ τ ty β) : Parser σ τ ty (α × β)
  /-- Ordered choice. -/
  | alt {α : Type} (p q : Parser σ τ ty α) : Parser σ τ ty α
  /-- A match with an action on its value. -/
  | transform {α β : Type} (p : Parser σ τ ty α) (action : α → StateM σ β) : Parser σ τ ty β
  /-- Zero or more. -/
  | star {α : Type} (p : Parser σ τ ty α) : Parser σ τ ty (List α)
  /-- One or more. -/
  | plus {α : Type} (p : Parser σ τ ty α) : Parser σ τ ty (List α)
  /-- A reference to a rule. -/
  | rule (r : Fin n) : Parser σ τ ty (ty r)
  /-- A match whose value has a property. -/
  | guard {α : Type} (p : Parser σ τ ty α) (pred : α → Bool) : Parser σ τ ty α
  /-- A match of `p` where `q` does not match. -/
  | diff {α β : Type} (p : Parser σ τ ty α) (q : Parser σ τ ty β) : Parser σ τ ty α
  /-- A match of `p` with a match of `q` after it. -/
  | followedBy {α β : Type} (p : Parser σ τ ty α) (q : Parser σ τ ty β) : Parser σ τ ty α
  /-- A match of `p` without a match of `q` after it. -/
  | notFollowedBy {α β : Type} (p : Parser σ τ ty α) (q : Parser σ τ ty β) : Parser σ τ ty α
  /-- A parser whose attempts are printed under a name. -/
  | trace {α : Type} (p : Parser σ τ ty α) (name : String) (description : α → String) :
    Parser σ τ ty α

/-- The empty family of rules. -/
abbrev NoRules : Fin 0 → Type := Fin.elim0

namespace Parser

variable {σ τ α β : Type} {n : Nat} {ty : Fin n → Type}

/-! ### Derived parsers -/

/-- A match with a function on its value. -/
def map (p : Parser σ τ ty α) (f : α → β) : Parser σ τ ty β := p.transform fun x => return f x

/-- Any token. -/
def any : Parser σ τ ty τ := satisfy fun _ => true

/-- The token `t`. -/
def single [BEq τ] (t : τ) : Parser σ τ ty τ := satisfy (· == t)

/-- A payload in front of a list; an absent one adds nothing. -/
def consMatch : Match α × List α → List α
  | (.value x, xs) => x :: xs
  | (.empty, xs) => xs

/-- All parsers in order, with the list of their payloads. -/
def seqList : List (Parser σ τ ty (Match α)) → Parser σ τ ty (List α)
  | [] => (nothing : Parser σ τ ty (Match α)).map fun _ => []
  | p :: ps => (p.seq (seqList ps)).map consMatch

/-- The first parser that matches; of no parsers, none does. -/
def altList : List (Parser σ τ ty α) → Parser σ τ ty α
  | [] => never
  | p :: ps => p.alt (altList ps)

/-- The characters of `text` in order, read as that text. -/
def word (text : String) : Parser σ Char ty String :=
  (seqList (text.toList.map fun c => (single c).map Match.value)).map String.ofList

/-- One of the characters of `text`. -/
def oneOf (text : String) : Parser σ Char ty Char := altList (text.toList.map single)

/-- A character from `first` to `last`, both included. -/
def range (first last : Char) : Parser σ Char ty Char :=
  satisfy fun c => first ≤ c && c ≤ last

/-- The character `c` in upper or lower case. -/
def singleAnyCase (c : Char) : Parser σ Char ty Char :=
  satisfy fun d => lowercase d == lowercase c

/-- A character whose lower case lies from that of `first` to that of `last`. -/
def rangeAnyCase (first last : Char) : Parser σ Char ty Char :=
  satisfy fun c => lowercase first ≤ lowercase c && lowercase c ≤ lowercase last

/-! ### Traces -/

/-- The line that a trace prints for an attempt at an index. -/
def traceLine (name : String) (description : α → String) (i : Nat) : Outcome α → String
  | .ok x => styled [.cyan, .bold] name ++ s!": match from {i} to {x.next}: " ++ description x.value
  | .error e => styled [.red, .bold] name ++ s!": failed to match from {i} (" ++ e.message ++ ")"

/-! ### Meaning -/

/-- The meaning of the parser at a place, from a meaning `rules` of the rules at any place. -/
def evalWith (rules : (r : Fin n) → Place → Attempt σ τ (ty r)) :
    {α : Type} → Parser σ τ ty α → Place → Attempt σ τ α
  | _, satisfy pred, _ => Attempt.satisfy pred
  | _, nothing, _ => Attempt.nothing
  | _, never, _ => Attempt.never
  | _, endOfInput, _ => Attempt.endOfInput
  | _, seq p q, place =>
    Attempt.seq (p.evalWith rules (.left :: place)) (q.evalWith rules (.right :: place))
  | _, alt p q, place =>
    Attempt.alt (p.evalWith rules (.left :: place)) (q.evalWith rules (.right :: place))
  | _, transform p action, place => Attempt.transform (p.evalWith rules place) action
  | _, star p, place => Attempt.star (p.evalWith rules place)
  | _, plus p, place => Attempt.plus (p.evalWith rules place)
  | _, rule r, place => fun tokens i => do
    modify (·.visit place)
    rules r (.inside :: place) tokens i
  | _, guard p pred, place => Attempt.guard (p.evalWith rules place) pred
  | _, diff p q, place =>
    Attempt.diff (p.evalWith rules (.left :: place)) (q.evalWith rules (.right :: place))
  | _, followedBy p q, place =>
    Attempt.followedBy (p.evalWith rules (.left :: place)) (q.evalWith rules (.right :: place))
  | _, notFollowedBy p q, place =>
    Attempt.notFollowedBy (p.evalWith rules (.left :: place)) (q.evalWith rules (.right :: place))
  | _, trace p name description, place =>
    Attempt.traced (p.evalWith rules place) (traceLine name description)

/-- The meaning of the rules with references unfolded `depth` deep; a parse that goes deeper does
not end. -/
def ruleAttempt (rules : (r : Fin n) → Parser σ τ ty (ty r)) :
    (depth : Nat) → (r : Fin n) → Place → Attempt σ τ (ty r)
  | 0 => fun _ _ _ _ _ => none
  | depth + 1 => fun r place => (rules r).evalWith (ruleAttempt rules depth) place

/-- The meaning of a parser with references unfolded `depth` deep. -/
def eval (rules : (r : Fin n) → Parser σ τ ty (ty r)) (depth : Nat) (p : Parser σ τ ty α) :
    Attempt σ τ α :=
  p.evalWith (ruleAttempt rules depth) []

/-- The meaning of a parser with rules. Inside each other, the `n` rules can be attempted at most
once at each of the indices from the first to the end of the tokens, as a rule that comes back to
itself without moving on never ends. -/
def attempt (rules : (r : Fin n) → Parser σ τ ty (ty r)) (p : Parser σ τ ty α) : Attempt σ τ α :=
  fun tokens i => p.eval rules (n * (tokens.size - i + 1)) tokens i

end Parser

end RegArith
