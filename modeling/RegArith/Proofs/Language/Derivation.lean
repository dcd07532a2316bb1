import Mathlib.Algebra.Group.Nat.Defs
import RegArith.Language.Program
import RegArith.Text.Decimal

/-!
# What a program text is

The language without its parser. A program is a sequence of tokens that the grammar

```text
program    = { assignment | loop }
assignment = register "=" addsub ";"
loop       = "loop" operand "{" assignment "}"
addsub     = muldiv { ( "+" | "-" ) muldiv }
muldiv     = operand { ( "*" | "/" ) operand }
operand    = [ "+" | "-" ] digits | register
register   = "r10" | "r11" | "r12" | "r13"
```

derives, and its text has these tokens with layout before, between and after them. Nothing here
says how a text is read: there is no order among alternatives, a repetition may stop anywhere, and
a token may end anywhere.

A derivation is recorded together with the tree it stands for. Both repetitions of expressions are
grouped to the left, so they are stated as growing at their right end. Loops are numbered in
source order from a given count.

## Main definitions

* `Token`, `Token.text` — the tokens and how they are written
* `Layout`, `Laid` — blanks and comments, and token sequences with layout around them
* `Derives.Operand`, `LeftGrouped`, `Assign`, `Loop`, `Program` — the derivations
-/

namespace RegArith

/-! ### Tokens -/

/-- A run of decimal digits, with at least one of them. -/
structure DigitRun where
  /-- The digits as written. -/
  chars : List Char
  /-- There is a digit. -/
  ne_nil : chars ≠ []
  /-- There is nothing else. -/
  isDigit : ∀ c ∈ chars, '0' ≤ c ∧ c ≤ '9'

/-- The number that a run of digits denotes. -/
def DigitRun.value (d : DigitRun) : Nat := decimalValue d.chars

/-- The tokens of the language. The sign of an operand is a token of its own. -/
inductive Token where
  | loop
  | register (r : Register) (hr : r ∈ Register.storage)
  | op (o : Op)
  | equals
  | semicolon
  /-- The brace in front of a loop's body. -/
  | opening
  /-- The brace behind a loop's body. -/
  | closing
  | digits (d : DigitRun)

/-- A token as it is written. -/
def Token.text : Token → List Char
  | loop => "loop".toList
  | register r _ => r.name.toList
  | op o => [o.symbol]
  | equals => ['=']
  | semicolon => [';']
  | opening => ['\x7b']
  | closing => ['\x7d']
  | digits d => d.chars

/-! ### Layout -/

/-- The relation `Layout s r` says that `s` is a run of blanks and comments with `r` behind it. Any
character up to the blank counts as blank. A comment reaches up to the next line feed or the end
of `s`. -/
inductive Layout : List Char → List Char → Prop
  | nil (s : List Char) : Layout s s
  | blank {c : Char} {s r : List Char} (hc : c.toNat ≤ 32) (h : Layout s r) : Layout (c :: s) r
  | comment {text s r : List Char} (ht : '\n' ∉ text) (hs : s = [] ∨ s.head? = some '\n')
      (h : Layout s r) : Layout ('#' :: (text ++ s)) r

/-- The text is the given tokens in order, with layout before, between and after them. -/
inductive Laid : List Token → List Char → Prop
  | nil {s : List Char} (h : Layout s []) : Laid [] s
  | cons {t : Token} {ts : List Token} {s s' : List Char} (h : Layout s (t.text ++ s'))
      (hs : Laid ts s') : Laid (t :: ts) s

namespace Derives

/-! ### Expressions -/

/-- The literal that a sign and digits stand for: magnitudes below `2 ^ 127` are numbers, others
are kept as written, with a minus but without a plus. -/
inductive Literal : (negative : Bool) → DigitRun → Expr → Prop
  | num {negative : Bool} {d : DigitRun} (h : d.value < 2 ^ 127) :
      Literal negative d (.num (if negative then -(d.value : Int) else d.value))
  | huge {negative : Bool} {d : DigitRun} (h : 2 ^ 127 ≤ d.value) :
      Literal negative d (.huge (String.ofList (if negative then '-' :: d.chars else d.chars)))

/-- The rule `operand = [ "+" | "-" ] digits | register` -/
inductive Operand : List Token → Expr → Prop
  | unsigned {d : DigitRun} {e : Expr} (h : Literal false d e) : Operand [.digits d] e
  | plus {d : DigitRun} {e : Expr} (h : Literal false d e) : Operand [.op .add, .digits d] e
  | minus {d : DigitRun} {e : Expr} (h : Literal true d e) : Operand [.op .sub, .digits d] e
  | register {r : Register} (hr : r ∈ Register.storage) : Operand [.register r hr] (.reg r)

/-- The rule `item { op item }` with one of the given operations in each place, grouped to the
left. -/
inductive LeftGrouped (item : List Token → Expr → Prop) (ops : List Op) :
    List Token → Expr → Prop
  | first {ts : List Token} {e : Expr} (h : item ts e) : LeftGrouped item ops ts e
  | more {ts us : List Token} {e f : Expr} {o : Op} (h : LeftGrouped item ops ts e)
      (ho : o ∈ ops) (hf : item us f) : LeftGrouped item ops (ts ++ .op o :: us) (.arith o e f)

/-- The rule `muldiv = operand { ( "*" | "/" ) operand }` -/
def MulDiv : List Token → Expr → Prop := LeftGrouped Operand [.mul, .div]

/-- The rule `addsub = muldiv { ( "+" | "-" ) muldiv }` -/
def AddSub : List Token → Expr → Prop := LeftGrouped MulDiv [.add, .sub]

/-! ### Statements -/

/-- The rule `assignment = register "=" addsub ";"` -/
inductive Assign : List Token → Assignment → Prop
  | intro {r : Register} {ts : List Token} {e : Expr} (hr : r ∈ Register.storage)
      (he : AddSub ts e) : Assign (.register r hr :: .equals :: (ts ++ [.semicolon])) ⟨r, e⟩

/-- The rule `loop = "loop" operand "{" assignment "}"`, with the counter and the body of the
loop. -/
inductive Loop : List Token → Expr → Assignment → Prop
  | intro {ts us : List Token} {k : Expr} {a : Assignment} (hk : Operand ts k)
      (ha : Assign us a) : Loop (.loop :: (ts ++ .opening :: (us ++ [.closing]))) k a

/-- The rule `program = { assignment | loop }`, with loops numbered from `count` on. -/
inductive Program : (count : Nat) → List Token → List Stmt → Prop
  | nil {count : Nat} : Program count [] []
  | assign {count : Nat} {ts us : List Token} {a : Assignment} {rest : List Stmt}
      (h : Assign ts a) (hrest : Program count us rest) :
      Program count (ts ++ us) (.assign a :: rest)
  | loop {count : Nat} {ts us : List Token} {k : Expr} {a : Assignment} {rest : List Stmt}
      (h : Loop ts k a) (hrest : Program (count + 1) us rest) :
      Program count (ts ++ us) (.loop ⟨⟨count⟩, k, a⟩ :: rest)

end Derives

end RegArith
