import RegArith.Language.Register

/-!
# Programs

A program is a list of statements on the storage registers. A statement assigns the value of an
expression to a register, or repeats one assignment under a counter. Each loop carries the label
that its code will jump to.

The written form of expressions, assignments and loops is the one that the comments of generated
code use. It has no parentheses.

## Main definitions

* `Op`, `Expr`, `Assignment`, `Label`, `Loop`, `Stmt`, `Program`
* `Expr.written`, `Assignment.written`, `Loop.written`
* `Program.loops` — the loops in source order
-/

namespace RegArith

/-- The operation of an expression node. -/
inductive Op where
  | add
  | sub
  | mul
  | div
deriving DecidableEq

/-- The sign of an operation. -/
def Op.symbol : Op → Char
  | .add => '+'
  | .sub => '-'
  | .mul => '*'
  | .div => '/'

/-- The operation with the given sign. -/
def Op.ofSymbol? : Char → Option Op
  | '+' => some .add
  | '-' => some .sub
  | '*' => some .mul
  | '/' => some .div
  | _ => none

/-- An arithmetic expression. -/
inductive Expr where
  /-- A literal. -/
  | num (value : Int)
  /-- A literal too large to be kept as a number: its digits as written, with a minus in front if
  it is negative. -/
  | huge (digits : String)
  /-- The content of a register. -/
  | reg (r : Register)
  /-- An operation on two values. -/
  | arith (op : Op) (lhs rhs : Expr)
deriving DecidableEq

/-- Stores the value of an expression in a register. -/
structure Assignment where
  /-- The register that is written. -/
  target : Register
  /-- What is written to it. -/
  value : Expr
deriving DecidableEq

/-- The jump target of one loop, known by its number. -/
structure Label where
  /-- The number. -/
  index : Nat
deriving DecidableEq

/-- The name of a label in assembly. -/
def Label.name (l : Label) : String := s!"loop_{l.index}"

/-- Repeats an assignment as often as the counter says. -/
structure Loop where
  /-- Where the repetition jumps to. -/
  label : Label
  /-- The number of repetitions. -/
  counter : Expr
  /-- What is repeated. -/
  body : Assignment
deriving DecidableEq

/-- A statement. -/
inductive Stmt where
  | assign (a : Assignment)
  | loop (l : Loop)
deriving DecidableEq

/-- A program: statements in source order. -/
structure Program where
  /-- The statements. -/
  stmts : List Stmt
deriving DecidableEq

/-! ### Written form -/

/-- The expression in infix notation, without parentheses. -/
def Expr.written : Expr → String
  | .num value => toString value
  | .huge digits => digits
  | .reg r => r.name
  | .arith op lhs rhs => lhs.written ++ " " ++ op.symbol.toString ++ " " ++ rhs.written

/-- The assignment with an arrow. -/
def Assignment.written (a : Assignment) : String := a.target.name ++ " <- " ++ a.value.written

/-- The head of the loop. -/
def Loop.written (l : Loop) : String := "loop " ++ l.counter.written

/-! ### Loops -/

/-- The loop that a statement is, if it is one. -/
def Stmt.loop? : Stmt → Option Loop
  | .assign _ => none
  | .loop l => some l

/-- The loops of a program in source order. -/
def Program.loops (p : Program) : List Loop := p.stmts.filterMap Stmt.loop?

end RegArith
