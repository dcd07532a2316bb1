import RegArith.Error
import RegArith.Language.Counters
import RegArith.Language.Describe
import RegArith.Parsing.Total
import RegArith.Text.Decimal

/-!
# The grammar

```text
program    = { assignment | loop }
assignment = register "=" addsub ";"
loop       = "loop" operand "{" assignment "}"
addsub     = muldiv { ( "+" | "-" ) muldiv }
muldiv     = operand { ( "*" | "/" ) operand }
operand    = [ "+" | "-" ] digits | register
register   = "r10" | "r11" | "r12" | "r13"
```

Layout may stand around every token: characters up to the blank, and comments from `#` to the end
of the line. Both levels of operations group to the left.

The state of the productions is the number of labels handed out. A loop takes its label when all
of it has matched, so a loop that is abandoned halfway takes none.

## Main definitions

* `Grammar.register` … `Grammar.program` — the productions
* `Rule` — the productions by name
* `parse` — the program that a source is, or how far it could be read
-/

namespace RegArith

/-- A production: a parser of characters without rules that can hand out labels. -/
abbrev Production (α : Type) : Type 1 := Parser Nat Char NoRules α

namespace Grammar

open RegArith.Parser

variable {α : Type}

/-! ### Tokens -/

/-- A comment, up to the end of its line. -/
def comment : Production Unit :=
  ((single '#').seq (star (satisfy (· != '\n')))).map fun _ => ()

/-- A blank or a control character. -/
def blank : Production Unit := (satisfy fun c => c.toNat ≤ 32).map fun _ => ()

/-- Any run of comments and blanks. -/
def layout : Production Unit := (star (comment.alt blank)).map fun _ => ()

/-- `p` with layout on both sides. -/
def spaced (p : Production α) : Production α :=
  ((layout.seq p).seq layout).map fun ((_, value), _) => value

/-- A word or sign with layout on both sides. -/
def token (text : String) : Production Unit := (spaced (word text)).map fun _ => ()

/-- The sign of an operation. -/
def sign (op : Op) : Production Op := (single op.symbol).map fun _ => op

/-- The sign of a multiplication or division. -/
def mulDivSign : Production Op := spaced ((sign .mul).alt (sign .div))

/-- The sign of an addition or subtraction. -/
def addSubSign : Production Op := spaced ((sign .add).alt (sign .sub))

/-- A run of digits. -/
def digits : Production String := (spaced (plus (range '0' '9'))).map String.ofList

/-- A storage register. -/
def register : Production Register :=
  spaced (altList (Register.storage.map fun r => (word r.name).map fun _ => r))

/-! ### Expressions -/

/-- Magnitudes from here on are kept as text. -/
def hugeBound : Nat := 1 <<< 127

/-- The literal with the given sign and digits. -/
def literal (negative : Bool) (digits : String) : Expr :=
  let magnitude := decimalValue digits.toList
  if magnitude < hugeBound then .num (if negative then -magnitude else magnitude)
  else .huge (if negative then "-" ++ digits else digits)

/-- A literal with an optional sign. -/
def int : Production Expr :=
  (((oneOf "+-").map Match.value |>.alt nothing).seq digits).map fun (sign, digits) =>
    literal (sign == .value '-') digits

/-- A literal or a register. -/
def operand : Production Expr := int.alt (register.map Expr.reg)

/-- Operands with operations between them, grouped to the left. -/
def leftGrouped (p : Production Expr) (sign : Production Op) : Production Expr :=
  (p.seq (star (sign.seq p))).map fun (first, rest) =>
    rest.foldl (fun lhs (op, rhs) => .arith op lhs rhs) first

/-- Multiplications and divisions of operands. -/
def mulDivExpr : Production Expr := leftGrouped operand mulDivSign

/-- Additions and subtractions of such terms. -/
def addSubExpr : Production Expr := leftGrouped mulDivExpr addSubSign

/-- An expression. -/
def expr : Production Expr := addSubExpr

/-! ### Statements -/

/-- An assignment. -/
def assignment : Production Assignment :=
  (((register.seq (token "=")).seq expr).seq (token ";")).map
    fun (((target, _), value), _) => ⟨target, value⟩

/-- A loop. -/
def loop : Production Loop :=
  ((token "loop").seq operand).seq (((token "\x7b").seq assignment).seq (token "\x7d"))
    |>.transform fun ((_, counter), ((_, body), _)) => return ⟨← Label.fresh, counter, body⟩

/-- A statement. -/
def statement : Production Stmt := (assignment.map Stmt.assign).alt (loop.map Stmt.loop)

/-- As many statements as there are. -/
def program : Production Program := (spaced (star statement)).map Program.mk

end Grammar

/-! ### Productions by name -/

/-- The names of the productions. -/
inductive Rule where
  | register
  | int
  | operand
  | mulDivExpr
  | addSubExpr
  | expr
  | assignment
  | loop
  | statement
  | program
deriving DecidableEq

namespace Rule

/-- What a production reads. -/
abbrev Value : Rule → Type
  | register => Register
  | int | operand | mulDivExpr | addSubExpr | expr => Expr
  | assignment => Assignment
  | loop => Loop
  | statement => Stmt
  | program => Program

/-- The production of a name. -/
def production : (r : Rule) → Production r.Value
  | register => Grammar.register
  | int => Grammar.int
  | operand => Grammar.operand
  | mulDivExpr => Grammar.mulDivExpr
  | addSubExpr => Grammar.addSubExpr
  | expr => Grammar.expr
  | assignment => Grammar.assignment
  | loop => Grammar.loop
  | statement => Grammar.statement
  | program => Grammar.program

/-- The description of what a production reads. -/
def description : (r : Rule) → r.Value → String
  | register => describe
  | int | operand | mulDivExpr | addSubExpr | expr => describe
  | assignment => describe
  | loop => describe
  | statement => describe
  | program => describe

/-- The production of a name, with its attempts printed if they are to be traced. -/
def parser (r : Rule) : (trace : Option String) → Production r.Value
  | none => r.production
  | some name => r.production.trace name r.description

end Rule

/-! ### Whole sources -/

/-- The tokens of a source are its characters. -/
def sourceTokens (source : String) : Array Char := source.toList.toArray

/-- The program that a source is. A source that is none is blamed at the furthest index that any
attempt at a statement reached. -/
def parse (source : String) : StateM Nat (Except Error Program) := fun count =>
  let tokens := sourceTokens source
  match Grammar.program.run tokens 0 (.new count) with
  | (.error e, journal) => (.error (.noParse e.index), journal.state)
  | (.ok output, journal) =>
    if output.next < tokens.size then
      (.error (.noParse (max output.furthest output.next)), journal.state)
    else (.ok output.value, journal.state)

end RegArith
