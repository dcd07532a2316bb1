import RegArith.Language.Describe
import RegArith.Text.Decimal

/-!
# Programs as YAML

The dump of a syntax tree: statements and expressions carry their constructor as a tag,
operations are sequences of three, assignments and loops are mappings.

A sequence under a key is indented as the key is; inside another sequence it is indented by two
more. All functions here take the column at which the lines after the first one start.

## Main definitions

* `Expr.yaml`, `Assignment.yaml`, `Loop.yaml`, `Stmt.yaml`, `Program.yaml`
* `yamlDigits` — a run of digits, quoted unless a reader of YAML takes it for text anyway
-/

namespace RegArith

/-- The least number that overflows a double when it is read as one: half a unit in the last
place above the largest finite double. -/
def doubleOverflow : Nat := 1 <<< 1024 - 1 <<< 970

/-- Digits with an optional minus, as a YAML scalar. A scalar that would be read back as a number
is quoted. Only a number without leading zeros that lies beyond the doubles is not. -/
def yamlDigits (text : String) : String :=
  let digits := match text.toList with
    | '-' :: rest => rest
    | all => all
  if digits.head? ≠ some '0' ∧ doubleOverflow ≤ decimalValue digits then text
  else "'" ++ text ++ "'"

/-- The blanks in front of a column. -/
def blanks (column : Nat) : String := String.ofList (List.replicate column ' ')

/-- An expression. -/
def Expr.yaml (column : Nat) : Expr → String
  | .num value => "!Num " ++ toString value ++ "\n"
  | .huge digits => "!Huge " ++ yamlDigits digits ++ "\n"
  | .reg r => "!Reg " ++ r.name ++ "\n"
  | .arith op lhs rhs =>
    let item := blanks column ++ "- "
    "!Arith\n" ++ item ++ op.word ++ "\n" ++
      item ++ lhs.yaml (column + 2) ++ item ++ rhs.yaml (column + 2)

/-- An assignment. -/
def Assignment.yaml (column : Nat) (a : Assignment) : String :=
  "target: " ++ a.target.name ++ "\n" ++ blanks column ++ "value: " ++ a.value.yaml column

/-- A loop. -/
def Loop.yaml (column : Nat) (l : Loop) : String :=
  "label: " ++ toString l.label.index ++ "\n" ++
    blanks column ++ "counter: " ++ l.counter.yaml column ++
    blanks column ++ "body:\n" ++ blanks (column + 2) ++ l.body.yaml (column + 2)

/-- A statement. -/
def Stmt.yaml (column : Nat) : Stmt → String
  | .assign a => "!Assign\n" ++ blanks column ++ a.yaml column
  | .loop l => "!Loop\n" ++ blanks column ++ l.yaml column

/-- A whole program. -/
def Program.yaml (p : Program) : String :=
  if p.stmts.isEmpty then "[]\n"
  else String.join (p.stmts.map fun s => "- " ++ s.yaml 2)

/-- A register by itself. -/
def Register.yaml (r : Register) : String := r.name ++ "\n"

end RegArith
