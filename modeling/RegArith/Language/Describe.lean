import RegArith.Language.Program

/-!
# Descriptions of programs

The text that traces and dumps show for the parts of a program: constructors with their
arguments, records with their fields.

## Main definitions

* `Describe` instances for `Op`, `Expr`, `Assignment`, `Label`, `Loop`, `Stmt`, `Program`
-/

namespace RegArith

/-- The name of an operation in descriptions and dumps. -/
def Op.word : Op → String
  | .add => "Add"
  | .sub => "Sub"
  | .mul => "Mul"
  | .div => "Div"

/-- The description of an expression, with the constructors as prefix operators. -/
def Expr.description : Expr → String
  | .num value => describeApp "Num" [describe value]
  | .huge digits => describeApp "Huge" [describe digits]
  | .reg r => describeApp "Reg" [describe r]
  | .arith op lhs rhs => describeApp "Arith" [op.word, lhs.description, rhs.description]

instance : Describe Op := ⟨Op.word⟩

instance : Describe Expr := ⟨Expr.description⟩

instance : Describe Assignment where
  describe a := describeRecord "Assignment"
    [("target", describe a.target), ("value", describe a.value)]

instance : Describe Label := ⟨fun l => describeApp "Label" [describe l.index]⟩

instance : Describe Loop where
  describe l := describeRecord "Loop"
    [("label", describe l.label), ("counter", describe l.counter), ("body", describe l.body)]

instance : Describe Stmt where
  describe
    | .assign a => describeApp "Assign" [describe a]
    | .loop l => describeApp "Loop" [describe l]

instance : Describe Program := ⟨fun p => describeApp "Program" [describe p.stmts]⟩

end RegArith
