import RegArith.Assembly.Listing
import RegArith.Error

/-!
# Lowering programs to assembly

Every expression leaves its value in `rax`. An operation evaluates its right operand first and
parks it on the stack, because the two-register instructions overwrite one of their operands.

Lowering appends lines to a listing. It stops at the first literal that no register holds; the
lines appended until then stay in the listing.

## Main definitions

* `Lowering` — appending to a listing, with failure
* `Expr.lower`, `Assignment.lower`, `Loop.lower`, `Stmt.lower`, `Program.lower`
* `generate` — the text of a whole program's listing
-/

namespace RegArith

/-- An action that appends lines to a listing and may fail on a literal. -/
abbrev Lowering : Type := ExceptT Error (StateM (Array Line)) Unit

/-- Appends a line. -/
def emit (line : Line) : Lowering := modify (·.push line)

/-- Appends an instruction. -/
def emitInstr (i : Instr) : Lowering := emit (.instr i)

/-- Appends a comment. -/
def emitComment (text : String) : Lowering := emit (.comment text)

/-- The largest literal that is loaded into a register. -/
def maxLiteral : Int := 0xFFFFFFFFFFFFFFFE

/-- The instruction that applies an operation to `rax` and `rbx`. -/
def Op.instr : Op → Instr
  | .add => .add .rax .rbx
  | .sub => .sub .rax .rbx
  | .mul => .mul .rbx
  | .div => .div .rbx

/-- Code that leaves the value of the expression in `rax`. Comments on an operation name only its
sign, so that they stay linear in the size of the expression. -/
def Expr.lower : Expr → Lowering
  | .num value => do
    if value > maxLiteral then throw (.tooLarge (toString value))
    emitComment (toString value ++ ": Codegen")
    emitInstr (.mov .rax (.imm value))
  | .huge digits => throw (.tooLarge digits)
  | .reg r => do
    emitComment (r.name ++ ": Codegen")
    emitInstr (.mov .rax (.reg r))
  | .arith op lhs rhs => do
    let sign := op.symbol.toString
    emitComment (sign ++ ": Codegen for right operand")
    rhs.lower
    emitComment (sign ++ ": Pushing result of right operand evaluation")
    emitInstr (.push .rax)
    emitComment (sign ++ ": Codegen for left operand")
    lhs.lower
    emitComment (sign ++ ": Applying op")
    emitInstr (.pop .rbx)
    emitInstr op.instr

/-- Code that evaluates the expression and stores its value. -/
def Assignment.lower (a : Assignment) : Lowering := do
  emitComment (a.written ++ ": Codegen")
  a.value.lower
  emitComment (a.written ++ ": Writing expression value to var")
  emitInstr (.mov a.target (.reg .rax))

/-- Code that runs the body with the counter in `rcx`. The `loop` instruction decrements before
it tests, so the body runs at least once, whatever the counter. -/
def Loop.lower (l : Loop) : Lowering := do
  emitComment (l.written ++ ": Evaluating counter")
  l.counter.lower
  emitComment (l.written ++ ": Storing counter in rcx")
  emitInstr (.mov .rcx (.reg .rax))
  emit (.label l.label.name)
  emitComment (l.written ++ ": Assignments code")
  l.body.lower
  emitInstr (.loop l.label)

/-- Code of a statement. -/
def Stmt.lower : Stmt → Lowering
  | .assign a => a.lower
  | .loop l => l.lower

/-- The routine that prints `rax`. -/
def printRoutine : String := "print_rax"

/-- The registers that the print routine saves. -/
def savedRegisters : List Register := [.rax, .rcx, .r10, .r11, .r12, .r13]

/-- The routine that prints `rax` as a signed number on a line of its own and keeps every
register that the program uses. -/
def lowerPrintRoutine : Lowering := do
  emit (.label printRoutine)
  savedRegisters.forM fun r => emitInstr (.push r)
  emitInstr (.mov .rdi (.sym "format"))
  emitInstr (.mov .rsi (.reg .rax))
  emitInstr (.mov .rax (.imm 0))
  emitInstr (.call "printf")
  savedRegisters.reverse.forM fun r => emitInstr (.pop r)
  emitInstr .ret

/-- The listing of a program: storage starts at zero, `rax` is printed after every statement, and
the program exits with status zero. -/
def Program.lower (p : Program) : Lowering := do
  emit (.directive "global main")
  emit (.label "main")
  emitComment "Resetting r10, r11, r12, r13"
  Register.storage.forM fun r => emitInstr (.mov r (.imm 0))
  p.stmts.forM fun s => do
    emit .blank
    s.lower
    emitInstr (.call printRoutine)
  emit .blank
  emitInstr (.mov .rax (.imm 60))
  emitInstr (.mov .rdi (.imm 0))
  emitInstr .syscall
  emit .blank
  emit (.directive "section .data")
  emit (.directive "format: db \"%lld\", 10")
  emit .blank
  emit (.directive "section .text")
  emit (.directive "extern printf")
  lowerPrintRoutine

/-- The assembly text of a program. -/
def generate (p : Program) : Except Error String :=
  match p.lower.run #[] with
  | (.ok (), listing) => .ok (listingText listing.toList)
  | (.error e, _) => .error e

end RegArith
