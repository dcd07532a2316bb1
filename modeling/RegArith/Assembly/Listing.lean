import RegArith.Language.Program

/-!
# Assembly listings

The x86-64 instructions that generated code is made of, the lines of a listing, and their text.

## Main definitions

* `Operand`, `Instr`, `Line`
* `Instr.text`, `Line.text`, `listingText`
-/

namespace RegArith

/-- What a `mov` loads. -/
inductive Operand where
  /-- The content of a register. -/
  | reg (r : Register)
  /-- A number. -/
  | imm (value : Int)
  /-- The address of a symbol. -/
  | sym (name : String)
deriving DecidableEq

/-- The text of an operand. -/
def Operand.text : Operand → String
  | reg r => r.name
  | imm value => toString value
  | sym name => name

/-- An instruction. -/
inductive Instr where
  /-- Loads an operand into a register. -/
  | mov (target : Register) (source : Operand)
  /-- Adds the second register to the first. -/
  | add (target source : Register)
  /-- Subtracts the second register from the first. -/
  | sub (target source : Register)
  /-- Multiplies `rax`; the product is in `rdx` and `rax`. -/
  | mul (source : Register)
  /-- Divides `rdx` and `rax`; the quotient is in `rax`. -/
  | div (source : Register)
  | push (source : Register)
  | pop (target : Register)
  /-- Decrements `rcx` and jumps unless it is zero then. -/
  | loop (label : Label)
  | call (target : String)
  | syscall
  | ret
deriving DecidableEq

/-- The text of an instruction. -/
def Instr.text : Instr → String
  | mov target source => "mov " ++ target.name ++ ", " ++ source.text
  | add target source => "add " ++ target.name ++ ", " ++ source.name
  | sub target source => "sub " ++ target.name ++ ", " ++ source.name
  | mul source => "mul " ++ source.name
  | div source => "div " ++ source.name
  | push source => "push " ++ source.name
  | pop target => "pop " ++ target.name
  | loop label => "loop " ++ label.name
  | call target => "call " ++ target
  | syscall => "syscall"
  | ret => "ret"

/-- A line of a listing. -/
inductive Line where
  | instr (i : Instr)
  | label (name : String)
  | comment (text : String)
  | directive (text : String)
  | blank
deriving DecidableEq

/-- The text of a line: instructions are indented. -/
def Line.text : Line → String
  | instr i => "    " ++ i.text
  | label name => name ++ ":"
  | comment text => "; " ++ text
  | directive text => text
  | blank => ""

/-- The text of a listing, one line each. -/
def listingText (listing : List Line) : String :=
  "\n".intercalate (listing.map Line.text) ++ "\n"

end RegArith
