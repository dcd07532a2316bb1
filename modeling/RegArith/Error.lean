/-!
# Errors

Everything that can keep a source from becoming an assembly file, with its message.

## Main definitions

* `Error`, `Error.message`
-/

namespace RegArith

/-- A reason why compilation stopped. -/
inductive Error where
  /-- The source is no program; parsing could not go on from this index. -/
  | noParse (index : Nat)
  /-- A literal, given by its digits, does not fit a register. -/
  | tooLarge (literal : String)
  /-- The input file could not be read. -/
  | cannotRead (path : String)
  /-- The output file could not be written. -/
  | cannotWrite (path : String)
  /-- The syntax tree could not be dumped. -/
  | cannotDump
deriving DecidableEq

/-- The message of an error. -/
def Error.message : Error → String
  | noParse index => s!"Syntax Error: Cannot parse from index {index}"
  | tooLarge literal => s!"Cannot store {literal} in a 64bit register"
  | cannotRead path => s!"Failed to read file: {path}"
  | cannotWrite path => s!"Failed to write file: {path}"
  | cannotDump => "Failed to dump AST"

end RegArith
