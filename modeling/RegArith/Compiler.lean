import RegArith.Assembly.Lowering
import RegArith.Language.Grammar

/-!
# Compilation

## Main definitions

* `compile` — from a source to the text of its assembly
-/

namespace RegArith

/-- The assembly text of a source. Nothing is produced unless the whole source is a program and
all of it can be lowered. -/
def compile (source : String) : StateM Nat (Except Error String) := do
  match ← parse source with
  | .error e => return .error e
  | .ok program => return generate program

end RegArith
