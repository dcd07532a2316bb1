import RegArith.Error
import RegArith.Text.Lines
import RegArith.Text.Style

/-!
# Diagnostics

An error as it is shown to a user. A syntax error comes with its position, the line of the source
that it is in, and a caret below the character at which parsing could not go on.

## Main definitions

* `Error.diagnostic` — the text shown for an error in a file
-/

namespace RegArith

/-- `text` moved to the right end of `width` columns. -/
def alignRight (width : Nat) (text : String) : String :=
  String.ofList (List.replicate (width - text.length) ' ') ++ text

/-- The line of the source that a position is in; empty if there is no such line. -/
def shownLine (source : List Char) (p : Position) : List Char :=
  ((lines source)[p.line - 1]?).getD []

/-- The part of a diagnostic that points at an index of the source. -/
def pointer (file source : String) (index : Nat) : String :=
  let p := locate source.toList index
  let bar := styled [.blue] "|"
  String.join [
    "     ", styled [.blue] "-->", " ",
    styled [.underline] s!"{file}:{p.line}:{p.column}", "\n",
    "      ", bar, "\n",
    " ", styled [.blue] (alignRight 4 (toString p.line) ++ " |"), " ",
    String.ofList (shownLine source.toList p), "\n",
    "      ", bar, " ", String.ofList (List.replicate (p.column - 1) ' '),
    styled [.red, .bold] "^", "\n"]

/-- What is shown for an error in `file`, whose text is `source`. -/
def Error.diagnostic (e : Error) (file source : String) : String :=
  styled [.red, .bold] "error" ++ ": " ++ e.message ++ "\n" ++
    match e with
    | .noParse index => pointer file source index
    | _ => ""

end RegArith
