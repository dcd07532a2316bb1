/-!
# Lines of a text

A line ends with a line feed, and a carriage return right before the line feed belongs to the
ending. What follows the last line feed is a line only if it is not empty.

Positions count line feeds alone, so a carriage return takes a column of its own.

## Main definitions

* `lines` — the lines of a text, without their endings
* `Position`, `locate` — line and column of an index
-/

namespace RegArith

/-- The lines of a text, without their endings. -/
def lines : List Char → List (List Char)
  | [] => []
  | '\n' :: rest => [] :: lines rest
  | '\r' :: '\n' :: rest => [] :: lines rest
  | c :: rest =>
    match lines rest with
    | [] => [[c]]
    | line :: others => (c :: line) :: others

/-- Line and column, both counted from one. -/
structure Position where
  /-- The number of the line. -/
  line : Nat
  /-- The number of the character in its line. -/
  column : Nat
deriving DecidableEq

namespace Position

/-- The beginning of a text. -/
def start : Position := ⟨1, 1⟩

/-- The position after a character. -/
def advance (p : Position) (c : Char) : Position :=
  if c = '\n' then ⟨p.line + 1, 1⟩ else ⟨p.line, p.column + 1⟩

end Position

/-- The position of an index; an index past the end is at the end. -/
def locate (source : List Char) (index : Nat) : Position :=
  (source.take index).foldl Position.advance .start

end RegArith
