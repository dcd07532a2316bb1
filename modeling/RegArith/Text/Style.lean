/-!
# Styled terminal text

Text is styled by escape sequences: one before it for each style and one after it that takes the
style back.

## Main definitions

* `Style` — colours and effects
* `styled` — a text between the sequences of its styles
-/

namespace RegArith

/-- A colour or an effect of terminal text. -/
inductive Style where
  | red
  | green
  | blue
  | cyan
  | bold
  | underline
deriving DecidableEq

namespace Style

/-- The number that switches the style on. -/
def onCode : Style → Nat
  | red => 31
  | green => 32
  | blue => 34
  | cyan => 36
  | bold => 1
  | underline => 4

/-- The number that switches the style off; all colours share one. -/
def offCode : Style → Nat
  | red | green | blue | cyan => 39
  | bold => 22
  | underline => 24

/-- The escape sequence of a number. -/
def escape (code : Nat) : String := s!"\x1b[{code}m"

end Style

/-- `text` in the given styles, which end in the order in which they began. -/
def styled (styles : List Style) (text : String) : String :=
  String.join (styles.map fun s => Style.escape s.onCode) ++ text ++
    String.join (styles.map fun s => Style.escape s.offCode)

end RegArith
