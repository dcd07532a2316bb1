/-!
# Descriptions of values

A description is the text that traces and dumps show for a value: characters and strings are
quoted, and what has parts is written with the descriptions of its parts.

## Main definitions

* `Describe` — values that have a description
* `quotedChar`, `quotedString` — quoting with escapes
* `describeSeq` — parts between brackets

## Implementation notes

Escapes are decided for ASCII characters; any other character stands for itself.
-/

namespace RegArith

/-- Values with a description for traces and dumps. -/
class Describe (α : Type) where
  /-- The description of a value. -/
  describe : α → String

export Describe (describe)

/-! ### Quoting -/

/-- A character inside a quotation that `quote` opens and closes: the quote itself, the backslash
and control characters are escaped. -/
def escapedChar (quote c : Char) : String :=
  if c = quote ∨ c = '\\' then String.ofList ['\\', c]
  else if c = '\t' then "\\t"
  else if c = '\r' then "\\r"
  else if c = '\n' then "\\n"
  else if c.toNat = 0 then "\\0"
  else if c.toNat < 32 ∨ c.toNat = 127 then
    "\\u\x7b" ++ String.ofList (Nat.toDigits 16 c.toNat) ++ "\x7d"
  else c.toString

/-- A character in single quotes. -/
def quotedChar (c : Char) : String := "'" ++ escapedChar '\'' c ++ "'"

/-- A string in double quotes. -/
def quotedString (s : String) : String :=
  "\"" ++ String.join (s.toList.map (escapedChar '"')) ++ "\""

/-! ### Parts -/

/-- Parts between brackets, divided by commas. -/
def describeSeq (opening : String) (parts : List String) (closing : String) : String :=
  opening ++ ", ".intercalate parts ++ closing

/-- A constructor applied to parts. -/
def describeApp (name : String) (parts : List String) : String :=
  describeSeq (name ++ "(") parts ")"

/-- A record with named fields. -/
def describeRecord (name : String) (fields : List (String × String)) : String :=
  describeSeq (name ++ " \x7b ") (fields.map fun (field, text) => field ++ ": " ++ text) " \x7d"

instance : Describe Char := ⟨quotedChar⟩

instance : Describe String := ⟨quotedString⟩

instance : Describe Nat := ⟨Nat.repr⟩

instance : Describe Int := ⟨toString⟩

instance {α β : Type} [Describe α] [Describe β] : Describe (α × β) where
  describe p := describeSeq "(" [describe p.1, describe p.2] ")"

instance {α : Type} [Describe α] : Describe (List α) where
  describe xs := describeSeq "[" (xs.map describe) "]"

end RegArith
