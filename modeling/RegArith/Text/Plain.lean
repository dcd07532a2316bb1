/-!
# Plain text

Text that a user has given may hold terminal control sequences. `plainText` is what such a text
prints where sequences have no effect: the sequences and all control characters are dropped,
and blanks, tabs and line endings stay.

A sequence is open from its escape character to its last character. A tab or line ending does not
belong to an escape or control sequence: it is kept, and so is what follows it, until the next
control character takes the sequence up again.

## Main definitions

* `Sequence` — the kinds of open sequences
* `PlainState.step` — the effect of one character, and whether it is kept
* `plainText` — the characters that are kept

## Main results

* `PlainState.kept_append_of_isPrintable` — characters with a shape of their own are kept
-/

namespace RegArith

/-- A sequence that has begun and not ended. -/
inductive Sequence where
  /-- After the escape character. -/
  | escape
  /-- After an escape character and further selecting characters. -/
  | selected
  /-- A control sequence, with its parameters. -/
  | control
  /-- The head of a device control string. -/
  | deviceHead
  /-- A string that ends at the string terminator. -/
  | string
  /-- A command of the operating system, which ends at the bell. -/
  | command
deriving DecidableEq

/-- The escape character, which opens a sequence wherever it stands. -/
def escapeChar : Char := Char.ofNat 0x1b

/-- Whether a character breaks an open sequence off: cancel or substitute. -/
def isCancel (c : Char) : Bool := c.toNat == 0x18 || c.toNat == 0x1a

/-- Whether a character is a tab or ends a line or a page. -/
def isBreak (c : Char) : Bool := c == '\t' || c == '\n' || c == '\r' || c.toNat == 0x0c

/-- Whether a character has a shape of its own. -/
def isPrintable (c : Char) : Bool := 0x20 ≤ c.toNat && c.toNat != 0x7f

/-- Whether the byte of the string terminator occurs in the encoding of a character. -/
def holdsTerminator (c : Char) : Bool := (String.utf8EncodeChar c).contains 0x9c

namespace Sequence

/-- The sequence after a character that belongs to it; `none` if the character is its last. -/
def next (s : Sequence) (c : Char) : Option Sequence :=
  let n := c.toNat
  match s with
  | escape =>
    if c = '[' then some control
    else if c = ']' then some command
    else if c = 'P' then some deviceHead
    else if c = 'X' ∨ c = '^' ∨ c = '_' then some string
    else if 0x20 ≤ n ∧ n < 0x30 then some selected
    else if 0x30 ≤ n ∧ n < 0x7f then none
    else some escape
  | selected => if 0x30 ≤ n ∧ n < 0x7f then none else some selected
  | control => if 0x40 ≤ n ∧ n < 0x7f then none else some control
  | deviceHead => if 0x40 ≤ n ∧ n < 0x7f then some string else some deviceHead
  | string => if holdsTerminator c then none else some string
  | command => if n = 0x07 then none else some command

/-- Whether tabs and line endings are kept in the sequence. -/
def keepsBreaks : Sequence → Bool
  | escape | selected | control => true
  | deviceHead | string | command => false

end Sequence

/-- Where a text is in its sequences. -/
structure PlainState where
  /-- The open sequence. -/
  opened : Option Sequence := none
  /-- Whether the open sequence is interrupted by text. -/
  paused : Bool := false

namespace PlainState

/-- The effect of a character that stands outside sequences, and whether it is kept. -/
def textStep (s : PlainState) (c : Char) : PlainState × Bool :=
  if 0x80 ≤ c.toNat then ({}, true)
  else if isPrintable c || isBreak c then (s, true)
  else ({ s with paused := false }, false)

/-- The effect of a character, and whether it is kept. -/
def step (s : PlainState) (c : Char) : PlainState × Bool :=
  if c = escapeChar then ({ opened := some .escape }, false)
  else if isCancel c then ({}, false)
  else
    match s.opened, s.paused with
    | some sequence, false =>
      if sequence.keepsBreaks && isBreak c then ({ s with paused := true }, true)
      else ({ opened := sequence.next c }, false)
    | _, _ => s.textStep c

/-- The characters of a text that are kept. -/
def kept (s : PlainState) : List Char → List Char
  | [] => []
  | c :: rest =>
    match s.step c with
    | (after, true) => c :: after.kept rest
    | (after, false) => after.kept rest

end PlainState

/-- A text without control sequences and control characters. -/
def plainText (text : String) : String := String.ofList (PlainState.kept {} text.toList)

/-! ### Characters that are kept -/

namespace PlainState

theorem step_of_isPrintable {c : Char} (h : isPrintable c) : step {} c = ({}, true) := by
  simp only [isPrintable, Bool.and_eq_true, decide_eq_true_eq, bne_iff_ne] at h
  have hescape : c ≠ escapeChar := by
    rintro rfl
    exact absurd h.1 (by decide)
  have hcancel : isCancel c = false := by
    simp only [isCancel, Bool.or_eq_false_iff, beq_eq_false_iff_ne]
    omega
  have hprintable : isPrintable c = true := by simp [isPrintable, h]
  rw [step, if_neg hescape, hcancel]
  simp [textStep, hprintable]

/-- Characters with a shape of their own are kept, and open no sequence. -/
theorem kept_append_of_isPrintable {cs : List Char} (h : ∀ c ∈ cs, isPrintable c)
    (rest : List Char) : kept {} (cs ++ rest) = cs ++ kept {} rest := by
  induction cs with
  | nil => rfl
  | cons c cs ih =>
    obtain ⟨hc, hcs⟩ := List.forall_mem_cons.1 h
    rw [List.cons_append, kept, step_of_isPrintable hc, List.cons_append, ← ih hcs]

end PlainState

end RegArith
