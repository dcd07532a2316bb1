import RegArith.Proofs.Text.Caret
import RegArith.Text.Plain

/-!
# Where the caret is printed

A diagnostic ends with two rows: a line of the source behind a gutter, which holds the number of
the line, and a caret behind a margin. Both are styled, and what styles them takes no column of a
row. The characters of the source count for a column each, as they do in a position.

The gutter has four columns for the number and grows with a number that has more digits. The margin
does not grow with it. So in the first 9999 lines the caret is printed below the character that it
points at. From then on it is too far to the left, by one column for every further digit.

## Main definitions

* `Prints` — what is seen of a text in a row
* `Draws` — what is seen of the last two rows of a text
* `CaretBelow` — the caret of a text is below a character of the line above it

## Main results

* `Prints.styled` — styles are not seen
* `Draws.unique` — a text has one gutter and one margin
* `draws_diagnostic`, `caretBelow_diagnostic_iff` — the last two rows of a diagnostic
* `caret_below_character_iff` — the character, its line and the caret, for every index
-/

namespace RegArith

/-! ### What is seen in a row -/

/-- The characters of `plain` are all that is seen of `text`. They are in one row, and what is
printed behind them is seen as if it stood alone. -/
structure Prints (text plain : String) : Prop where
  kept (rest : List Char) :
    PlainState.kept {} (text.toList ++ rest) = plain.toList ++ PlainState.kept {} rest
  one_row : '\n' ∉ text.toList

namespace Prints

variable {text text' plain plain' : String}

theorem plainText_eq (h : Prints text plain) : plainText text = plain := by
  have hkept := h.kept []
  rw [PlainState.kept, List.append_nil, List.append_nil] at hkept
  rw [plainText, hkept, String.ofList_toList]

theorem empty : Prints "" "" := ⟨fun _ => rfl, by decide⟩

theorem append (h : Prints text plain) (h' : Prints text' plain') :
    Prints (text ++ text') (plain ++ plain') := by
  refine ⟨fun rest => ?_, ?_⟩
  · rw [String.toList_append, String.toList_append, List.append_assoc, h.kept, h'.kept,
      List.append_assoc]
  · rw [String.toList_append, List.mem_append]
    exact fun hmem => hmem.elim h.one_row h'.one_row

/-- Characters with a shape of their own are seen as they are. -/
theorem of_isPrintable (h : text.toList.all isPrintable) : Prints text text := by
  rw [List.all_eq_true] at h
  exact ⟨PlainState.kept_append_of_isPrintable h, fun hmem => absurd (h _ hmem) (by decide)⟩

theorem join {texts : List String} (h : ∀ t ∈ texts, Prints t "") :
    Prints (String.join texts) "" := by
  induction texts with
  | nil => exact .empty
  | cons t texts ih =>
    obtain ⟨ht, htexts⟩ := List.forall_mem_cons.1 h
    rw [String.join_cons]
    exact ht.append (ih htexts)

theorem onCode (s : Style) : Prints (Style.escape s.onCode) "" := by
  cases s <;> exact ⟨fun _ => rfl, by decide⟩

theorem offCode (s : Style) : Prints (Style.escape s.offCode) "" := by
  cases s <;> exact ⟨fun _ => rfl, by decide⟩

/-- Styles are not seen. -/
theorem styled (styles : List Style) (h : Prints text plain) :
    Prints (RegArith.styled styles text) plain := by
  have hon : Prints (String.join (styles.map fun s => Style.escape s.onCode)) "" :=
    join (List.forall_mem_map.2 fun s _ => onCode s)
  have hoff : Prints (String.join (styles.map fun s => Style.escape s.offCode)) "" :=
    join (List.forall_mem_map.2 fun s _ => offCode s)
  simpa [RegArith.styled] using (hon.append h).append hoff

end Prints

/-! ### The last two rows -/

/-- The last row of `text` is seen as `margin` and a caret, and the row above it has the characters
of `line` behind something that is seen as `gutter`. -/
def Draws (text : String) (line : List Char) (gutter margin : String) : Prop :=
  ∃ above front row : String,
    text = above ++ "\n" ++ front ++ String.ofList line ++ "\n" ++ row ++ "\n" ∧
    '\n' ∉ front.toList ++ line ∧ '\n' ∉ row.toList ∧
    plainText front = gutter ∧ plainText row = margin ++ "^"

/-- The last row of a text is known from the text. -/
theorem eq_of_append_newline_eq {head head' row row' : String} (hrow : '\n' ∉ row.toList)
    (hrow' : '\n' ∉ row'.toList) (h : head ++ "\n" ++ row = head' ++ "\n" ++ row') :
    head = head' ∧ row = row' := by
  simp only [← String.toList_inj, String.toList_append, List.append_assoc,
    show "\n".toList = ['\n'] from rfl, List.singleton_append] at h ⊢
  obtain ⟨between, hhead, htail⟩ | ⟨between, hhead, htail⟩ := List.append_eq_append_iff.1 h
  all_goals
    cases between with
    | nil => simp_all
    | cons c between =>
      -- one of the rows would go on behind a line feed
      obtain ⟨rfl, htail⟩ := List.cons.inj htail
      simp_all

/-- A text has one gutter and one margin. -/
theorem Draws.unique {text : String} {line : List Char} {gutter gutter' margin margin' : String}
    (h : Draws text line gutter margin) (h' : Draws text line gutter' margin') :
    gutter = gutter' ∧ margin = margin' := by
  obtain ⟨above, front, row, rfl, hfront, hrow, rfl, hmargin⟩ := h
  obtain ⟨above', front', row', htext, hfront', hrow', rfl, hmargin'⟩ := h'
  rw [List.mem_append, not_or] at hfront hfront'
  obtain ⟨hrows, rfl⟩ := eq_of_append_newline_eq hrow hrow' ((String.append_left_inj _).1 htext)
  obtain ⟨-, rfl⟩ := eq_of_append_newline_eq hfront.1 hfront'.1
    ((String.append_left_inj _).1 hrows)
  exact ⟨rfl, (String.append_left_inj _).1 (hmargin.symm.trans hmargin')⟩

/-- The caret of `text` is `k` columns to the right of where the row above has the first character
of `line`. -/
def CaretBelow (text : String) (line : List Char) (k : Nat) : Prop :=
  ∃ gutter margin, Draws text line gutter margin ∧ margin.length = gutter.length + k

/-! ### The last two rows of a diagnostic -/

/-- What is seen in front of a line of the source. -/
def lineGutter (n : Nat) : String := " " ++ (alignRight 4 (toString n) ++ " |") ++ " "

/-- What is seen in front of the caret. -/
def caretMargin (column : Nat) : String :=
  "      " ++ "|" ++ " " ++ String.ofList (List.replicate (column - 1) ' ')

@[simp] theorem length_alignRight (width : Nat) (text : String) :
    (alignRight width text).length = max width text.length := by
  simp only [alignRight, String.length_append, String.length_ofList, List.length_replicate]
  omega

theorem length_lineGutter (n : Nat) :
    (lineGutter n).length = max 4 (toString n).length + 4 := by
  have hblank : " ".length = 1 := rfl
  have hbar : " |".length = 2 := rfl
  simp only [lineGutter, String.length_append, length_alignRight, hblank, hbar]
  omega

theorem length_caretMargin (column : Nat) : (caretMargin column).length = 8 + (column - 1) := by
  have hindent : "      ".length = 6 := rfl
  have hbar : "|".length = 1 := rfl
  have hblank : " ".length = 1 := rfl
  simp only [caretMargin, String.length_append, hindent, hbar, hblank, String.length_ofList,
    List.length_replicate]

theorem isPrintable_of_isDigit {c : Char} (h : c.isDigit) : isPrintable c := by
  rw [Char.isDigit, Bool.and_eq_true, decide_eq_true_eq, decide_eq_true_eq] at h
  have hlow : 48 ≤ c.toNat := UInt32.le_iff_toNat_le.1 h.1
  have hhigh : c.toNat ≤ 57 := UInt32.le_iff_toNat_le.1 h.2
  simp only [isPrintable, Bool.and_eq_true, decide_eq_true_eq, bne_iff_ne]
  omega

theorem prints_blanks (n : Nat) :
    Prints (String.ofList (List.replicate n ' ')) (String.ofList (List.replicate n ' ')) := by
  refine .of_isPrintable (List.all_eq_true.2 fun c hc => ?_)
  rw [String.toList_ofList] at hc
  rw [List.eq_of_mem_replicate hc]
  decide

/-- The number of a line is seen as it is. -/
theorem prints_toString (n : Nat) : Prints (toString n) (toString n) :=
  .of_isPrintable (List.all_eq_true.2 fun _ hc => isPrintable_of_isDigit
    (Nat.isDigit_of_mem_toDigits (by decide) (by decide) (Nat.toList_repr ▸ hc)))

theorem prints_lineGutter (n : Nat) :
    Prints (" " ++ styled [.blue] (alignRight 4 (toString n) ++ " |") ++ " ") (lineGutter n) := by
  have hblank : Prints " " " " := .of_isPrintable (by decide)
  have hbar : Prints " |" " |" := .of_isPrintable (by decide)
  have hnumber := ((prints_blanks (4 - (toString n).length)).append (prints_toString n)).append hbar
  exact (hblank.append (hnumber.styled [.blue])).append hblank

theorem prints_caretMargin (column : Nat) :
    Prints ("      " ++ styled [.blue] "|" ++ " " ++
        String.ofList (List.replicate (column - 1) ' ') ++ styled [.red, .bold] "^")
      (caretMargin column ++ "^") := by
  have hindent : Prints "      " "      " := .of_isPrintable (by decide)
  have hbar : Prints "|" "|" := .of_isPrintable (by decide)
  have hblank : Prints " " " " := .of_isPrintable (by decide)
  have hcaret : Prints "^" "^" := .of_isPrintable (by decide)
  exact (((hindent.append (hbar.styled [.blue])).append hblank).append
    (prints_blanks (column - 1))).append (hcaret.styled [.red, .bold])

/-- **The last two rows of a diagnostic.** -/
theorem draws_diagnostic (file source : String) (i : Nat) :
    Draws ((Error.noParse i).diagnostic file source)
      (shownLine source.toList (locate source.toList i))
      (lineGutter (locate source.toList i).line) (caretMargin (locate source.toList i).column) := by
  have hgutter := prints_lineGutter (locate source.toList i).line
  have hmargin := prints_caretMargin (locate source.toList i).column
  refine ⟨styled [.red, .bold] "error" ++ ": " ++ (Error.noParse i).message ++ "\n" ++
    "     " ++ styled [.blue] "-->" ++ " " ++ styled [.underline]
      s!"{file}:{(locate source.toList i).line}:{(locate source.toList i).column}" ++ "\n" ++
    "      " ++ styled [.blue] "|", _, _, ?_, ?_, hmargin.one_row, hgutter.plainText_eq,
    hmargin.plainText_eq⟩
  · simp only [Error.diagnostic, pointer, String.join_cons, String.join_nil, String.append_assoc,
      String.append_empty]
  · rw [List.mem_append, not_or]
    exact ⟨hgutter.one_row, not_mem_shownLine _ _⟩

theorem caretBelow_diagnostic_iff (file source : String) (i : Nat) :
    CaretBelow ((Error.noParse i).diagnostic file source)
        (shownLine source.toList (locate source.toList i)) ((locate source.toList i).column - 1) ↔
      (locate source.toList i).line < 10000 := by
  have hdraws := draws_diagnostic file source i
  have hdigits : (toString (locate source.toList i).line).length ≤ 4 ↔
      (locate source.toList i).line < 10000 := Nat.length_repr_le_iff (by decide)
  rw [← hdigits]
  constructor
  · rintro ⟨gutter, margin, h, hbelow⟩
    obtain ⟨rfl, rfl⟩ := hdraws.unique h
    rw [length_lineGutter, length_caretMargin] at hbelow
    omega
  · intro hle
    refine ⟨_, _, hdraws, ?_⟩
    rw [length_lineGutter, length_caretMargin]
    omega

/-- **The caret and its character.** An index past the end is at the end; lines and columns count
from one; and positions come in the order of their indices. The line of a character that does not
belong to the ending of a line exists, is the one that is shown, and has the character in its
column. For every other index the column is the one behind the line that is shown, or the next one.
The caret is printed in this column exactly if the line is among the first 9999. In all other lines
it is too far to the left, by a column for each digit that the number of the line has above four. -/
theorem caret_below_character_iff (file source : String) (i : Nat) :
    ∃ p shown, locate source.toList i = p ∧ shownLine source.toList p = shown ∧
      p = locate source.toList (min i source.toList.length) ∧
      1 ≤ p.line ∧ 1 ≤ p.column ∧
      (∀ k, i < k → k ≤ source.toList.length → p < locate source.toList k) ∧
      (∀ c, source.toList[i]? = some c → ¬InEnding source.toList i →
        (lines source.toList)[p.line - 1]? = some shown ∧ shown[p.column - 1]? = some c) ∧
      (InEnding source.toList i ∨ source.toList.length ≤ i →
        p.column - 1 = shown.length ∨ p.column - 1 = shown.length + 1) ∧
      (CaretBelow ((Error.noParse i).diagnostic file source) shown (p.column - 1) ↔
        p.line < 10000) ∧
      ∃ gutter margin, Draws ((Error.noParse i).diagnostic file source) shown gutter margin ∧
        margin.length + ((toString p.line).length - 4) = gutter.length + (p.column - 1) := by
  refine ⟨_, _, rfl, rfl, locate_min _ i, one_le_line_locate _ i, one_le_column_locate _ i,
    fun k => locate_lt_locate, fun c hc hchar => ?_, caretOffset_of_ending,
    caretBelow_diagnostic_iff file source i, _, _, draws_diagnostic file source i, ?_⟩
  · exact ⟨getElem?_lines hc hchar, getElem?_shownLine hc hchar⟩
  · rw [length_lineGutter, length_caretMargin]
    omega

/-- A question mark in the second line of a text whose lines end with a carriage return and a line
feed. The caret is below it; for the line feed in front of that line, the caret is one column
behind the end of the first line, as the carriage return is not shown. -/
theorem caret_below_question_mark :
    (∃ shown, (lines "r10 = 1;\r\nr11 = ?;".toList)[1]? = some shown ∧ shown[6]? = some '?' ∧
      CaretBelow ((Error.noParse 16).diagnostic "sums" "r10 = 1;\r\nr11 = ?;") shown 6) ∧
    InEnding "r10 = 1;\r\nr11 = ?;".toList 9 ∧
    ∃ shown, shownLine "r10 = 1;\r\nr11 = ?;".toList ⟨1, 10⟩ = shown ∧
      CaretBelow ((Error.noParse 9).diagnostic "sums" "r10 = 1;\r\nr11 = ?;") shown
        (shown.length + 1) := by
  have hmark : locate "r10 = 1;\r\nr11 = ?;".toList 16 = ⟨2, 7⟩ := by decide
  have hfeed : locate "r10 = 1;\r\nr11 = ?;".toList 9 = ⟨1, 10⟩ := by decide
  have hending : InEnding "r10 = 1;\r\nr11 = ?;".toList 9 := by decide
  obtain ⟨p, shown, hp, -, -, -, -, -, hchar, -, hcaret, -⟩ :=
    caret_below_character_iff "sums" "r10 = 1;\r\nr11 = ?;" 16
  obtain ⟨p', shown', hp', hshown', -, -, -, -, -, hbehind, hcaret', -⟩ :=
    caret_below_character_iff "sums" "r10 = 1;\r\nr11 = ?;" 9
  obtain rfl := hp.symm.trans hmark
  obtain rfl := hp'.symm.trans hfeed
  obtain ⟨hline, hat⟩ := hchar '?' (by decide) (by decide)
  have hlength : 9 = shown'.length + 1 := by
    refine (hbehind (.inl hending)).resolve_left ?_
    subst hshown'
    decide
  refine ⟨⟨shown, hline, hat, hcaret.2 (by decide)⟩, hending, shown', hshown', ?_⟩
  rw [← hlength]
  exact hcaret'.2 (by decide)

/-- Behind 9999 empty lines there is a line with a question mark. The caret is one column to the
left of it, below the blank in front. -/
theorem caret_left_of_question_mark :
    ∃ source : String, source.toList = List.replicate 9999 '\n' ++ "r10 = ?;".toList ∧
      source.toList[10005]? = some '?' ∧ ¬InEnding source.toList 10005 ∧
      locate source.toList 10005 = ⟨10000, 7⟩ ∧
      shownLine source.toList ⟨10000, 7⟩ = "r10 = ?;".toList ∧ "r10 = ?;".toList[6]? = some '?' ∧
      Draws ((Error.noParse 10005).diagnostic "sums" source) "r10 = ?;".toList
        " 10000 | " "      |       " ∧
      ¬CaretBelow ((Error.noParse 10005).diagnostic "sums" source) "r10 = ?;".toList 6 := by
  obtain ⟨source, hsource⟩ : ∃ source : String,
      source.toList = List.replicate 9999 '\n' ++ "r10 = ?;".toList := ⟨_, String.toList_ofList⟩
  refine ⟨source, hsource, ?_⟩
  -- the number of empty lines is hidden, so that none of them is looked at
  obtain ⟨n, hn⟩ : ∃ n, 9999 = n := ⟨_, rfl⟩
  have hindex : 10005 = 6 + n := by omega
  rw [hn] at hsource
  rw [hindex]
  have hp : locate "r10 = ?;".toList 6 = ⟨1, 7⟩ := by decide
  have hline : shownLine "r10 = ?;".toList ⟨1, 7⟩ = "r10 = ?;".toList := by decide
  have hchar (k : Nat) : source.toList[k + n]? = "r10 = ?;".toList[k]? := by
    rw [hsource, List.getElem?_append_right (by simp)]
    simp
  obtain ⟨hbehind, hshown⟩ := locate_replicate_append n "r10 = ?;".toList 6
  rw [← hsource] at hbehind hshown
  have hlocate : locate source.toList (6 + n) = ⟨10000, 7⟩ := by rw [hbehind, hp, ← hn]
  rw [hlocate, hp, hline] at hshown
  have hdraws := draws_diagnostic "sums" source (6 + n)
  have hcaret := caretBelow_diagnostic_iff "sums" source (6 + n)
  rw [hlocate, hshown] at hdraws hcaret
  refine ⟨hchar 6, ?_, hlocate, hshown, by decide, hdraws, fun h => absurd (hcaret.1 h) (by decide)⟩
  rintro (h | ⟨h, -⟩) <;> rw [hchar] at h <;> exact absurd h (by decide)

end RegArith
