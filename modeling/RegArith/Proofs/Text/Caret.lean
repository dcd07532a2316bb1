import RegArith.Diagnostic

/-!
# Positions and lines

A diagnostic counts lines in two ways. A position is found by counting line feeds in front of an
index, and the line that is shown is taken from a list of lines, where a carriage return in front of
a line feed is dropped and an empty last line is missing. The two fit together: the column of a
character is its place in the line that is shown, unless it belongs to the ending of a line or there
is none, and then the column is behind that line.

Both ways of counting are followed from the front of the text. A character that is moved in front of
a text, one that is not part of a line ending, moves positions in the first line by a column and
leaves all others alone; a line ending moves all positions by a line.

## Main definitions

* `InEnding` — the character at an index belongs to the ending of a line
* `caretOffset` — how far the caret is from the margin

## Main results

* `locate_lt_locate` — positions come in the order of their indices
* `not_mem_shownLine` — a line that is shown has no line feed
* `getElem?_shownLine`, `caretOffset_of_ending` — the caret and the line above it
-/

namespace RegArith

/-! ### The order of positions -/

namespace Position

/-- Positions are ordered by line, and in a line by column. -/
instance : LT Position := ⟨fun p q => p.line < q.line ∨ p.line = q.line ∧ p.column < q.column⟩

theorem lt_iff {p q : Position} :
    p < q ↔ p.line < q.line ∨ p.line = q.line ∧ p.column < q.column := Iff.rfl

theorem lt_trans {p q r : Position} (h : p < q) (h' : q < r) : p < r := by
  rw [lt_iff] at h h' ⊢
  omega

theorem lt_advance (p : Position) (c : Char) : p < p.advance c := by
  rw [lt_iff, advance]
  split
  · exact .inl (Nat.lt_succ_self _)
  · exact .inr ⟨rfl, Nat.lt_succ_self _⟩

@[simp] theorem advance_newline (p : Position) : p.advance '\n' = ⟨p.line + 1, 1⟩ := rfl

theorem advance_of_ne (p : Position) {c : Char} (h : c ≠ '\n') :
    p.advance c = ⟨p.line, p.column + 1⟩ := if_neg h

theorem le_line_foldl (p : Position) (cs : List Char) : p.line ≤ (cs.foldl advance p).line := by
  induction cs generalizing p with
  | nil => exact Nat.le_refl _
  | cons c cs ih =>
    refine Nat.le_trans ?_ (ih (p.advance c))
    obtain h | ⟨h, -⟩ := p.lt_advance c
    · exact Nat.le_of_lt h
    · exact Nat.le_of_eq h

theorem one_le_column_foldl {p : Position} (h : 1 ≤ p.column) (cs : List Char) :
    1 ≤ (cs.foldl advance p).column := by
  induction cs generalizing p with
  | nil => exact h
  | cons c cs ih =>
    refine ih ?_
    by_cases hc : c = '\n'
    · subst hc
      exact Nat.le_refl 1
    · rw [advance_of_ne p hc]
      exact Nat.le_add_left 1 _

/-- One line further down to begin with is one line further down in the end. -/
theorem foldl_advance_down (p : Position) (cs : List Char) :
    cs.foldl advance ⟨p.line + 1, p.column⟩ =
      ⟨(cs.foldl advance p).line + 1, (cs.foldl advance p).column⟩ := by
  induction cs generalizing p with
  | nil => rfl
  | cons c cs ih =>
    by_cases hc : c = '\n'
    · subst hc
      exact ih ⟨p.line + 1, 1⟩
    · rw [List.foldl_cons, List.foldl_cons, advance_of_ne _ hc, advance_of_ne _ hc]
      exact ih ⟨p.line, p.column + 1⟩

/-- One column further right to begin with is one column further right as long as the line is the
same. -/
theorem foldl_advance_right (p : Position) (cs : List Char) :
    cs.foldl advance ⟨p.line, p.column + 1⟩ =
      if (cs.foldl advance p).line = p.line then ⟨p.line, (cs.foldl advance p).column + 1⟩
      else cs.foldl advance p := by
  induction cs generalizing p with
  | nil => simp
  | cons c cs ih =>
    by_cases hc : c = '\n'
    · subst hc
      have hdown := le_line_foldl ⟨p.line + 1, 1⟩ cs
      rw [List.foldl_cons, List.foldl_cons, advance_newline, advance_newline, if_neg]
      dsimp only at hdown
      omega
    · rw [List.foldl_cons, List.foldl_cons, advance_of_ne _ hc, advance_of_ne _ hc]
      exact ih ⟨p.line, p.column + 1⟩

end Position

/-! ### Positions of indices -/

theorem locate_min (source : List Char) (i : Nat) :
    locate source i = locate source (min i source.length) := by
  rw [locate, locate, ← List.take_eq_take_min]

theorem one_le_line_locate (source : List Char) (i : Nat) : 1 ≤ (locate source i).line :=
  Position.le_line_foldl .start _

theorem one_le_column_locate (source : List Char) (i : Nat) : 1 ≤ (locate source i).column :=
  Position.one_le_column_foldl (Nat.le_refl 1) _

theorem locate_lt_locate_succ {source : List Char} {i : Nat} (h : i < source.length) :
    locate source i < locate source (i + 1) := by
  rw [locate, locate, ← List.take_concat_get h, List.concat_eq_append, List.foldl_append]
  exact Position.lt_advance _ _

/-- Positions come in the order of their indices. -/
theorem locate_lt_locate {source : List Char} {i k : Nat} (hik : i < k) (hk : k ≤ source.length) :
    locate source i < locate source k := by
  induction hik with
  | refl => exact locate_lt_locate_succ hk
  | step _ ih => exact Position.lt_trans (ih (Nat.le_of_succ_le hk)) (locate_lt_locate_succ hk)

theorem locate_newline_cons (source : List Char) (i : Nat) :
    locate ('\n' :: source) (i + 1) = ⟨(locate source i).line + 1, (locate source i).column⟩ :=
  Position.foldl_advance_down .start (source.take i)

theorem locate_cons {c : Char} (hc : c ≠ '\n') (source : List Char) (i : Nat) :
    locate (c :: source) (i + 1) =
      if (locate source i).line = 1 then ⟨1, (locate source i).column + 1⟩
      else locate source i := by
  rw [locate, List.take_succ_cons, List.foldl_cons, Position.advance_of_ne _ hc]
  exact Position.foldl_advance_right .start (source.take i)

/-! ### Endings of lines -/

/-- The character at `i` belongs to the ending of a line: it is a line feed, or a carriage return
right in front of one. -/
def InEnding (source : List Char) (i : Nat) : Prop :=
  source[i]? = some '\n' ∨ source[i]? = some '\r' ∧ source[i + 1]? = some '\n'

instance (source : List Char) (i : Nat) : Decidable (InEnding source i) :=
  inferInstanceAs (Decidable (_ ∨ _))

/-- A text is built up by characters and by the two endings of a line. -/
theorem induction_on_lines {motive : List Char → Prop} (nil : motive [])
    (newline : ∀ rest, motive rest → motive ('\n' :: rest))
    (crlf : ∀ rest, motive rest → motive ('\r' :: '\n' :: rest))
    (char : ∀ c rest, ¬InEnding (c :: rest) 0 → motive rest → motive (c :: rest))
    (source : List Char) : motive source := by
  have hchar (c : Char) (rest : List Char) (hnewline : c = '\n' → False)
      (hcrlf : ∀ others, c = '\r' → rest = '\n' :: others → False) :
      ¬InEnding (c :: rest) 0 := by
    rintro (h | ⟨hr, hn⟩)
    · exact hnewline (by simpa using h)
    · cases rest with
      | nil => cases hn
      | cons d rest => exact hcrlf rest (by simpa using hr) (by simpa using hn)
  fun_induction lines source with
  | case1 => exact nil
  | case2 rest ih => exact newline rest ih
  | case3 rest ih => exact crlf rest ih
  | case4 c rest hnewline hcrlf _ ih | case5 c rest hnewline hcrlf _ _ _ ih =>
    exact char c rest (hchar c rest hnewline hcrlf) ih

theorem lines_cons {c : Char} {rest : List Char} (h : ¬InEnding (c :: rest) 0) :
    lines (c :: rest) = (c :: (lines rest).headD []) :: (lines rest).tail := by
  have hnewline : c ≠ '\n' := by
    rintro rfl
    exact h (.inl rfl)
  have hcrlf : ∀ others, c = '\r' → rest = '\n' :: others → False := by
    rintro others rfl rfl
    exact h (.inr ⟨rfl, rfl⟩)
  rw [lines]
  · cases lines rest <;> rfl
  · exact hnewline
  · exact hcrlf

/-- No line of a text goes on behind a line feed. -/
theorem not_mem_of_mem_lines {source line : List Char} (h : line ∈ lines source) : '\n' ∉ line := by
  induction source using induction_on_lines generalizing line with
  | nil => cases h
  | newline rest ih | crlf rest ih =>
    rw [lines] at h
    obtain rfl | h := List.mem_cons.1 h
    · exact List.not_mem_nil
    · exact ih h
  | char c rest hc ih =>
    have hnewline : '\n' ≠ c := by
      rintro rfl
      exact hc (.inl rfl)
    rw [lines_cons hc] at h
    cases hrest : lines rest with
    | nil =>
      rw [hrest] at h
      rw [List.mem_singleton.1 h]
      exact List.not_mem_cons_of_ne_of_not_mem hnewline List.not_mem_nil
    | cons first others =>
      rw [hrest] at h ih
      obtain rfl | h := List.mem_cons.1 h
      · exact List.not_mem_cons_of_ne_of_not_mem hnewline (ih List.mem_cons_self)
      · exact ih (List.mem_cons_of_mem _ h)

/-! ### The line above the caret -/

theorem not_mem_shownLine (source : List Char) (p : Position) : '\n' ∉ shownLine source p := by
  rw [shownLine]
  cases hline : (lines source)[p.line - 1]? with
  | none => exact List.not_mem_nil
  | some line => exact not_mem_of_mem_lines (List.mem_of_getElem? hline)

/-- How many columns the caret is away from the margin. -/
def caretOffset (source : List Char) (i : Nat) : Nat := (locate source i).column - 1

/-- Behind the first line, a text is like the text without that line. -/
theorem caret_newline_cons (rest : List Char) (i : Nat) :
    shownLine ('\n' :: rest) (locate ('\n' :: rest) (i + 1)) = shownLine rest (locate rest i) ∧
      caretOffset ('\n' :: rest) (i + 1) = caretOffset rest i := by
  obtain ⟨line, hline⟩ := Nat.exists_eq_add_of_le' (one_le_line_locate rest i)
  rw [caretOffset, locate_newline_cons, shownLine, lines, shownLine, hline]
  exact ⟨rfl, rfl⟩

/-- Empty lines in front of a text change the numbers of its lines, and nothing else. -/
theorem locate_replicate_append (n : Nat) (rest : List Char) (i : Nat) :
    locate (List.replicate n '\n' ++ rest) (i + n) =
        ⟨(locate rest i).line + n, (locate rest i).column⟩ ∧
      shownLine (List.replicate n '\n' ++ rest) (locate (List.replicate n '\n' ++ rest) (i + n)) =
        shownLine rest (locate rest i) := by
  induction n with
  | zero => exact ⟨rfl, rfl⟩
  | succ n ih =>
    obtain ⟨hlocate, hshown⟩ := ih
    rw [List.replicate_succ, List.cons_append, ← Nat.add_assoc]
    refine ⟨?_, ?_⟩
    · rw [locate_newline_cons, hlocate, Nat.add_assoc]
    · rw [(caret_newline_cons _ _).1, hshown]

theorem caret_crlf_cons (rest : List Char) (i : Nat) :
    shownLine ('\r' :: '\n' :: rest) (locate ('\r' :: '\n' :: rest) (i + 2)) =
        shownLine rest (locate rest i) ∧
      caretOffset ('\r' :: '\n' :: rest) (i + 2) = caretOffset rest i := by
  have hlocate : locate ('\r' :: '\n' :: rest) (i + 2) = locate ('\n' :: rest) (i + 1) := by
    have hline := one_le_line_locate rest i
    rw [locate_cons (by decide), locate_newline_cons, if_neg]
    dsimp only
    omega
  have hlines : lines ('\r' :: '\n' :: rest) = lines ('\n' :: rest) := by rw [lines, lines]
  rw [caretOffset, hlocate, shownLine, hlines]
  exact caret_newline_cons rest i

/-- A character in front of a text belongs to its first line, and there the caret moves with it. -/
theorem caret_cons {c : Char} {rest : List Char} (h : ¬InEnding (c :: rest) 0) (i : Nat) :
    (shownLine (c :: rest) (locate (c :: rest) (i + 1)) = c :: shownLine rest (locate rest i) ∧
      caretOffset (c :: rest) (i + 1) = caretOffset rest i + 1) ∨
    (shownLine (c :: rest) (locate (c :: rest) (i + 1)) = shownLine rest (locate rest i) ∧
      caretOffset (c :: rest) (i + 1) = caretOffset rest i) := by
  have hc : c ≠ '\n' := by
    rintro rfl
    exact h (.inl rfl)
  have hcolumn := one_le_column_locate rest i
  rw [caretOffset, locate_cons hc, shownLine, shownLine, lines_cons h, caretOffset]
  by_cases hline : (locate rest i).line = 1
  · refine .inl ?_
    rw [if_pos hline, hline]
    refine ⟨?_, by dsimp only; omega⟩
    cases lines rest <;> rfl
  · refine .inr ?_
    obtain ⟨line, hline'⟩ := Nat.exists_eq_add_of_le' (one_le_line_locate rest i)
    obtain ⟨line, rfl⟩ : ∃ m, line = m + 1 := ⟨line - 1, by omega⟩
    rw [if_neg hline, hline']
    refine ⟨?_, rfl⟩
    cases lines rest <;> rfl

/-- A character that does not belong to the ending of a line is shown, and the caret stands under
it. -/
theorem getElem?_shownLine {source : List Char} {i : Nat} {c : Char} (hc : source[i]? = some c)
    (hchar : ¬InEnding source i) :
    (shownLine source (locate source i))[caretOffset source i]? = some c := by
  induction source using induction_on_lines generalizing i with
  | nil => cases hc
  | newline rest ih =>
    cases i with
    | zero => exact absurd (.inl rfl) hchar
    | succ i =>
      rw [(caret_newline_cons rest i).1, (caret_newline_cons rest i).2]
      exact ih hc hchar
  | crlf rest ih =>
    match i with
    | 0 => exact absurd (.inr ⟨rfl, rfl⟩) hchar
    | 1 => exact absurd (.inl rfl) hchar
    | i + 2 =>
      rw [(caret_crlf_cons rest i).1, (caret_crlf_cons rest i).2]
      exact ih hc hchar
  | char d rest hd ih =>
    cases i with
    | zero =>
      cases hc
      rw [shownLine, lines_cons hd]
      rfl
    | succ i =>
      have hshown := ih hc hchar
      obtain ⟨hline, hoffset⟩ | ⟨hline, hoffset⟩ := caret_cons hd i
      · rwa [hline, hoffset, List.getElem?_cons_succ]
      · rwa [hline, hoffset]

/-- The line of such a character exists. -/
theorem getElem?_lines {source : List Char} {i : Nat} {c : Char} (hc : source[i]? = some c)
    (hchar : ¬InEnding source i) :
    (lines source)[(locate source i).line - 1]? = some (shownLine source (locate source i)) := by
  have hshown := getElem?_shownLine hc hchar
  rw [shownLine] at hshown ⊢
  cases hline : (lines source)[(locate source i).line - 1]? with
  | none =>
    rw [hline] at hshown
    cases hshown
  | some line => rfl

/-- At the ending of a line and at the end of the text, the caret stands behind the line that is
shown, or one column further when a carriage return is not shown. -/
theorem caretOffset_of_ending {source : List Char} {i : Nat}
    (hending : InEnding source i ∨ source.length ≤ i) :
    caretOffset source i = (shownLine source (locate source i)).length ∨
      caretOffset source i = (shownLine source (locate source i)).length + 1 := by
  induction source using induction_on_lines generalizing i with
  | nil =>
    rw [caretOffset, locate, List.take_nil]
    exact .inl rfl
  | newline rest ih =>
    cases i with
    | zero =>
      rw [shownLine, lines]
      exact .inl rfl
    | succ i =>
      rw [(caret_newline_cons rest i).1, (caret_newline_cons rest i).2]
      exact ih (hending.imp id Nat.le_of_succ_le_succ)
  | crlf rest ih =>
    match i with
    | 0 =>
      rw [shownLine, lines]
      exact .inl rfl
    | 1 =>
      rw [shownLine, lines]
      exact .inr rfl
    | i + 2 =>
      rw [(caret_crlf_cons rest i).1, (caret_crlf_cons rest i).2]
      exact ih (hending.imp id fun hle => Nat.le_of_succ_le_succ (Nat.le_of_succ_le_succ hle))
  | char d rest hd ih =>
    cases i with
    | zero => exact absurd hending (by simp [hd])
    | succ i =>
      have hbehind := ih (hending.imp id Nat.le_of_succ_le_succ)
      obtain ⟨hline, hoffset⟩ | ⟨hline, hoffset⟩ := caret_cons hd i
      · rw [hline, hoffset, List.length_cons]
        omega
      · rwa [hline, hoffset]

end RegArith
