import RegArith.Proofs.Assembly.Placement
import RegArith.Text.Lines

/-!
# Reading a listing back

An assembler gets a text, not a listing. The text of a program's code can be cut into lines again,
and gives the texts of the lines of the code: no line holds a line break. That takes an argument,
because comments quote expressions; a program that can be lowered has no literals but numbers.

What a line is can be seen from its text. Instructions are indented and nothing else is, and the
word at the start of an instruction tells which one it is.

## Main definitions

* `textLines` — the lines of a text
* `Line.IsTidy` — no line breaks, and indented only if it is an instruction

## Main results

* `Program.isTidy_code` — the code of a program is tidy
* `Program.textLines_code` — the lines of a program's text
* `Instr.eq_loop_of_text`, `Instr.eq_call_of_text` — jumps and calls by their text
-/

namespace RegArith

/-! ### Lines of a text -/

/-- The lines of a text, without their endings. -/
def textLines (text : String) : List String := (lines text.toList).map String.ofList

/-- The text holds no line break and no part of one. -/
def SingleLine (text : String) : Prop := ∀ c ∈ text.toList, c ≠ '\n' ∧ c ≠ '\r'

instance (text : String) : Decidable (SingleLine text) := List.decidableBAll _ text.toList

@[simp] theorem singleLine_append {a b : String} :
    SingleLine (a ++ b) ↔ SingleLine a ∧ SingleLine b := by
  simp only [SingleLine, String.toList_append, List.forall_mem_append]

theorem lines_append_newline {line : List Char} (h : ∀ c ∈ line, c ≠ '\n' ∧ c ≠ '\r')
    (rest : List Char) : lines (line ++ '\n' :: rest) = line :: lines rest := by
  induction line with
  | nil => rw [List.nil_append, lines]
  | cons c line ih =>
    rw [List.forall_mem_cons] at h
    rw [List.cons_append, lines, ih h.2]
    · exact h.1.1
    · rintro _ hcr -
      exact h.1.2 hcr

/-- The text of a listing is cut into the texts of its lines. -/
theorem textLines_listingText {listing : List Line} (hne : listing ≠ [])
    (h : ∀ line ∈ listing, SingleLine line.text) :
    textLines (listingText listing) = listing.map Line.text := by
  have hcut (texts : List String) (hne : texts ≠ []) (h : ∀ text ∈ texts, SingleLine text) :
      lines ("\n".intercalate texts ++ "\n").toList = texts.map String.toList := by
    induction texts with
    | nil => exact absurd rfl hne
    | cons text texts ih =>
      rw [List.forall_mem_cons] at h
      rw [String.toList_append, String.toList_intercalate]
      cases texts with
      | nil =>
        rw [List.map_singleton, List.intercalate_singleton]
        exact lines_append_newline h.1 []
      | cons text' texts =>
        have hrest := ih (List.cons_ne_nil _ _) h.2
        rw [String.toList_append, String.toList_intercalate] at hrest
        rw [List.map_cons, List.map_cons, List.intercalate_cons_cons, List.append_assoc,
          List.append_assoc]
        exact (lines_append_newline h.1 _).trans (congrArg _ hrest)
  rw [textLines, listingText, hcut _ (by simpa using hne) (List.forall_mem_map.2 h), List.map_map]
  exact (List.map_congr_left fun text _ => String.ofList_toList).trans (List.map_id _)

/-! ### Tidy lines -/

/-- The instruction on a line. -/
def Line.instr? : Line → Option Instr
  | .instr i => some i
  | .label _ | .comment _ | .directive _ | .blank => none

/-- The line is one line of text, and indented only if it is an instruction. -/
def Line.IsTidy (line : Line) : Prop :=
  SingleLine line.text ∧ (line.text.toList.head? = some ' ' → line.instr?.isSome)

instance (line : Line) : Decidable line.IsTidy :=
  inferInstanceAs (Decidable (_ ∧ (_ → _)))

theorem Line.isTidy_instr {i : Instr} (h : SingleLine i.text) : (Line.instr i).IsTidy :=
  ⟨singleLine_append.2 ⟨by decide, h⟩, fun _ => rfl⟩

theorem Line.isTidy_comment {text : String} (h : SingleLine text) : (Line.comment text).IsTidy := by
  refine ⟨singleLine_append.2 ⟨by decide, h⟩, fun hhead => ?_⟩
  rw [Line.text, String.toList_append] at hhead
  cases hhead

theorem toList_toString (value : Int) :
    (toString value).toList =
      if 0 ≤ value then Nat.toDigits 10 value.toNat else '-' :: Nat.toDigits 10 (-value).toNat := by
  rw [Int.toString_eq_repr, Int.repr_eq_if]
  split
  · rw [Nat.toList_repr]
  · rw [String.toList_append, Nat.toList_repr]
    rfl

/-- A number is written with digits, and with a minus if it is negative. -/
theorem isDigit_of_mem_toString {value : Int} {c : Char} (h : c ∈ (toString value).toList) :
    c = '-' ∨ c.isDigit := by
  have hdigits {n : Nat} (h : c ∈ Nat.toDigits 10 n) : c.isDigit :=
    Nat.isDigit_of_mem_toDigits (by decide) (by decide) h
  rw [toList_toString] at h
  split at h
  · exact .inr (hdigits h)
  · exact (List.mem_cons.1 h).imp id hdigits

theorem singleLine_toString (value : Int) : SingleLine (toString value) := by
  intro c hc
  obtain rfl | hdigit := isDigit_of_mem_toString hc
  · decide
  · constructor <;> rintro rfl <;> exact absurd hdigit (by decide)

@[simp] theorem Register.singleLine_name (r : Register) : SingleLine r.name := by
  cases r <;> decide

@[simp] theorem Op.singleLine_symbol (op : Op) : SingleLine op.symbol.toString := by
  cases op <;> decide

theorem Label.singleLine_name (l : Label) : SingleLine l.name :=
  singleLine_append.2 ⟨by decide, singleLine_toString l.index⟩

/-- An expression whose literals are numbers is written on one line. -/
theorem Expr.singleLine_written {e : Expr} (h : e.misfit = none) : SingleLine e.written := by
  induction e with
  | num value => exact singleLine_toString value
  | huge digits => cases h
  | reg r => exact r.singleLine_name
  | arith op lhs rhs ihl ihr =>
    obtain ⟨hr, hl⟩ := Option.or_eq_none_iff.1 h
    simp only [Expr.written, singleLine_append]
    exact ⟨⟨⟨⟨ihl hl, by decide⟩, op.singleLine_symbol⟩, by decide⟩, ihr hr⟩

theorem Assignment.singleLine_written {a : Assignment} (h : a.value.misfit = none) :
    SingleLine a.written :=
  singleLine_append.2 ⟨singleLine_append.2 ⟨a.target.singleLine_name, by decide⟩,
    Expr.singleLine_written h⟩

theorem Expr.isTidy_code {e : Expr} (h : e.misfit = none) : ∀ line ∈ e.code, line.IsTidy := by
  have hcomment {text text' : String} (ht : SingleLine text) (ht' : SingleLine text') :
      (Line.comment (text ++ text')).IsTidy := Line.isTidy_comment (singleLine_append.2 ⟨ht, ht'⟩)
  induction e with
  | num value =>
    have hvalue := singleLine_toString value
    simp only [Expr.code, List.forall_mem_cons]
    exact ⟨hcomment hvalue (by decide),
      Line.isTidy_instr (singleLine_append.2 ⟨by decide, hvalue⟩), by simp⟩
  | huge digits => cases h
  | reg r =>
    simp only [Expr.code, List.forall_mem_cons]
    exact ⟨hcomment r.singleLine_name (by decide),
      Line.isTidy_instr (singleLine_append.2 ⟨by decide, r.singleLine_name⟩), by simp⟩
  | arith op lhs rhs ihl ihr =>
    obtain ⟨hr, hl⟩ := Option.or_eq_none_iff.1 h
    have hop := op.singleLine_symbol
    have hinstr : SingleLine op.instr.text := by cases op <;> decide
    simp only [Expr.code, List.forall_mem_cons, List.forall_mem_append]
    exact ⟨hcomment hop (by decide), ihr hr, hcomment hop (by decide), by decide,
      hcomment hop (by decide), ihl hl, hcomment hop (by decide), by decide,
      Line.isTidy_instr hinstr, by simp⟩

theorem Assignment.isTidy_code {a : Assignment} (h : a.value.misfit = none) :
    ∀ line ∈ a.code, line.IsTidy := by
  have hwritten := Assignment.singleLine_written h
  have htarget : SingleLine (Instr.mov a.target (.reg .rax)).text := by
    cases a.target <;> decide
  simp only [Assignment.code, List.forall_mem_cons, List.forall_mem_append]
  exact ⟨Line.isTidy_comment (singleLine_append.2 ⟨hwritten, by decide⟩), Expr.isTidy_code h,
    Line.isTidy_comment (singleLine_append.2 ⟨hwritten, by decide⟩), Line.isTidy_instr htarget,
    by simp⟩

theorem Loop.isTidy_code {l : Loop} (hcounter : l.counter.misfit = none)
    (hbody : l.body.value.misfit = none) : ∀ line ∈ l.code, line.IsTidy := by
  have hwritten : SingleLine l.written :=
    singleLine_append.2 ⟨by decide, Expr.singleLine_written hcounter⟩
  have hlabel : (Line.label l.label.name).IsTidy := by
    refine ⟨singleLine_append.2 ⟨l.label.singleLine_name, by decide⟩, fun hhead => ?_⟩
    rw [Line.text, String.toList_append, Label.toList_name] at hhead
    cases hhead
  simp only [Loop.code, List.forall_mem_cons, List.forall_mem_append]
  exact ⟨Line.isTidy_comment (singleLine_append.2 ⟨hwritten, by decide⟩),
    Expr.isTidy_code hcounter,
    Line.isTidy_comment (singleLine_append.2 ⟨hwritten, by decide⟩), by decide, hlabel,
    Line.isTidy_comment (singleLine_append.2 ⟨hwritten, by decide⟩), Assignment.isTidy_code hbody,
    Line.isTidy_instr (singleLine_append.2 ⟨by decide, l.label.singleLine_name⟩), by simp⟩

theorem Stmt.isTidy_printed {s : Stmt} (h : s.misfit = none) :
    ∀ line ∈ s.printed, line.IsTidy := by
  have hcode : ∀ line ∈ s.code, line.IsTidy := by
    cases s with
    | assign a => exact Assignment.isTidy_code h
    | loop l =>
      obtain ⟨hcounter, hbody⟩ := Option.or_eq_none_iff.1 h
      exact Loop.isTidy_code hcounter hbody
  simp only [Stmt.printed, List.forall_mem_cons, List.forall_mem_append]
  exact ⟨by decide, hcode, by decide, by simp⟩

/-- **The code of a program that can be lowered** is tidy. -/
theorem Program.isTidy_code {p : Program} (h : p.misfit = none) :
    ∀ line ∈ p.code, line.IsTidy := by
  have hstmts (s : Stmt) (hs : s ∈ p.stmts) : ∀ line ∈ s.printed, line.IsTidy :=
    Stmt.isTidy_printed (List.findSome?_eq_none_iff.1 h s hs)
  simp only [Program.code, List.forall_mem_append, List.forall_mem_flatMap]
  exact ⟨by decide, hstmts, by decide, by decide, by decide⟩

/-- **The text of a program** is cut into the texts of its lines. -/
theorem Program.textLines_code {p : Program} (h : p.misfit = none) :
    textLines (listingText p.code) = p.code.map Line.text :=
  textLines_listingText (List.cons_ne_nil _ _) fun line hline => (p.isTidy_code h line hline).1

/-! ### Instructions by their text -/

/-- Indented lines of tidy code are instructions. -/
theorem Line.IsTidy.exists_instr {line : Line} (h : line.IsTidy) (text : String)
    (htext : line.text = "    " ++ text) : ∃ i, line = .instr i ∧ i.text = text := by
  have hsome := h.2 (by rw [htext, String.toList_append]; rfl)
  cases line with
  | instr i =>
    refine ⟨i, rfl, String.toList_inj.1 ?_⟩
    have hlist := congrArg String.toList htext
    rwa [Line.text, String.toList_append, String.toList_append, List.append_cancel_left_eq] at hlist
  | label | comment | directive | blank => cases hsome

/-- The word in front tells a jump from other instructions. -/
theorem Instr.eq_loop_of_text {i : Instr} {name : String} (h : i.text = "loop " ++ name) :
    ∃ l, i = .loop l ∧ l.name = name := by
  have hlist := congrArg String.toList h
  cases i with
  | loop l =>
    rw [Instr.text, String.toList_append, String.toList_append, List.append_cancel_left_eq] at hlist
    exact ⟨l, rfl, String.toList_inj.1 hlist⟩
  | mov | add | sub | mul | div | push | pop | call | syscall | ret =>
    have hhead := congrArg List.head? hlist
    simp [Instr.text] at hhead

/-- The word in front tells a call from other instructions. -/
theorem Instr.eq_call_of_text {i : Instr} {target : String} (h : i.text = "call " ++ target) :
    i = .call target := by
  have hlist := congrArg String.toList h
  cases i with
  | call target' =>
    rw [Instr.text, String.toList_append, String.toList_append, List.append_cancel_left_eq] at hlist
    rw [String.toList_inj.1 hlist]
  | mov | add | sub | mul | div | push | pop | loop | syscall | ret =>
    have hhead := congrArg List.head? hlist
    simp [Instr.text] at hhead

end RegArith
