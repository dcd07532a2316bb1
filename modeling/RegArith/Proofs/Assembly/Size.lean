import Mathlib.Algebra.GroupWithZero.Nat
import RegArith.Proofs.Assembly.Rendering

/-!
# The size of a listing

Generated code is commented, and comments quote the program. An assignment and the head of a loop
are quoted whole, a fixed number of times each. An operation is not: it is nested in others, and if
each of them quoted its operands, the text of a chain of operations would grow with the square of
its length. Its comments show its sign only. So the text is linear in the program, and here are the
constants: a character of the program costs at most 129 characters of text, and no program of its
length has a longer text than one that assigns single digits.

For expressions alone the slope is 49, which a long chain of single digits comes close to. The
induction needs a little more than that bound, as three characters of an operation, its sign with
the blanks around it, have to pay for seven lines; each operand saves 21 characters for that.

## Main definitions

* `Line.size`, `textSize` — the characters that lines take up in a text
* `Op.frame` — the lines of an operation besides those of its operands
* `Expr.operations` — the number of operations of an expression
* `Program.writtenLength` — the characters in which the expressions of a program are written, and
  the numbers of its labels

## Main results

* `Expr.textSize_code_le` — the code of an expression
* `Stmt.textSize_printed_le` — the code of a statement
* `Program.textSize_code_replicate` — programs that reach the bound
* `generate_linear` — the text of a program, and the number of lines of an expression
-/

namespace RegArith

/-! ### Characters of lines -/

/-- The number of characters that a line takes up in a text, its end included. -/
def Line.size (line : Line) : Nat := line.text.length + 1

/-- The number of characters that lines take up in a text. -/
def textSize (lines : List Line) : Nat := (lines.map Line.size).sum

@[simp] theorem textSize_nil : textSize [] = 0 := rfl

@[simp] theorem textSize_cons (line : Line) (lines : List Line) :
    textSize (line :: lines) = line.size + textSize lines := rfl

@[simp] theorem textSize_append (lines lines' : List Line) :
    textSize (lines ++ lines') = textSize lines + textSize lines' := by
  simp [textSize]

theorem length_listingText {listing : List Line} (hne : listing ≠ []) :
    (listingText listing).length = textSize listing := by
  have hjoin (texts : List String) (hne : texts ≠ []) :
      ("\n".intercalate texts).length + 1 = (texts.map fun text => text.length + 1).sum := by
    induction texts with
    | nil => exact absurd rfl hne
    | cons text texts ih =>
      cases texts with
      | nil => simp
      | cons text' texts =>
        have hrest := ih (List.cons_ne_nil _ _)
        have hend : "\n".length = 1 := rfl
        rw [String.intercalate_cons_cons, String.length_append, String.length_append,
          List.map_cons, List.sum_cons]
        omega
  rw [listingText, String.length_append, textSize]
  refine (hjoin _ (by simpa using hne)).trans ?_
  rw [List.map_map]
  rfl

/-- What a comment is about is quoted once. -/
theorem Line.size_comment_append (subject note : String) :
    (comment (subject ++ note)).size = subject.length + (comment note).size := by
  simp only [size, text, String.length_append]
  omega

theorem Line.size_instr_mov (r : Register) (source : Operand) :
    (instr (.mov r source)).size = source.text.length + 14 := by
  have hmov : (instr (.mov r source)).size =
      4 + (4 + r.name.length + 2 + source.text.length) + 1 := by
    simp only [size, text, Instr.text, String.length_append]
    rfl
  have hname := r.length_name
  omega

theorem length_toString_pos (value : Int) : 0 < (toString value).length := by
  rw [← String.length_toList, toList_toString]
  split
  · exact Nat.length_toDigits_pos
  · exact Nat.succ_pos _

/-! ### Expressions -/

/-- The number of operations of an expression. -/
def Expr.operations : Expr → Nat
  | .num _ | .huge _ | .reg _ => 0
  | .arith _ lhs rhs => lhs.operations + rhs.operations + 1

/-- The lines of an operation besides those of its operands. -/
def Op.frame (op : Op) : List Line :=
  [.comment (op.symbol.toString ++ ": Codegen for right operand"),
    .comment (op.symbol.toString ++ ": Pushing result of right operand evaluation"),
    .instr (.push .rax), .comment (op.symbol.toString ++ ": Codegen for left operand"),
    .comment (op.symbol.toString ++ ": Applying op"), .instr (.pop .rbx), .instr op.instr]

theorem Op.length_sign (op : Op) : op.symbol.toString.length = 1 := by cases op <;> rfl

theorem Op.textSize_frame_le (op : Op) : textSize op.frame ≤ 168 := by
  have hsign := op.length_sign
  have hnotes : textSize [.comment ": Codegen for right operand",
      .comment ": Pushing result of right operand evaluation", .instr (.push .rax),
      .comment ": Codegen for left operand", .comment ": Applying op", .instr (.pop .rbx)] =
        147 := by decide +kernel
  have hinstr : (Line.instr op.instr).size ≤ 17 := by cases op <;> decide +kernel
  simp only [textSize_cons, textSize_nil] at hnotes
  simp only [frame, textSize_cons, textSize_nil, Line.size_comment_append, hsign]
  omega

theorem Expr.textSize_code_arith (op : Op) (lhs rhs : Expr) :
    textSize (arith op lhs rhs).code =
      textSize op.frame + textSize rhs.code + textSize lhs.code := by
  simp only [code, Op.frame, textSize_cons, textSize_append, textSize_nil]
  omega

theorem Expr.length_written_arith (op : Op) (lhs rhs : Expr) :
    (arith op lhs rhs).written.length = lhs.written.length + rhs.written.length + 3 := by
  have hsign := op.length_sign
  have hblank : " ".length = 1 := rfl
  simp only [written, String.length_append]
  omega

theorem Expr.length_written_pos {e : Expr} (h : e.misfit = none) : 0 < e.written.length := by
  cases e with
  | num value => exact length_toString_pos value
  | huge digits => cases h
  | reg r =>
    rw [written, r.length_name]
    decide
  | arith op lhs rhs =>
    rw [length_written_arith]
    omega

/-- **The code of an expression** is linear in its written form. -/
theorem Expr.textSize_code_le {e : Expr} (h : e.misfit = none) :
    textSize e.code + 21 ≤ 49 * e.written.length := by
  have hcomment : (Line.comment ": Codegen").size = 12 := rfl
  induction e with
  | num value =>
    have hpos := length_toString_pos value
    simp only [code, written, textSize_cons, textSize_nil, Line.size_comment_append,
      Line.size_instr_mov, Operand.text]
    omega
  | huge digits => cases h
  | reg r =>
    have hname := r.length_name
    simp only [code, written, textSize_cons, textSize_nil, Line.size_comment_append,
      Line.size_instr_mov, Operand.text]
    omega
  | arith op lhs rhs ihl ihr =>
    obtain ⟨hr, hl⟩ := Option.or_eq_none_iff.1 h
    have hlhs := ihl hl
    have hrhs := ihr hr
    have hframe := op.textSize_frame_le
    rw [textSize_code_arith, length_written_arith]
    -- the sign and its blanks pay for 147 of the 168 characters, one operand for the other 21, and
    -- what the other operand saves is handed on
    omega

/-- An operation has seven lines of its own, and what is not an operation has two. -/
theorem Expr.length_code {e : Expr} (h : e.misfit = none) :
    e.code.length = 9 * e.operations + 2 := by
  induction e with
  | num value => rfl
  | huge digits => cases h
  | reg r => rfl
  | arith op lhs rhs ihl ihr =>
    obtain ⟨hr, hl⟩ := Option.or_eq_none_iff.1 h
    simp only [code, operations, List.length_cons, List.length_append, List.length_nil, ihl hl,
      ihr hr]
    omega

/-! ### Statements -/

/-- The characters in which the expressions of a statement are written, and the number of its
label. -/
def Stmt.writtenLength : Stmt → Nat
  | .assign a => a.value.written.length
  | .loop l =>
    l.counter.written.length + l.body.value.written.length + (toString l.label.index).length

/-- The same for all statements of a program. -/
def Program.writtenLength (p : Program) : Nat := (p.stmts.map Stmt.writtenLength).sum

/-- The comments of an assignment quote its value twice. -/
theorem Assignment.textSize_code (a : Assignment) :
    textSize a.code = textSize a.value.code + 2 * a.value.written.length + 79 := by
  have hwritten : a.written.length = a.value.written.length + 7 := by
    have hname := a.target.length_name
    have harrow : " <- ".length = 4 := rfl
    simp only [written, String.length_append]
    omega
  have hbegin : (Line.comment ": Codegen").size = 12 := rfl
  have hstore : (Line.comment ": Writing expression value to var").size = 36 := rfl
  have hrax := Register.rax.length_name
  simp only [code, textSize_cons, textSize_append, textSize_nil, Line.size_comment_append,
    Line.size_instr_mov, Operand.text]
  omega

/-- The comments of a loop quote its counter three times, and its label is written twice. -/
theorem Loop.textSize_code (l : Loop) :
    textSize l.code = textSize l.counter.code + textSize l.body.code +
      3 * l.counter.written.length + 2 * (toString l.label.index).length + 125 := by
  have hwritten : l.written.length = l.counter.written.length + 5 := by
    simp only [written, String.length_append]
    exact Nat.add_comm 5 _
  have hlabel : l.label.name.length = (toString l.label.index).length + 5 := by
    simp only [Label.name, String.length_append]
    exact Nat.add_comm 5 _
  have hbegin : (Line.comment ": Evaluating counter").size = 23 := rfl
  have hstore : (Line.comment ": Storing counter in rcx").size = 27 := rfl
  have hbody : (Line.comment ": Assignments code").size = 21 := rfl
  have hrax := Register.rax.length_name
  have htarget : (Line.label l.label.name).size = l.label.name.length + 2 := by
    simp only [Line.size, Line.text, String.length_append]
    rfl
  have hjump : (Line.instr (.loop l.label)).size = l.label.name.length + 10 := by
    simp only [Line.size, Line.text, Instr.text, String.length_append]
    change 4 + (5 + l.label.name.length) + 1 = _
    omega
  simp only [code, textSize_cons, textSize_append, textSize_nil, Line.size_comment_append,
    Line.size_instr_mov, Operand.text]
  omega

theorem Stmt.textSize_printed (s : Stmt) : textSize s.printed = textSize s.code + 20 := by
  have hblank : Line.blank.size = 1 := rfl
  have hcall : (Line.instr (.call printRoutine)).size = 19 := rfl
  simp only [printed, textSize_cons, textSize_append, textSize_nil]
  omega

/-- **The code of a statement** is linear in its written form. -/
theorem Stmt.textSize_printed_le {s : Stmt} (h : s.misfit = none) :
    textSize s.printed ≤ 129 * s.writtenLength := by
  rw [textSize_printed]
  cases s with
  | assign a =>
    have hpos := Expr.length_written_pos h
    have hvalue := Expr.textSize_code_le h
    simp only [code, writtenLength, a.textSize_code]
    omega
  | loop l =>
    obtain ⟨hcounter, hbody⟩ := Option.or_eq_none_iff.1 h
    have hpos := Expr.length_written_pos hcounter
    have hpos' := Expr.length_written_pos hbody
    have hlabel : 0 < (toString l.label.index).length := length_toString_pos l.label.index
    have hsize := Expr.textSize_code_le hcounter
    have hsize' := Expr.textSize_code_le hbody
    simp only [code, writtenLength, l.textSize_code, l.body.textSize_code]
    omega

/-! ### Programs -/

/-- A program has 456 characters besides those of its statements. -/
theorem Program.textSize_code (p : Program) :
    textSize p.code = 456 + (p.stmts.map fun s => textSize s.printed).sum := by
  have hfixed : textSize prologue + textSize epilogue + textSize dataSection + textSize printCode =
      456 := by decide +kernel
  have hstmts (stmts : List Stmt) : textSize (stmts.flatMap Stmt.printed) =
      (stmts.map fun s => textSize s.printed).sum := by
    induction stmts with
    | nil => rfl
    | cons s stmts ih => rw [List.flatMap_cons, textSize_append, ih, List.map_cons, List.sum_cons]
  simp only [code, textSize_append, hstmts]
  omega

theorem Program.textSize_code_le {p : Program} (h : p.misfit = none) :
    textSize p.code ≤ 456 + 129 * p.writtenLength := by
  have hstmts (stmts : List Stmt) (h : ∀ s ∈ stmts, s.misfit = none) :
      (stmts.map fun s => textSize s.printed).sum ≤ 129 * (stmts.map Stmt.writtenLength).sum := by
    induction stmts with
    | nil => exact Nat.le_refl _
    | cons s stmts ih =>
      rw [List.forall_mem_cons] at h
      have hfirst := Stmt.textSize_printed_le h.1
      have hrest := ih h.2
      simp only [List.map_cons, List.sum_cons]
      omega
  have hp := hstmts p.stmts fun s hs => List.findSome?_eq_none_iff.1 h s hs
  rw [textSize_code]
  exact Nat.add_le_add_left hp 456

theorem length_generate {p : Program} {text : String} (h : generate p = .ok text) :
    p.misfit = none ∧ text.length = textSize p.code := by
  obtain ⟨hfits, -, rfl⟩ := generate_eq_ok h
  exact ⟨hfits, length_listingText (List.cons_ne_nil _ _)⟩

/-- Programs that assign a single digit, again and again, reach the bound. -/
theorem Program.textSize_code_replicate (n : Nat) :
    ∃ p : Program, p.misfit = none ∧ p.writtenLength = n ∧ textSize p.code = 456 + 129 * n := by
  have hsize : textSize (Stmt.assign ⟨.r10, .num 1⟩).printed = 129 := by decide +kernel
  have hlength : (Stmt.assign ⟨.r10, .num 1⟩).writtenLength = 1 := by decide +kernel
  refine ⟨⟨List.replicate n (.assign ⟨.r10, .num 1⟩)⟩, ?_, ?_, ?_⟩
  · refine List.findSome?_eq_none_iff.2 fun s hs => ?_
    obtain rfl := List.eq_of_mem_replicate hs
    rfl
  · rw [writtenLength, List.map_replicate, hlength, List.sum_replicate_nat, Nat.mul_one]
  · rw [textSize_code, List.map_replicate, hsize, List.sum_replicate_nat, Nat.mul_comm]

/-- **Generated text is linear in the program.** Besides a fixed part of 456 characters there are at
most 129 characters of text for each character in which the expressions and the numbers of labels
are written, and there are programs of every length that have as many. An expression that can be
lowered appends nine lines for each operation and two more, whatever the listing held before. -/
theorem generate_linear :
    (∀ p text, generate p = .ok text → text.length ≤ 456 + 129 * p.writtenLength) ∧
    (∀ n, ∃ p text, generate p = .ok text ∧ p.writtenLength = n ∧ text.length = 456 + 129 * n) ∧
    ∀ (e : Expr) (listing : Array Line), (e.lower.run listing).1 = .ok () →
      ∃ lines : List Line, e.lower.run listing = (.ok (), listing ++ lines.toArray) ∧
        lines.length = 9 * e.operations + 2 := by
  refine ⟨fun p text h => ?_, fun n => ?_, fun e listing h => ?_⟩
  · obtain ⟨hfits, hlength⟩ := length_generate h
    rw [hlength]
    exact Program.textSize_code_le hfits
  · obtain ⟨p, hfits, hlength, hsize⟩ := Program.textSize_code_replicate n
    have htext := generate_of_fits hfits
    exact ⟨p, _, htext, hlength, (length_generate htext).2.trans hsize⟩
  · obtain ⟨hfits, hrun⟩ := e.lowers.eq_of_ok h
    exact ⟨e.code, hrun, Expr.length_code hfits⟩

/-- A loop with a label of two digits around two operations: 17 characters in all, and 20 lines for
the value that is assigned. -/
theorem generate_linear_loop :
    ∃ (value : Expr) (p : Program) (text : String) (lines : List Line),
      value = .arith .sub (.num 5) (.arith .mul (.num (-3)) (.reg .r12)) ∧
      p = ⟨[.loop ⟨⟨12⟩, .reg .r11, ⟨.r10, value⟩⟩]⟩ ∧ p.writtenLength = 17 ∧
      generate p = .ok text ∧ text.length ≤ 456 + 129 * 17 ∧
      value.lower.run #[.blank] = (.ok (), #[.blank] ++ lines.toArray) ∧ lines.length = 20 := by
  obtain ⟨value, hvalue⟩ : ∃ value : Expr,
    value = .arith .sub (.num 5) (.arith .mul (.num (-3)) (.reg .r12)) := ⟨_, rfl⟩
  obtain ⟨p, hp⟩ : ∃ p : Program, p = ⟨[.loop ⟨⟨12⟩, .reg .r11, ⟨.r10, value⟩⟩]⟩ := ⟨_, rfl⟩
  have hlength : p.writtenLength = 17 := by
    rw [hp, hvalue]
    decide +kernel
  have htext : generate p = .ok (listingText p.code) :=
    generate_of_fits (by rw [hp, hvalue]; decide)
  obtain ⟨hlinear, -, hlines⟩ := generate_linear
  have hsize := hlinear p _ htext
  rw [hlength] at hsize
  obtain ⟨lines, hrun, hcount⟩ := hlines value #[.blank] (by rw [hvalue]; rfl)
  rw [hvalue] at hcount
  exact ⟨value, p, _, lines, hvalue, hp, hlength, htext, hsize, hrun, hcount⟩

end RegArith
