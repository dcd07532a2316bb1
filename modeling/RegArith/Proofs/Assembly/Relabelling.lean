import Mathlib.Data.List.Forall2
import RegArith.Proofs.Assembly.Placement
import RegArith.Proofs.Language.Numbering

/-!
# The code of a program with other labels

Shifting the labels of a program shifts the labels in its code: the lines that name a loop, which
are its jump target and its `loop` instruction, name another one, and no other line changes.
Whether the program can be lowered, and the literal that stops it if it cannot, have nothing to do
with labels.

## Main definitions

* `Line.Shifted` — a line with the label of a loop raised by a number
* `AssemblyShifted` — the text of a program, and the same text with labels raised

## Main results

* `Program.shifted_code` — the code of a shifted program
* `assemblyShifted_generate` — the text of a shifted program
-/

namespace RegArith

variable {n : Nat}

/-! ### Lines -/

/-- The second line is the first one with the label of a loop raised by `n`. Lines that name no
loop are the same. -/
inductive Line.Shifted (n : Nat) : Line → Line → Prop
  | jump (l : Label) : Shifted n (.instr (.loop l)) (.instr (.loop (l.shift n)))
  | target (l : Label) : Shifted n (.label l.name) (.label (l.shift n).name)
  | other {line : Line} (hjump : ∀ l, line ≠ .instr (.loop l))
      (htarget : ∀ l : Label, line ≠ .label l.name) : Shifted n line line

/-- The line is known to name no loop: it is no jump, and no label that starts as those of loops
do. -/
def Line.isPlain : Line → Bool
  | .instr (.loop _) => false
  | .instr _ => true
  | .label name => name.toList.head? ≠ some 'l'
  | .comment _ | .directive _ | .blank => true

theorem Line.Shifted.of_isPlain {line : Line} (h : line.isPlain) : Line.Shifted n line line := by
  refine .other ?_ ?_
  · rintro l rfl
    cases h
  · rintro l rfl
    have hhead : l.name.toList.head? ≠ some 'l' := by simpa [Line.isPlain] using h
    exact Label.name_ne hhead rfl

/-- Code without loops stays as it is. -/
theorem shifted_of_isPlain {code : List Line} (h : ∀ line ∈ code, line.isPlain) :
    List.Forall₂ (Line.Shifted n) code code :=
  List.forall₂_same.2 fun line hline => .of_isPlain (h line hline)

/-! ### Code -/

theorem Expr.isPlain_code (e : Expr) : ∀ line ∈ e.code, line.isPlain := by
  induction e with
  | num value => simp [Expr.code, Line.isPlain]
  | huge digits => simp [Expr.code]
  | reg r => simp [Expr.code, Line.isPlain]
  | arith op lhs rhs ihl ihr =>
    simp only [Expr.code, List.forall_mem_cons, List.forall_mem_append]
    refine ⟨rfl, ihr, rfl, rfl, rfl, ihl, rfl, rfl, ?_, by simp⟩
    cases op <;> rfl

theorem Assignment.isPlain_code (a : Assignment) : ∀ line ∈ a.code, line.isPlain := by
  simp only [Assignment.code, List.forall_mem_cons, List.forall_mem_append]
  exact ⟨rfl, a.value.isPlain_code, rfl, rfl, by simp⟩

theorem Loop.shifted_code (l : Loop) :
    List.Forall₂ (Line.Shifted n) l.code (l.shift n).code := by
  have hcounter := shifted_of_isPlain (n := n) l.counter.isPlain_code
  have hbody := shifted_of_isPlain (n := n) l.body.isPlain_code
  have hjump : List.Forall₂ (Line.Shifted n) [.instr (.loop l.label)]
      [.instr (.loop (l.label.shift n))] := .cons (.jump l.label) .nil
  refine .cons (.of_isPlain rfl) (List.rel_append hcounter ?_)
  refine .cons (.of_isPlain rfl) (.cons (.of_isPlain rfl) (.cons (.target l.label) ?_))
  exact .cons (.of_isPlain rfl) (List.rel_append hbody hjump)

theorem Stmt.shifted_printed (s : Stmt) :
    List.Forall₂ (Line.Shifted n) s.printed (s.shift n).printed := by
  have hcode : List.Forall₂ (Line.Shifted n) s.code (s.shift n).code := by
    cases s with
    | assign a => exact shifted_of_isPlain a.isPlain_code
    | loop l => exact l.shifted_code
  exact .cons (.of_isPlain rfl) (List.rel_append hcode (shifted_of_isPlain (by decide)))

theorem Program.shifted_code (p : Program) :
    List.Forall₂ (Line.Shifted n) p.code (p.shift n).code := by
  have hstmts : List.Forall₂ (Line.Shifted n) (p.stmts.flatMap Stmt.printed)
      ((p.stmts.map (Stmt.shift n)).flatMap Stmt.printed) := by
    induction p.stmts with
    | nil => exact .nil
    | cons s ss ih => exact List.rel_append s.shifted_printed ih
  refine List.rel_append (shifted_of_isPlain (by decide)) (List.rel_append hstmts ?_)
  exact shifted_of_isPlain (by decide)

/-! ### Texts -/

theorem Program.misfit_shift (p : Program) : (p.shift n).misfit = p.misfit := by
  have hstmt (s : Stmt) : (s.shift n).misfit = s.misfit := by cases s <;> rfl
  rw [Program.misfit, Program.shift, List.findSome?_map]
  exact congrArg p.stmts.findSome? (funext hstmt)

/-- The same error; or the text of a program and a text that differs from it, line by line, in
the labels of loops only. -/
inductive AssemblyShifted (n : Nat) : Except Error String → Except Error String → Prop
  | error (e : Error) : AssemblyShifted n (.error e) (.error e)
  | ok {p : Program} {code : List Line} (h : List.Forall₂ (Line.Shifted n) p.code code) :
      AssemblyShifted n (.ok (listingText p.code)) (.ok (listingText code))

/-- **The text of a shifted program.** It is produced if the text of the program is, and differs
from it in the labels of loops only. -/
theorem assemblyShifted_generate (p : Program) :
    AssemblyShifted n (generate p) (generate (p.shift n)) := by
  cases hmisfit : p.misfit with
  | none =>
    rw [generate_of_fits hmisfit, generate_of_fits (p.misfit_shift.trans hmisfit)]
    exact .ok p.shifted_code
  | some literal =>
    rw [generate_of_misfit hmisfit, generate_of_misfit (p.misfit_shift.trans hmisfit)]
    exact .error _

end RegArith
