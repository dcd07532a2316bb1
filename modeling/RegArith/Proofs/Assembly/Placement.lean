import Mathlib.Data.List.Nodup
import RegArith.Proofs.Assembly.Code
import RegArith.Proofs.Machine.Execution

/-!
# Code within a listing

Code is executed where it stands in a listing, so everything said about a piece of code is said
about its place. A label is found by searching the whole listing from the top; if no label occurs
twice, that finds the place where the label is known to stand.

The labels of generated code are `main`, one for each loop, and the print routine. Loops are told
apart by their numbers, and their names start with a word that the other two do not have.

## Main definitions

* `CodeAt` — the code stands in the listing from a line on
* `labelNames` — the labels of a piece of code

## Main results

* `lineOf?_eq_of_nodup` — a label is found where it stands
* `labelNames_program` — the labels of a program's code
* `nodup_labelNames` — they are distinct if the numbers of the loops are
-/

namespace RegArith

/-! ### Places -/

/-- The code stands in the listing from the given line on. -/
def CodeAt (listing : List Line) (n : Nat) (code : List Line) : Prop := code <+: listing.drop n

section

variable {listing code code' : List Line} {l : Line} {n : Nat}

theorem codeAt_append : CodeAt listing n (code ++ code') ↔
    CodeAt listing n code ∧ CodeAt listing (n + code.length) code' := by
  unfold CodeAt
  rw [← List.drop_drop]
  constructor
  · rintro ⟨after, h⟩
    rw [← h, List.append_assoc, List.drop_left]
    exact ⟨List.prefix_append _ _, List.prefix_append _ _⟩
  · rintro ⟨⟨after, h⟩, h'⟩
    rw [← h, List.drop_left] at h'
    obtain ⟨after', rfl⟩ := h'
    exact ⟨after', by rw [← h, List.append_assoc]⟩

theorem codeAt_cons : CodeAt listing n (l :: code) ↔
    listing[n]? = some l ∧ CodeAt listing (n + 1) code := by
  rw [← List.singleton_append, codeAt_append, List.length_singleton]
  refine and_congr_left fun _ => ?_
  rw [← List.head?_drop, CodeAt]
  cases listing.drop n <;> simp [List.cons_prefix_cons, eq_comm]

theorem codeAt_zero (listing : List Line) : CodeAt listing 0 listing := List.prefix_refl _

end

/-! ### Labels -/

/-- The name that a line defines as a label. -/
def Line.labelName? : Line → Option String
  | .label name => some name
  | .instr _ | .comment _ | .directive _ | .blank => none

/-- The labels of a piece of code, in order. -/
def labelNames (code : List Line) : List String := code.filterMap Line.labelName?

section

variable (code code' : List Line)

@[simp] theorem labelNames_nil : labelNames [] = [] := rfl

@[simp] theorem labelNames_instr (i : Instr) : labelNames (.instr i :: code) = labelNames code :=
  rfl

@[simp] theorem labelNames_comment (text : String) :
    labelNames (.comment text :: code) = labelNames code := rfl

@[simp] theorem labelNames_blank : labelNames (.blank :: code) = labelNames code := rfl

@[simp] theorem labelNames_label (name : String) :
    labelNames (.label name :: code) = name :: labelNames code := rfl

@[simp] theorem labelNames_append :
    labelNames (code ++ code') = labelNames code ++ labelNames code' :=
  List.filterMap_append

end

/-- If no label occurs twice, a label is found where it stands. -/
theorem lineOf?_eq_of_nodup {listing : List Line} {name : String} {n : Nat}
    (hnodup : (labelNames listing).Nodup) (h : listing[n]? = some (.label name)) :
    Machine.lineOf? listing name = some n := by
  induction listing generalizing n with
  | nil => cases h
  | cons l listing ih =>
    rw [Machine.lineOf?, List.findIdx?_cons]
    cases n with
    | zero =>
      rw [List.getElem?_cons_zero, Option.some.injEq] at h
      rw [if_pos (by simpa using h)]
    | succ n =>
      rw [List.getElem?_cons_succ] at h
      have hmem : name ∈ labelNames listing :=
        List.mem_filterMap.2 ⟨_, List.mem_of_getElem? h, rfl⟩
      have hne : l ≠ .label name := by
        rintro rfl
        exact (List.nodup_cons.1 hnodup).1 hmem
      have hrest : (labelNames listing).Nodup :=
        hnodup.sublist ((List.sublist_cons_self l listing).filterMap _)
      have hfound := ih hrest h
      rw [Machine.lineOf?] at hfound
      rw [if_neg (by simpa using hne), hfound]
      rfl

/-! ### The labels of a program -/

@[simp] theorem labelNames_expr (e : Expr) : labelNames e.code = [] := by
  induction e with
  | num | huge | reg => rfl
  | arith op lhs rhs ihl ihr => simp [Expr.code, ihl, ihr]

@[simp] theorem labelNames_assignment (a : Assignment) : labelNames a.code = [] := by
  simp [Assignment.code]

theorem labelNames_stmt (s : Stmt) :
    labelNames s.printed = (s.loop?.map (·.label.name)).toList := by
  cases s <;> simp [Stmt.printed, Stmt.code, Stmt.loop?, Loop.code]

theorem labelNames_stmts (ss : List Stmt) :
    labelNames (ss.flatMap Stmt.printed) = (ss.filterMap Stmt.loop?).map (·.label.name) := by
  induction ss with
  | nil => rfl
  | cons s ss ih =>
    rw [List.flatMap_cons, labelNames_append, labelNames_stmt, ih, List.filterMap_cons]
    cases s.loop? <;> rfl

/-- The labels of a program: its start, its loops, and the print routine. -/
theorem labelNames_program (p : Program) :
    labelNames p.code = "main" :: (p.loops.map (·.label.name) ++ [printRoutine]) := by
  rw [Program.code, labelNames_append, labelNames_append, labelNames_stmts]
  rfl

/-! ### Names of loops -/

theorem Label.toList_name (l : Label) :
    l.name.toList = "loop_".toList ++ Nat.toDigits 10 l.index := by
  have h : l.name = "loop_" ++ l.index.repr := rfl
  rw [h, String.toList_append, Nat.toList_repr]

/-- Different numbers have different digits. -/
theorem toDigits_ten_injective {m n : Nat} (h : Nat.toDigits 10 m = Nat.toDigits 10 n) : m = n := by
  have hvalue := congrArg (Nat.ofDigitChars 10 · 0) h
  simpa only [Nat.ofDigitChars_ten_toDigits] using hvalue

theorem Label.name_injective {l l' : Label} (h : l.name = l'.name) : l = l' := by
  have hdigits : Nat.toDigits 10 l.index = Nat.toDigits 10 l'.index := by
    have := congrArg String.toList h
    rwa [toList_name, toList_name, List.append_cancel_left_eq] at this
  have hindex := toDigits_ten_injective hdigits
  cases l
  cases l'
  cases hindex
  rfl

theorem Label.name_ne {l : Label} {name : String} (h : name.toList.head? ≠ some 'l') :
    l.name ≠ name := by
  rintro rfl
  rw [toList_name] at h
  exact h rfl

/-- Loops with different numbers give a program without repeated labels. -/
theorem nodup_labelNames {p : Program} (h : (p.loops.map (·.label)).Nodup) :
    (labelNames p.code).Nodup := by
  have hmap : p.loops.map (·.label.name) = (p.loops.map (·.label)).map Label.name := by
    rw [List.map_map]
    rfl
  have hloops : (p.loops.map (·.label.name)).Nodup := by
    rw [hmap]
    exact h.map fun _ _ => Label.name_injective
  have hother (name : String) (hname : name.toList.head? ≠ some 'l') :
      name ∉ p.loops.map (·.label.name) := by
    intro hmem
    obtain ⟨l, -, hl⟩ := List.mem_map.1 hmem
    exact Label.name_ne hname hl
  rw [labelNames_program, List.nodup_cons, List.nodup_append, List.mem_append]
  refine ⟨?_, hloops, List.nodup_singleton _, ?_⟩
  · rintro (hmem | hmem)
    · exact hother _ (by decide) hmem
    · exact absurd hmem (by decide)
  · rintro name hmem _ hprint rfl
    rw [List.mem_singleton] at hprint
    subst hprint
    exact hother _ (by decide) hmem

end RegArith
