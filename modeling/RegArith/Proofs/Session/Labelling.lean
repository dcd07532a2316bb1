import RegArith.Proofs.Assembly.Rendering
import RegArith.Proofs.Language.Naming
import RegArith.Proofs.Session.Allocation

/-!
# Labels in the assembly text

Sources that are compiled one after the other may share a counter, also across sources that fail to
compile. What an assembler asks of each text is looked at line by line here: that no label is
defined twice, that every jump finds its label, and that every call finds its routine. For a jump
more is true, since its label stands right in front of the loop's body. Texts that share a counter
can even be put together as far as loops are concerned; no two of them define the same one.

## Main definitions

* `definesLabel` — a line that defines a label, by its text
* `WellLabelled` — labels, jumps and calls in the text of a program
* `JumpsBack` — jumps in a piece of code

## Main results

* `Program.jumpsBack_code`, `Program.calls_code`, `Program.labelLines_code` — the code of a program
* `wellLabelled_of_generate` — its text
* `compileAll_wellLabelled` — texts that share a counter
-/

namespace RegArith

/-! ### Lines inside of expressions and assignments -/

/-- A comment, or an instruction that neither jumps nor calls. -/
def Line.isStraight : Line → Bool
  | .instr (.loop _) | .instr (.call _) => false
  | .instr _ | .comment _ => true
  | .label _ | .directive _ | .blank => false

theorem Expr.isStraight_code (e : Expr) : ∀ line ∈ e.code, line.isStraight := by
  induction e with
  | num value => simp [Expr.code, Line.isStraight]
  | huge digits => simp [Expr.code]
  | reg r => simp [Expr.code, Line.isStraight]
  | arith op lhs rhs ihl ihr =>
    simp only [Expr.code, List.forall_mem_cons, List.forall_mem_append]
    refine ⟨rfl, ihr, rfl, rfl, rfl, ihl, rfl, rfl, ?_, by simp⟩
    cases op <;> rfl

theorem Assignment.isStraight_code (a : Assignment) : ∀ line ∈ a.code, line.isStraight := by
  simp only [Assignment.code, List.forall_mem_cons, List.forall_mem_append]
  exact ⟨rfl, a.value.isStraight_code, rfl, rfl, by simp⟩

/-- The lines in front of a loop's label: they put the counter into `rcx`. -/
def Loop.front (l : Loop) : List Line :=
  .comment (l.written ++ ": Evaluating counter") :: (l.counter.code ++
    [.comment (l.written ++ ": Storing counter in rcx"), .instr (.mov .rcx (.reg .rax))])

/-- The lines between a loop's label and its jump: the body, under a comment. -/
def Loop.inner (l : Loop) : List Line :=
  .comment (l.written ++ ": Assignments code") :: l.body.code

theorem Loop.code_eq (l : Loop) :
    l.code = l.front ++ .label l.label.name :: (l.inner ++ [.instr (.loop l.label)]) := by
  simp [code, front, inner]

theorem Loop.isStraight_front (l : Loop) : ∀ line ∈ l.front, line.isStraight := by
  simp only [front, List.forall_mem_cons, List.forall_mem_append]
  exact ⟨rfl, l.counter.isStraight_code, rfl, rfl, by simp⟩

theorem Loop.isStraight_inner (l : Loop) : ∀ line ∈ l.inner, line.isStraight :=
  List.forall_mem_cons.2 ⟨rfl, l.body.isStraight_code⟩

/-! ### Lines that define labels -/

/-- By its text the line defines a label: it starts at the margin, is no comment, and has a colon.
The line of the data section is among these. -/
def definesLabel (line : String) : Bool :=
  line.toList.head? ≠ some ' ' && line.toList.head? ≠ some ';' && line.toList.contains ':'

/-- The texts of the lines that define labels, in order. -/
def labelLines (code : List Line) : List String := (code.map Line.text).filter definesLabel

theorem labelLines_append (code code' : List Line) :
    labelLines (code ++ code') = labelLines code ++ labelLines code' := by
  rw [labelLines, List.map_append, List.filter_append]
  rfl

theorem labelLines_of_isStraight {code : List Line} (h : ∀ line ∈ code, line.isStraight) :
    labelLines code = [] := by
  rw [labelLines, List.filter_eq_nil_iff, List.forall_mem_map]
  intro line hline
  specialize h line hline
  cases line with
  | instr i => simp [definesLabel, Line.text]
  | comment text => simp [definesLabel, Line.text]
  | label | directive | blank => cases h

namespace Label

theorem definesLabel_colon (l : Label) : definesLabel (l.name ++ ":") := by
  rw [definesLabel, String.toList_append, toList_name]
  simp

theorem eq_of_colon_eq {l l' : Label} (h : l.name ++ ":" = l'.name ++ ":") : l = l' := by
  have hlist := congrArg String.toList h
  rw [String.toList_append, String.toList_append, List.append_cancel_right_eq] at hlist
  exact name_injective (String.toList_inj.1 hlist)

theorem colon_ne {l : Label} {line : String} (h : line.toList.head? ≠ some 'l') :
    l.name ++ ":" ≠ line := by
  rintro rfl
  rw [String.toList_append, toList_name] at h
  exact h rfl

end Label

theorem labelLines_printed (s : Stmt) :
    labelLines s.printed = (s.loop?.map (·.label.name ++ ":")).toList := by
  have hcall : labelLines [.instr (.call printRoutine)] = [] := by decide
  have hblank (code : List Line) : labelLines (.blank :: code) = labelLines code := rfl
  rw [Stmt.printed, hblank, labelLines_append, hcall, List.append_nil]
  cases s with
  | assign a => exact labelLines_of_isStraight a.isStraight_code
  | loop l =>
    have hjump : labelLines [.instr (.loop l.label)] = [] := by
      simp [labelLines, definesLabel, Line.text]
    have hlabel (code : List Line) :
        labelLines (.label l.label.name :: code) = (l.label.name ++ ":") :: labelLines code :=
      List.filter_cons_of_pos l.label.definesLabel_colon
    rw [Stmt.code, l.code_eq, labelLines_append, labelLines_of_isStraight l.isStraight_front,
      hlabel, labelLines_append, labelLines_of_isStraight l.isStraight_inner, hjump]
    rfl

/-- **The lines of a program's text that define labels**: its start, its loops, the format of the
output, and the print routine. -/
theorem Program.labelLines_code (p : Program) :
    labelLines p.code = "main:" :: (p.loops.map (·.label.name ++ ":") ++
      ["format: db \"%lld\", 10", "print_rax:"]) := by
  have hstmts (ss : List Stmt) : labelLines (ss.flatMap Stmt.printed) =
      (ss.filterMap Stmt.loop?).map (·.label.name ++ ":") := by
    induction ss with
    | nil => rfl
    | cons s ss ih =>
      rw [List.flatMap_cons, labelLines_append, labelLines_printed, ih, List.filterMap_cons]
      cases s.loop? <;> rfl
  have hprologue : labelLines prologue = ["main:"] := by decide
  have hrest : labelLines (epilogue ++ (dataSection ++ printCode)) =
      ["format: db \"%lld\", 10", "print_rax:"] := by decide
  rw [Program.code, labelLines_append, labelLines_append, hprologue, hstmts, hrest]
  rfl

theorem not_mem_loopLines {line : String} (h : line.toList.head? ≠ some 'l') (loops : List Loop) :
    line ∉ loops.map (·.label.name ++ ":") := by
  intro hmem
  obtain ⟨l, -, hl⟩ := List.mem_map.1 hmem
  exact Label.colon_ne h hl

/-- The loops among the labels of a program. -/
theorem exists_loop_of_mem_labelLines {p : Program} {l : Label}
    (h : l.name ++ ":" ∈ labelLines p.code) : ∃ loop ∈ p.loops, loop.label = l := by
  rw [p.labelLines_code, List.mem_cons, List.mem_append] at h
  rcases h with h | h | h
  · exact absurd h (Label.colon_ne (by decide))
  · obtain ⟨loop, hloop, heq⟩ := List.mem_map.1 h
    exact ⟨loop, hloop, Label.eq_of_colon_eq heq⟩
  · rw [List.mem_pair] at h
    exact h.elim (absurd · (Label.colon_ne (by decide))) (absurd · (Label.colon_ne (by decide)))

/-- Loops with different numbers give a program whose labels are defined by different lines. -/
theorem nodup_labelLines {p : Program} (h : (p.loops.map (·.label)).Nodup) :
    (labelLines p.code).Nodup := by
  have hmap : p.loops.map (·.label.name ++ ":") = (p.loops.map (·.label)).map (·.name ++ ":") := by
    rw [List.map_map]
    rfl
  have hloops : (p.loops.map (·.label.name ++ ":")).Nodup := by
    rw [hmap]
    exact h.map fun _ _ => Label.eq_of_colon_eq
  rw [p.labelLines_code, List.nodup_cons, List.mem_append]
  refine ⟨?_, hloops.append (by decide) fun line hmem hrest => ?_⟩
  · rintro (hmem | hmem)
    · exact not_mem_loopLines (by decide) _ hmem
    · exact absurd hmem (by decide)
  · rcases List.mem_pair.1 hrest with rfl | rfl
    · exact not_mem_loopLines (by decide) _ hmem
    · exact not_mem_loopLines (by decide) _ hmem

/-! ### Calls -/

/-- What the instruction on a line calls. -/
def Line.callTarget? : Line → Option String
  | .instr (.call target) => some target
  | _ => none

theorem callTarget?_of_isStraight {line : Line} (h : line.isStraight) :
    line.callTarget? = none := by
  unfold Line.callTarget?
  split
  · cases h
  · rfl

theorem Stmt.calls_printed (s : Stmt) :
    ∀ line ∈ s.printed, ∀ target ∈ line.callTarget?, target = printRoutine := by
  have hstraight {code : List Line} (h : ∀ line ∈ code, line.isStraight) :
      ∀ line ∈ code, ∀ target ∈ line.callTarget?, target = printRoutine := by
    intro line hline target htarget
    rw [callTarget?_of_isStraight (h line hline)] at htarget
    cases htarget
  have hcode : ∀ line ∈ s.code, ∀ target ∈ line.callTarget?, target = printRoutine := by
    cases s with
    | assign a => exact hstraight a.isStraight_code
    | loop l =>
      rw [Stmt.code, l.code_eq]
      simp only [List.forall_mem_append, List.forall_mem_cons]
      exact ⟨hstraight l.isStraight_front, by simp [Line.callTarget?], hstraight l.isStraight_inner,
        by simp [Line.callTarget?], by simp⟩
  simp only [Stmt.printed, List.forall_mem_append, List.forall_mem_cons]
  exact ⟨by simp [Line.callTarget?], hcode, by simp [Line.callTarget?]⟩

/-- **The calls of a program** go to the print routine and to `printf`. -/
theorem Program.calls_code (p : Program) :
    ∀ line ∈ p.code, ∀ target ∈ line.callTarget?, target = "print_rax" ∨ target = "printf" := by
  simp only [Program.code, List.forall_mem_append, List.forall_mem_flatMap]
  refine ⟨by decide, fun s _ line hline target htarget => ?_, by decide, by decide, by decide⟩
  exact .inl (s.calls_printed line hline target htarget)

/-! ### Jumps -/

/-- Every jump in the code is that of one of the loops, and has the loop's inner lines in front of
it, and in front of these the label. -/
def JumpsBack (loops : List Loop) (code : List Line) : Prop :=
  ∀ before after label, code = before ++ .instr (.loop label) :: after →
    ∃ l ∈ loops, l.label = label ∧ ∃ ahead, before = ahead ++ .label l.label.name :: l.inner

namespace JumpsBack

variable {loops loops' : List Loop} {code code' : List Line}

/-- Code without loops has no jumps. -/
theorem of_isPlain (h : ∀ line ∈ code, line.isPlain) : JumpsBack loops code := by
  rintro before after label rfl
  cases h (.instr (.loop label)) (List.mem_append_right _ (List.mem_cons_self ..))

theorem mono (h : JumpsBack loops code) (hsub : loops ⊆ loops') : JumpsBack loops' code := by
  intro before after label heq
  obtain ⟨l, hl, hlabel, hbefore⟩ := h before after label heq
  exact ⟨l, hsub hl, hlabel, hbefore⟩

theorem append (h : JumpsBack loops code) (h' : JumpsBack loops code') :
    JumpsBack loops (code ++ code') := by
  intro before after label heq
  rcases List.append_eq_append_iff.1 heq with ⟨between, rfl, hsecond⟩ | ⟨between, hfirst, hafter⟩
  · obtain ⟨l, hl, hlabel, ahead, rfl⟩ := h' between after label hsecond
    exact ⟨l, hl, hlabel, code ++ ahead, by rw [List.append_assoc]⟩
  · cases between with
    | nil =>
      -- the second part does not begin with a jump, as no label is in front of it there
      obtain ⟨l, -, -, ahead, hnil⟩ := h' [] after label hafter.symm
      exact absurd hnil.symm (by simp)
    | cons line between =>
      rw [List.cons_append, List.cons.injEq] at hafter
      rw [← hafter.1] at hfirst
      exact h before between label hfirst

end JumpsBack

theorem Loop.jumpsBack_code (l : Loop) : JumpsBack [l] l.code := by
  intro before after label heq
  have hcode : l.code =
      (l.front ++ .label l.label.name :: l.inner) ++ [.instr (.loop l.label)] := by
    rw [l.code_eq, List.append_assoc]
    rfl
  have hother : .instr (.loop label) ∉ l.front ++ .label l.label.name :: l.inner := by
    rw [List.mem_append, List.mem_cons]
    rintro (hmem | hmem | hmem)
    · cases l.isStraight_front _ hmem
    · cases hmem
    · cases l.isStraight_inner _ hmem
  rw [hcode] at heq
  rcases List.eq_nil_or_concat after with rfl | ⟨after, last, rfl⟩
  · obtain ⟨hbefore, hjump⟩ := List.append_inj' heq rfl
    cases hjump
    exact ⟨l, List.mem_singleton_self l, rfl, l.front, hbefore.symm⟩
  · rw [List.concat_eq_append, ← List.cons_append, ← List.append_assoc] at heq
    rw [(List.append_inj' heq rfl).1] at hother
    exact absurd (List.mem_append_right _ (List.mem_cons_self ..)) hother

theorem Stmt.jumpsBack_printed (s : Stmt) : JumpsBack s.loop?.toList s.printed := by
  have hcode : JumpsBack s.loop?.toList s.code := by
    cases s with
    | assign a => exact .of_isPlain a.isPlain_code
    | loop l => exact l.jumpsBack_code
  have hblank : JumpsBack s.loop?.toList [.blank] := .of_isPlain (by decide)
  have hcall : JumpsBack s.loop?.toList [.instr (.call printRoutine)] := .of_isPlain (by decide)
  exact hblank.append (hcode.append hcall)

/-- **The jumps of a program** go back over the bodies of its loops. -/
theorem Program.jumpsBack_code (p : Program) : JumpsBack p.loops p.code := by
  have hstmts (ss : List Stmt) :
      JumpsBack (ss.filterMap Stmt.loop?) (ss.flatMap Stmt.printed) := by
    induction ss with
    | nil => exact .of_isPlain (by simp)
    | cons s ss ih =>
      have hloops : (s :: ss).filterMap Stmt.loop? =
          s.loop?.toList ++ ss.filterMap Stmt.loop? := by
        rw [List.filterMap_cons]
        cases s.loop? <;> rfl
      rw [List.flatMap_cons, hloops]
      exact (s.jumpsBack_printed.mono (List.subset_append_left _ _)).append
        (ih.mono (List.subset_append_right _ _))
  have hprologue : JumpsBack p.loops prologue := .of_isPlain (by decide)
  exact hprologue.append ((hstmts p.stmts).append (.of_isPlain (by decide)))

/-! ### Texts -/

/-- Labels, jumps and calls in the text of a program, as an assembler sees them. -/
structure WellLabelled (p : Program) (text : String) : Prop where
  /-- No two lines define a label and are the same. -/
  distinct : ((textLines text).filter definesLabel).Nodup
  /-- The label of a jump is defined by one line. That line belongs to the loop of the jump, comes
  before the jump, and between them is the body of the loop with its comments and nothing else. -/
  jump : ∀ before after name, textLines text = before ++ ("    loop " ++ name) :: after →
    (textLines text).count (name ++ ":") = 1 ∧
    ∃ l ∈ p.loops, l.label.name = name ∧
      ∃ ahead, before = ahead ++ (name ++ ":") :: l.inner.map Line.text
  /-- Calls go to the print routine and to `printf`. -/
  call : ∀ target, "    call " ++ target ∈ textLines text →
    target = "print_rax" ∨ target = "printf"
  /-- The print routine is defined once. -/
  routine : (textLines text).count "print_rax:" = 1

theorem count_eq_one {p : Program} (h : (p.loops.map (·.label)).Nodup) {line : String}
    (hline : line ∈ labelLines p.code) : (p.code.map Line.text).count line = 1 := by
  rw [← List.count_filter (List.mem_filter.1 hline).2]
  exact List.count_eq_one_of_mem (nodup_labelLines h) hline

/-- **The text of a program** whose loops have different numbers. -/
theorem wellLabelled_of_generate {p : Program} {text : String} (hp : generate p = .ok text)
    (hlabels : (p.loops.map (·.label)).Nodup) : WellLabelled p text := by
  obtain ⟨hfits, -, rfl⟩ := generate_eq_ok hp
  have hlines := p.textLines_code hfits
  constructor
  · rw [hlines]
    exact nodup_labelLines hlabels
  · intro before after name heq
    rw [hlines] at heq ⊢
    obtain ⟨code, code', hcode, rfl, htail⟩ := List.map_eq_append_iff.1 heq
    obtain ⟨line, code'', rfl, hline, -⟩ := List.map_eq_cons_iff.1 htail
    have hmem : line ∈ p.code := by rw [hcode]; simp
    obtain ⟨i, rfl, hi⟩ := (p.isTidy_code hfits line hmem).exists_instr ("loop " ++ name)
      (by rw [hline]; rfl)
    obtain ⟨label, rfl, rfl⟩ := Instr.eq_loop_of_text hi
    obtain ⟨l, hl, rfl, ahead, hahead⟩ := p.jumpsBack_code code code'' label hcode
    refine ⟨count_eq_one hlabels ?_, l, hl, rfl, ahead.map Line.text, ?_⟩
    · rw [p.labelLines_code]
      simp only [List.mem_cons, List.mem_append, List.mem_map]
      exact .inr (.inl ⟨l, hl, rfl⟩)
    · rw [hahead, List.map_append]
      rfl
  · intro target htarget
    rw [hlines] at htarget
    obtain ⟨line, hmem, hline⟩ := List.mem_map.1 htarget
    obtain ⟨i, rfl, hi⟩ := (p.isTidy_code hfits line hmem).exists_instr ("call " ++ target)
      (by rw [hline]; rfl)
    rw [Instr.eq_call_of_text hi] at hmem
    exact p.calls_code _ hmem target rfl
  · rw [hlines]
    refine count_eq_one hlabels ?_
    rw [p.labelLines_code]
    simp

/-! ### Texts that share a counter -/

/-- What compiling a source does to the counter and has to do with it: the count never falls, and a
text has the loops of the parsed program, with numbers from the old count up to the new one. -/
theorem compile_numbers (source : String) (n : Nat) :
    n ≤ (compile source n).2 ∧ ∀ text, (compile source n).1 = .ok text →
      ∃ p, (parse source n).1 = .ok p ∧ generate p = .ok text ∧
        ∀ l ∈ p.loops, n ≤ l.label.index ∧ l.label.index < (compile source n).2 := by
  obtain ⟨p₀, left, result, -, hnumbers, hparse, hresult⟩ := exists_readsUpTo source
  have hcount : (compile source n).2 = n + p₀.loops.length := by rw [compile_eq, hparse]
  rw [hcount]
  refine ⟨Nat.le_add_right _ _, fun text htext => ?_⟩
  obtain ⟨p, hp, hgenerate⟩ := compile_eq_ok htext
  refine ⟨p, hp, hgenerate, fun l hl => ?_⟩
  obtain ⟨-, rfl⟩ | ⟨-, i, rfl⟩ := hresult
  · rw [hparse] at hp
    cases hp
    have hmem : l.label.index ∈ loopNumbers (p₀.shift n).loops := List.mem_map.2 ⟨l, hl, rfl⟩
    rw [hnumbers, List.mem_range'_1] at hmem
    exact hmem
  · rw [hparse] at hp
    cases hp

/-- A text defines no loop but those of its program. -/
theorem exists_loop_of_mem_textLines {p : Program} {text : String} (hp : generate p = .ok text)
    {l : Label} (h : l.name ++ ":" ∈ textLines text) : ∃ loop ∈ p.loops, loop.label = l := by
  obtain ⟨hfits, -, rfl⟩ := generate_eq_ok hp
  rw [p.textLines_code hfits] at h
  exact exists_loop_of_mem_labelLines (List.mem_filter.2 ⟨h, l.definesLabel_colon⟩)

/-- The loops that later texts define have numbers from the count on. -/
theorem le_index_of_mem_compileAll {sources : List String} {n : Nat} {text : String}
    (htext : .ok text ∈ ((sources.mapM compile).run n).1) {l : Label}
    (hl : l.name ++ ":" ∈ textLines text) : n ≤ l.index := by
  induction sources generalizing n with
  | nil => cases htext
  | cons source sources ih =>
    obtain ⟨hle, hnumbers⟩ := compile_numbers source n
    rw [run_mapM_cons, List.mem_cons] at htext
    rcases htext with hfirst | hrest
    · obtain ⟨p, -, hp, hindex⟩ := hnumbers text hfirst.symm
      obtain ⟨loop, hloop, rfl⟩ := exists_loop_of_mem_textLines hp hl
      exact (hindex loop hloop).1
    · exact Nat.le_trans hle (ih hrest)

/-- **Texts that share a counter.** Sources are compiled one after the other, whether they can be
compiled or not. In every text labels are defined once, jumps go back over the body of their loop to
the line that defines its label, and calls go to the print routine, which is there, and to `printf`.
And the lines that define loops in one text are in none of the others. -/
theorem compileAll_wellLabelled (sources : List String) (count : Nat) :
    List.Forall₂ (fun source result => ∀ text, result = .ok text →
        ∃ n p, (parse source n).1 = .ok p ∧ generate p = .ok text ∧ WellLabelled p text)
      sources ((sources.mapM compile).run count).1 ∧
    ((sources.mapM compile).run count).1.Pairwise fun result result' =>
      ∀ text text', result = .ok text → result' = .ok text' →
        ∀ l : Label, l.name ++ ":" ∈ textLines text → l.name ++ ":" ∉ textLines text' := by
  induction sources generalizing count with
  | nil => exact ⟨.nil, .nil⟩
  | cons source sources ih =>
    obtain ⟨hlabelled, hpairs⟩ := ih (compile source count).2
    obtain ⟨-, hnumbers⟩ := compile_numbers source count
    rw [run_mapM_cons]
    refine ⟨.cons (fun text htext => ?_) hlabelled, .cons (fun result hmem => ?_) hpairs⟩
    · obtain ⟨p, hparse, hp, -⟩ := hnumbers text htext
      exact ⟨count, p, hparse, hp, wellLabelled_of_generate hp (nodup_labels_of_parse hparse)⟩
    · rintro text text' htext rfl l hl hl'
      obtain ⟨p, -, hp, hindex⟩ := hnumbers text htext
      obtain ⟨loop, hloop, rfl⟩ := exists_loop_of_mem_textLines hp hl
      exact absurd (le_index_of_mem_compileAll hmem hl') (Nat.not_le.2 (hindex loop hloop).2)

end RegArith
