import Mathlib.Algebra.Group.Int.Defs
import RegArith.Proofs.Assembly.Code
import RegArith.Proofs.Language.Literals
import RegArith.Proofs.Machine.Execution

/-!
# The range of literals

Lowering stops at the first literal that is too large, and which one is first is a matter of the
order in which code is made. The literals of a program in that order say it all: there is code
exactly if all of them are in range, and otherwise the first that is not is blamed.

The range has an upper end only. A number that is kept as such is loaded however negative it is, and
only from a magnitude of `2 ^ 127` on, where literals are kept as text, negative ones are refused
like the others. Of the numbers in range, a word of 64 bits shows, with a sign or without, those
that are not below `-2 ^ 63`. So the code of a program loads what was written if no literal is below
that bound, and loads something else if one is.

## Main definitions

* `Expr.outOfRange` — a literal that stops lowering
* `immediates` — the numbers that code loads
* `Word.Shows` — a word is a number, read with a sign or without

## Main results

* `Program.misfit_eq_find?` — the misfit of a program is its first literal out of range
* `generate_blames_first` — which programs are lowered, and which literal is blamed
* `Program.mem_immediates_code` — the numbers that the code of a program loads
* `compile_loads_literals` — the code of a source loads its literals
-/

namespace RegArith

/-! ### The first literal out of range -/

/-- The literal stops lowering: it is `2 ^ 64 - 1` or more, or it is kept as text. -/
def Expr.outOfRange : Expr → Bool
  | .num value => 2 ^ 64 - 1 ≤ value
  | .huge _ => true
  | .reg _ | .arith _ _ _ => false

/-- A number is out of range if it is above the largest one that is loaded. -/
theorem Expr.outOfRange_num {value : Int} :
    (num value).outOfRange = true ↔ value > maxLiteral := by
  rw [outOfRange, decide_eq_true_iff, maxLiteral]
  omega

theorem Expr.misfit_eq_find? (e : Expr) : e.misfit = (e.literals.find? outOfRange).map written := by
  induction e with
  | num value => simp [misfit, literals, written, ← outOfRange_num, List.find?_singleton]
  | huge digits => rfl
  | reg r => rfl
  | arith op lhs rhs ihl ihr =>
    rw [misfit, literals, List.find?_append, Option.map_or, ihl, ihr]

theorem Stmt.misfit_eq_find? (s : Stmt) :
    s.misfit = (s.literals.find? Expr.outOfRange).map Expr.written := by
  cases s with
  | assign a => exact a.value.misfit_eq_find?
  | loop l =>
    rw [misfit, literals, List.find?_append, Option.map_or, Expr.misfit_eq_find?,
      Expr.misfit_eq_find?]

/-- **The misfit of a program** is the first of its literals, in the order of lowering, that is out
of range. -/
theorem Program.misfit_eq_find? (p : Program) :
    p.misfit = (p.literals.find? Expr.outOfRange).map Expr.written := by
  rw [misfit, literals, List.find?_flatMap, List.map_findSome?]
  congr 1
  funext s
  exact s.misfit_eq_find?

/-- What lowering comes to, from the literals alone. -/
theorem generate_eq (p : Program) :
    generate p = match p.literals.find? Expr.outOfRange with
      | none => .ok (listingText p.code)
      | some e => .error (.tooLarge e.written) := by
  have hmisfit := p.misfit_eq_find?
  cases h : p.literals.find? Expr.outOfRange with
  | none =>
    rw [h] at hmisfit
    exact generate_of_fits hmisfit
  | some e =>
    rw [h] at hmisfit
    exact generate_of_misfit hmisfit

/-- There is code exactly if no literal is out of range. -/
theorem exists_generate_iff {p : Program} :
    (∃ text, generate p = .ok text) ↔ ∀ e ∈ p.literals, e.outOfRange = false := by
  have hnone : p.literals.find? Expr.outOfRange = none ↔
      ∀ e ∈ p.literals, e.outOfRange = false := by
    simp
  rw [← hnone, generate_eq]
  cases p.literals.find? Expr.outOfRange <;> simp

/-- Every error blames the first literal out of range. -/
theorem generate_eq_error_iff {p : Program} {error : Error} :
    generate p = .error error ↔ ∃ before e after, p.literals = before ++ e :: after ∧
      (∀ f ∈ before, f.outOfRange = false) ∧ e.outOfRange = true ∧ error = .tooLarge e.written := by
  rw [generate_eq]
  constructor
  · intro h
    cases hfind : p.literals.find? Expr.outOfRange with
    | none =>
      rw [hfind] at h
      cases h
    | some e =>
      rw [hfind] at h
      cases h
      obtain ⟨hout, before, after, hsplit, hbefore⟩ := List.find?_eq_some_iff_append.1 hfind
      exact ⟨before, e, after, hsplit, by simpa using hbefore, hout, rfl⟩
  · rintro ⟨before, e, after, hsplit, hbefore, hout, rfl⟩
    have hfind : p.literals.find? Expr.outOfRange = some e :=
      List.find?_eq_some_iff_append.2 ⟨hout, before, after, hsplit, by simpa using hbefore⟩
    rw [hfind]

/-! ### Literals of a source -/

/-- A written literal stops lowering if it is too large, or if its magnitude takes more than 127
bits. -/
theorem WrittenLiteral.outOfRange_expr (w : WrittenLiteral) :
    w.expr.outOfRange = true ↔ 2 ^ 64 - 1 ≤ w.value ∨ 2 ^ 127 ≤ w.value.natAbs := by
  by_cases h : 2 ^ 127 ≤ w.value.natAbs
  · obtain ⟨digits, hexpr⟩ := expr_of_le h
    rw [hexpr]
    exact iff_of_true rfl (.inr h)
  · rw [expr_of_lt (by omega), Expr.outOfRange, decide_eq_true_iff, or_iff_left h]

/-- Compiling a source that is a program is lowering the program. -/
theorem compile_eq_generate {source : String} {count : Nat} {p : Program}
    (h : (parse source count).1 = .ok p) : (compile source count).1 = generate p := by
  rw [compile_eq, h]
  rfl

/-- A program that is derived from tokens is lowered unless a literal of theirs is out of range. -/
theorem exists_generate_iff_written {count : Nat} {ts : List Token} {p : Program}
    (h : Derives.Program count ts p.stmts) :
    (∃ text, generate p = .ok text) ↔
      ∀ w ∈ writtenLiterals ts, ¬(2 ^ 64 - 1 ≤ w.value ∨ 2 ^ 127 ≤ w.value.natAbs) := by
  rw [exists_generate_iff]
  constructor
  · intro hall w hw
    have hin := hall w.expr (h.mem_literals_iff.2 ⟨w, hw, rfl⟩)
    rw [← w.outOfRange_expr, hin]
    exact Bool.false_ne_true
  · intro hall e he
    obtain ⟨w, hw, rfl⟩ := h.mem_literals_iff.1 he
    exact Bool.eq_false_iff.2 fun hout => hall w hw (w.outOfRange_expr.1 hout)

/-- The only reason why a source that parses is not compiled is a literal. -/
theorem exists_tooLarge_iff_written {source : String} {count : Nat} {ts : List Token} {p : Program}
    (hparse : (parse source count).1 = .ok p) (h : Derives.Program count ts p.stmts) :
    (∃ literal, (compile source count).1 = .error (.tooLarge literal)) ↔
      ∃ w ∈ writtenLiterals ts, 2 ^ 64 - 1 ≤ w.value ∨ 2 ^ 127 ≤ w.value.natAbs := by
  have hok := exists_generate_iff_written h
  rw [compile_eq_generate hparse]
  constructor
  · rintro ⟨literal, herror⟩
    by_contra hnone
    push Not at hnone
    obtain ⟨text, htext⟩ := hok.2 fun w hw => by simpa using hnone w hw
    rw [htext] at herror
    cases herror
  · rintro ⟨w, hw, hout⟩
    cases hgenerate : generate p with
    | ok text => exact absurd hout (hok.1 ⟨text, hgenerate⟩ w hw)
    | error error =>
      obtain ⟨before, e, after, -, -, -, rfl⟩ := generate_eq_error_iff.1 hgenerate
      exact ⟨e.written, rfl⟩

/-- **Which programs are lowered, and which literal is blamed.** A program is lowered if and only if
it holds no literal that is kept as text and none from `2 ^ 64 - 1` on. Otherwise the first such
literal in the order of lowering is blamed: statements in order, a counter before the body of its
loop, and a right operand before the left one. A source that is a program is compiled unless one of
the literals written in it is `2 ^ 64 - 1` or more, or has a magnitude of `2 ^ 127` or more. -/
theorem generate_blames_first (p : Program) :
    ((∃ text, generate p = .ok text) ↔ (∀ digits, .huge digits ∉ p.literals) ∧
      ∀ value, .num value ∈ p.literals → value < 2 ^ 64 - 1) ∧
    (∀ error, generate p = .error error ↔ ∃ before e after, p.literals = before ++ e :: after ∧
      (∀ f ∈ before, f.outOfRange = false) ∧ e.outOfRange = true ∧ error = .tooLarge e.written) ∧
    ∀ source count, (parse source count).1 = .ok p →
      ∃ ts, Laid ts source.toList ∧ Derives.Program count ts p.stmts ∧
        ((∃ text, (compile source count).1 = .ok text) ↔
          ¬∃ w ∈ writtenLiterals ts, 2 ^ 64 - 1 ≤ w.value ∨ 2 ^ 127 ≤ w.value.natAbs) ∧
        ((∃ literal, (compile source count).1 = .error (.tooLarge literal)) ↔
          ∃ w ∈ writtenLiterals ts, 2 ^ 64 - 1 ≤ w.value ∨ 2 ^ 127 ≤ w.value.natAbs) := by
  refine ⟨?_, fun error => generate_eq_error_iff, fun source count hparse => ?_⟩
  · rw [exists_generate_iff]
    constructor
    · intro hall
      constructor
      · intro digits hmem
        exact absurd (hall _ hmem) (by simp [Expr.outOfRange])
      · intro value hmem
        simpa [Expr.outOfRange] using hall _ hmem
    · rintro ⟨hhuge, hnum⟩ e he
      obtain ⟨s, -, hs⟩ := List.mem_flatMap.1 he
      obtain ⟨value, rfl⟩ | ⟨digits, rfl⟩ := s.eq_of_mem_literals hs
      · simpa [Expr.outOfRange] using hnum value he
      · exact absurd he (hhuge digits)
  · obtain ⟨ts, hlaid, hderives⟩ := derives_of_parse hparse
    refine ⟨ts, hlaid, hderives, ?_, exists_tooLarge_iff_written hparse hderives⟩
    rw [compile_eq_generate hparse, exists_generate_iff_written hderives]
    push Not
    rfl

/-- Both operands of a sum are out of range. Its right operand comes first and is blamed, although
the left one is read before it. -/
theorem generate_blames_right_operand :
    (compile "r10 = 99999999999999999999 + 18446744073709551615;" 0).1 =
      .error (.tooLarge "18446744073709551615") ∧
    ∃ ts, Laid ts "r10 = 99999999999999999999 + 18446744073709551615;".toList ∧
      ∃ w ∈ writtenLiterals ts, 2 ^ 64 - 1 ≤ w.value ∨ 2 ^ 127 ≤ w.value.natAbs := by
  have hparse : (parse "r10 = 99999999999999999999 + 18446744073709551615;" 0).1 =
      .ok ⟨[.assign ⟨.r10, .arith .add (.num 99999999999999999999)
        (.num 18446744073709551615)⟩]⟩ := by decide +kernel
  obtain ⟨-, herror, hsource⟩ := generate_blames_first ⟨[.assign ⟨.r10,
    .arith .add (.num 99999999999999999999) (.num 18446744073709551615)⟩]⟩
  have hblamed := (herror (.tooLarge "18446744073709551615")).2
    ⟨[], .num 18446744073709551615, [.num 99999999999999999999], by decide, by simp, by decide,
      by decide +kernel⟩
  rw [← compile_eq_generate hparse] at hblamed
  obtain ⟨ts, hlaid, -, -, hfails⟩ := hsource _ 0 hparse
  exact ⟨hblamed, ts, hlaid, hfails.1 ⟨_, hblamed⟩⟩

/-! ### Numbers that code loads -/

/-- The number that a line loads into a register. -/
def Line.immediate? : Line → Option Int
  | .instr (.mov _ (.imm value)) => some value
  | _ => none

/-- The numbers that code loads, in order. -/
def immediates (code : List Line) : List Int := code.filterMap Line.immediate?

@[simp] theorem immediates_nil : immediates [] = [] := rfl

@[simp] theorem immediates_cons (l : Line) (code : List Line) :
    immediates (l :: code) = l.immediate?.toList ++ immediates code := by
  cases h : l.immediate? <;> simp [immediates, h]

@[simp] theorem immediates_append (code code' : List Line) :
    immediates (code ++ code') = immediates code ++ immediates code' := List.filterMap_append

/-- The code of an expression loads its literals, in their order. -/
theorem Expr.immediates_code {e : Expr} (h : e.misfit = none) :
    (immediates e.code).map .num = e.literals := by
  induction e with
  | num value => rfl
  | huge digits => cases h
  | reg r => rfl
  | arith op lhs rhs ihl ihr =>
    obtain ⟨hr, hl⟩ := Option.or_eq_none_iff.1 h
    have hcode : immediates (Expr.arith op lhs rhs).code =
        immediates rhs.code ++ immediates lhs.code := by
      cases op <;> simp [code, Op.instr, Line.immediate?]
    rw [hcode, List.map_append, ihl hl, ihr hr, literals]

theorem Assignment.immediates_code (a : Assignment) :
    immediates a.code = immediates a.value.code := by
  simp [code, Line.immediate?]

theorem Stmt.immediates_printed {s : Stmt} (h : s.misfit = none) :
    (immediates s.printed).map .num = s.literals := by
  have hprinted : immediates s.printed = immediates s.code := by
    simp [printed, Line.immediate?]
  rw [hprinted]
  cases s with
  | assign a =>
    rw [code, Assignment.immediates_code]
    exact Expr.immediates_code h
  | loop l =>
    obtain ⟨hcounter, hbody⟩ := Option.or_eq_none_iff.1 h
    have hcode : immediates l.code = immediates l.counter.code ++ immediates l.body.value.code := by
      simp [Loop.code, Line.immediate?, Assignment.immediates_code]
    rw [code, hcode, List.map_append, Expr.immediates_code hcounter, Expr.immediates_code hbody,
      literals]

/-- **What the code of a program loads**: its literals, zero to begin with and to print, and the
number of the call that leaves the program. -/
theorem Program.mem_immediates_code {p : Program} (h : p.misfit = none) {v : Int} :
    v ∈ immediates p.code ↔ v = 0 ∨ v = 60 ∨ .num v ∈ p.literals := by
  have hfits : ∀ s ∈ p.stmts, s.misfit = none := List.findSome?_eq_none_iff.1 h
  have hstmts : v ∈ immediates (p.stmts.flatMap Stmt.printed) ↔ .num v ∈ p.literals := by
    rw [literals, immediates, List.filterMap_flatMap, List.mem_flatMap, List.mem_flatMap]
    refine exists_congr fun s => and_congr_right fun hs => ?_
    rw [← Stmt.immediates_printed (hfits s hs), List.mem_map_of_injective fun _ _ => Expr.num.inj]
    rfl
  have hfixed : immediates prologue = [0, 0, 0, 0] ∧ immediates epilogue = [60, 0] ∧
      immediates dataSection = [] ∧ immediates printCode = [0] := by decide
  obtain ⟨hprologue, hepilogue, hdata, hprint⟩ := hfixed
  simp only [code, immediates_append, List.mem_append, hstmts, hprologue, hepilogue, hdata, hprint,
    List.mem_cons, List.not_mem_nil]
  tauto

/-! ### Words -/

/-- The word is the number, read with a sign or without. -/
def Word.Shows (w : Word) (v : Int) : Prop := w.toInt = v ∨ (w.toNat : Int) = v

/-- A word shows what was put into it if that is neither below its signed range nor above its
unsigned one. -/
theorem Word.shows_ofInt_iff (v : Int) :
    Word.Shows (.ofInt 64 v) v ↔ -2 ^ 63 ≤ v ∧ v ≤ 2 ^ 64 - 1 := by
  have hmod : 0 ≤ v % 2 ^ 64 ∧ v % 2 ^ 64 < 2 ^ 64 :=
    ⟨Int.emod_nonneg v (by decide), Int.emod_lt_of_pos v (by decide)⟩
  rw [Shows, BitVec.toInt_ofInt, BitVec.toNat_ofInt, Int.bmod_def]
  split <;> omega

/-! ### The code of a source -/

/-- **The code of a source loads its literals.** A literal up to `-2 ^ 127`, and one from
`2 ^ 64 - 1` on, keeps a source from being compiled, and nothing else does. The code of a source
loads what is written in it, and 0 and 60 besides. All these numbers lie between the two bounds, and
the register shows the number that it is loaded with exactly if that is not below `-2 ^ 63`. -/
theorem compile_loads_literals (source : String) (count : Nat) (p : Program)
    (h : (parse source count).1 = .ok p) :
    ∃ ts, Laid ts source.toList ∧ Derives.Program count ts p.stmts ∧
      ((∃ literal, (compile source count).1 = .error (.tooLarge literal)) ↔
        ∃ w ∈ writtenLiterals ts, w.value ≤ -2 ^ 127 ∨ 2 ^ 64 - 1 ≤ w.value) ∧
      ∀ text, (compile source count).1 = .ok text →
        ∃ listing : List Line, p.lower.run #[] = (.ok (), listing.toArray) ∧
          text = listingText listing ∧
          (∀ v, v ∈ immediates listing ↔
            v = 0 ∨ v = 60 ∨ ∃ w ∈ writtenLiterals ts, w.value = v) ∧
          ∀ v ∈ immediates listing, -2 ^ 127 < v ∧ v < 2 ^ 64 - 1 ∧
            ∀ world regs, (Machine.value world regs (.imm v)).Shows v ↔ -2 ^ 63 ≤ v := by
  obtain ⟨ts, hlaid, hderives⟩ := derives_of_parse h
  refine ⟨ts, hlaid, hderives, ?_, fun text htext => ?_⟩
  · rw [exists_tooLarge_iff_written h hderives]
    refine exists_congr fun w => and_congr_right fun _ => ?_
    omega
  · rw [compile_eq_generate h] at htext
    obtain ⟨hfits, hlower, rfl⟩ := generate_eq_ok htext
    have hbounds := (exists_generate_iff_written hderives).1 ⟨_, htext⟩
    have hmem : ∀ v, v ∈ immediates p.code ↔
        v = 0 ∨ v = 60 ∨ ∃ w ∈ writtenLiterals ts, w.value = v := by
      intro v
      rw [Program.mem_immediates_code hfits, hderives.mem_literals_iff]
      refine or_congr_right (or_congr_right (exists_congr fun w => and_congr_right fun hw => ?_))
      have hsmall := hbounds w hw
      rw [WrittenLiteral.expr_of_lt (by omega), Expr.num.injEq]
    refine ⟨p.code, hlower, rfl, hmem, fun v hv => ?_⟩
    have hv' : -2 ^ 127 < v ∧ v < 2 ^ 64 - 1 := by
      obtain rfl | rfl | ⟨w, hw, rfl⟩ := (hmem v).1 hv
      · decide
      · decide
      · have hsmall := hbounds w hw
        omega
    refine ⟨hv'.1, hv'.2, fun world regs => ?_⟩
    rw [Machine.value, Word.shows_ofInt_iff]
    omega

/-- The least number with a sign is loaded as it is. -/
theorem compile_loads_least :
    ∃ listing : List Line,
      (compile "r10 = 5 - -9223372036854775808;" 0).1 = .ok (listingText listing) ∧
      -2 ^ 63 ∈ immediates listing ∧
      ∀ world regs, (Machine.value world regs (.imm (-2 ^ 63))).Shows (-2 ^ 63) := by
  have hparse : (parse "r10 = 5 - -9223372036854775808;" 0).1 =
      .ok ⟨[.assign ⟨.r10, .arith .sub (.num 5) (.num (-2 ^ 63))⟩]⟩ := by decide +kernel
  obtain ⟨text, htext⟩ := exists_eq_ok
    (show (compile "r10 = 5 - -9223372036854775808;" 0).1.isOk = true by decide +kernel)
  obtain ⟨ts, -, -, -, hloads⟩ := compile_loads_literals _ 0 _ hparse
  obtain ⟨listing, hlower, rfl, -, hshows⟩ := hloads text htext
  have hmem : -2 ^ 63 ∈ immediates listing := by
    have hcode : ((Program.mk [.assign ⟨.r10, .arith .sub (.num 5) (.num (-2 ^ 63))⟩]).lower.run
        #[]).2.toList = listing := by rw [hlower]
    rw [← hcode]
    decide +kernel
  exact ⟨listing, htext, hmem, fun world regs =>
    ((hshows _ hmem).2.2 world regs).2 (Int.le_refl _)⟩

/-- One less than the least number with a sign is out of the range of a register, and yet it is
loaded: what the register holds is the greatest number with a sign. -/
theorem compile_loads_below_least :
    ∃ listing : List Line,
      (compile "r10 = -9223372036854775809;" 0).1 = .ok (listingText listing) ∧
      .instr (.mov .rax (.imm (-9223372036854775809))) ∈ listing ∧
      ¬(-2 ^ 63 ≤ (-9223372036854775809 : Int)) ∧
      ∀ world regs, (Machine.value world regs (.imm (-9223372036854775809))).toInt = 2 ^ 63 - 1 ∧
        ¬(Machine.value world regs (.imm (-9223372036854775809))).Shows (-9223372036854775809) := by
  have hparse : (parse "r10 = -9223372036854775809;" 0).1 =
      .ok ⟨[.assign ⟨.r10, .num (-9223372036854775809)⟩]⟩ := by decide +kernel
  refine ⟨(Program.mk [.assign ⟨.r10, .num (-9223372036854775809)⟩]).code, ?_, by decide, by decide,
    fun world regs => ⟨?_, ?_⟩⟩
  · rw [compile_eq_generate hparse]
    exact generate_of_fits (by decide)
  · exact show (BitVec.ofInt 64 (-9223372036854775809)).toInt = 2 ^ 63 - 1 by decide
  · rw [Machine.value, Word.shows_ofInt_iff]
    decide

end RegArith
