import RegArith.Proofs.Language.Productions

/-!
# The parser accepts exactly the language

A source is accepted if and only if it is the layout of a derivable token sequence, and the
program that comes back is the tree of the derivation, with its loops numbered in source order
from the given count. In particular a source is a program in at most one way, since the parser
gives only one answer.

## Main results

* `parse_run` — the answer of the parser in terms of what it reads
* `derives_of_parse`, `parse_of_derives` — the two directions of acceptance
* `parse_eq_ok_iff` — acceptance and the resulting tree
-/

namespace RegArith

/-! ### Numbering loops -/

/-- Labels handed out one after the other number the loops in source order. -/
theorem derives_program_labelAll {ts : List Token} {us : List Unlabelled}
    (h : Lang.stmt.star ts us) (count : Nat) :
    Derives.Program count ts ((labelAll us).run count).1 := by
  induction us generalizing ts count with
  | nil =>
    obtain rfl : ts = [] := h
    exact .nil
  | cons u us ih =>
    obtain ⟨ts₁, ts₂, rfl, hu, hus⟩ := h
    rw [labelAll, List.mapM_cons]
    rcases u with a | ⟨k, a⟩
    · exact .assign hu (ih hus count)
    · exact .loop hu (ih hus (count + 1))

/-- Every numbered program is read without labels first. -/
theorem exists_labelAll_eq {ts : List Token} {ss : List Stmt} {count : Nat}
    (h : Derives.Program count ts ss) :
    ∃ us, Lang.stmt.star ts us ∧ ((labelAll us).run count).1 = ss := by
  induction h with
  | nil => exact ⟨[], rfl, rfl⟩
  | @assign count ts us a rest h _ ih =>
    obtain ⟨vs, hvs, rfl⟩ := ih
    exact ⟨.inl a :: vs, ⟨ts, us, rfl, h, hvs⟩, by rw [labelAll, List.mapM_cons]; rfl⟩
  | @loop count ts us k a rest h _ ih =>
    obtain ⟨vs, hvs, rfl⟩ := ih
    exact ⟨.inr (k, a) :: vs, ⟨ts, us, rfl, h, hvs⟩, by rw [labelAll, List.mapM_cons]; rfl⟩

/-! ### Whole sources -/

theorem rest_sourceTokens (source : String) : rest (sourceTokens source) 0 = source.toList := by
  simp [rest, sourceTokens]

theorem size_sourceTokens (source : String) : (sourceTokens source).size = source.length := by
  rw [sourceTokens, List.size_toArray, String.length_toList]

/-- The answer of the parser: statements are read exactly, and a text that is left over is blamed
at the furthest index. -/
theorem parse_run (source : String) :
    ∃ m y, m ≤ source.length ∧ rest (sourceTokens source) m = skip source.toList ∧
      Exact Lang.stmt.star NoStatement (sourceTokens source) m (.ok y) ∧
      NoStatement (rest (sourceTokens source) y.next) ∧
      ∀ count, parse source count =
        (if y.next < source.length then .error (.noParse y.furthest)
          else .ok ⟨((labelAll y.value).run count).1⟩, ((labelAll y.value).run count).2) := by
  obtain ⟨m, y, hm, hrest, hexact, hend, hrun⟩ := program_run (sourceTokens source)
  rw [size_sourceTokens] at hm
  rw [rest_sourceTokens] at hrest
  refine ⟨m, y, hm, hrest, hexact, hend, fun count => ?_⟩
  have hw := hexact.within
  simp only [Outcome.within_ok] at hw
  unfold parse
  simp only [hrun count, size_sourceTokens, Nat.max_eq_left hw.2.1]
  split <;> rfl

/-- What the parser accepts is derivable, and the result is the tree of the derivation. -/
theorem derives_of_parse {source : String} {count : Nat} {p : Program}
    (h : (parse source count).1 = .ok p) :
    ∃ ts, Laid ts source.toList ∧ Derives.Program count ts p.stmts := by
  obtain ⟨m, y, hm, hrest, hexact, -, hparse⟩ := parse_run source
  rw [hparse count] at h
  split at h
  · cases h
  · next hnext =>
    cases h
    obtain ⟨-, ts, hts, hspells⟩ := hexact.sound y rfl
    have hend : rest (sourceTokens source) y.next = [] := by
      rw [rest_eq_nil_iff, size_sourceTokens]
      omega
    rw [hrest, hend] at hspells
    exact ⟨ts, laid_iff_spells.2 hspells, derives_program_labelAll hts count⟩

/-- Whatever is derivable is accepted: no choice the parser makes loses a derivation. -/
theorem parse_of_derives {source : String} {count : Nat} {p : Program} {ts : List Token}
    (hlaid : Laid ts source.toList) (hderives : Derives.Program count ts p.stmts) :
    (parse source count).1 = .ok p := by
  obtain ⟨m, y, hm, hrest, hexact, -, hparse⟩ := parse_run source
  obtain ⟨us, hus, hstmts⟩ := exists_labelAll_eq hderives
  have hspells := laid_iff_spells.1 hlaid
  rw [← hrest] at hspells
  obtain ⟨x, ⟨⟩, rfl, hnext⟩ := hexact.complete ts us [] hus hspells noStatement_nil
  rw [rest_eq_nil_iff, size_sourceTokens] at hnext
  rw [hparse count, if_neg (by omega), hstmts]

/-- **Acceptance.** A source is parsed to a program if and only if it is a derivable token
sequence with layout around its tokens, and the program is the tree of the derivation. -/
theorem parse_eq_ok_iff (source : String) (count : Nat) (p : Program) :
    (parse source count).1 = .ok p ↔
      ∃ ts, Laid ts source.toList ∧ Derives.Program count ts p.stmts := by
  constructor
  · exact derives_of_parse
  · rintro ⟨ts, hlaid, hderives⟩
    exact parse_of_derives hlaid hderives

end RegArith
