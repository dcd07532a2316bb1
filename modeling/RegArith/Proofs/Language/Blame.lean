import Mathlib.Control.Monad.Basic
import RegArith.Proofs.Language.Acceptance
import RegArith.Proofs.Parsing.Locality

/-!
# The index that a syntax error blames

A source that is no program is blamed at one index, and it is the right one: what stands in front
of the index can still be completed to a program, and no longer start of the source can.

The two halves have different reasons. That the start can be completed is the `viable` part of
exactness, which follows the parser through the branches it gave up. That one character more is
too much has nothing to do with this grammar: the outcome was decided by the characters up to the
index, so it stays the same whatever stands behind them.

## Main results

* `exists_completion` — the text in front of the index begins a program
* `parse_error_of_agree` — the characters up to the index decide the rejection
* `parse_error_longest_viable` — the index ends the longest start that begins a program
-/

namespace RegArith

/-! ### The index itself -/

/-- The index is that of the statements that could be read, and does not depend on labels. -/
theorem parse_error_run {source : String} {count i : Nat}
    (h : (parse source count).1 = .error (.noParse i)) :
    ∃ m y, m ≤ y.next ∧ y.next < source.length ∧ y.furthest = i ∧ m ≤ i ∧ i ≤ source.length ∧
      rest (sourceTokens source) m = skip source.toList ∧
      Exact Lang.stmt.star NoStatement (sourceTokens source) m (.ok y) ∧
      ∀ k, (parse source k).1 = .error (.noParse i) := by
  obtain ⟨m, y, hm, hrest, hexact, -, hparse⟩ := parse_run source
  have hw := hexact.within
  rw [size_sourceTokens, Outcome.within_ok] at hw
  rw [hparse count] at h
  split at h
  · next hnext =>
    cases h
    refine ⟨m, y, hw.1, hnext, rfl, by omega, by omega, hrest, hexact, fun k => ?_⟩
    rw [hparse k, if_pos hnext]
  · cases h

/-! ### In front of the index -/

/-- Leading layout is skipped in the same way when the text behind it changes. -/
theorem skip_take_append {source : String} {m : Nat} {r : List Char} (hm : m < source.length)
    (h : rest (sourceTokens source) m = skip source.toList) (hr : Settled r) :
    skip (source.toList.take m ++ r) = r := by
  have hsplit : source.toList.take m ++ rest (sourceTokens source) m = source.toList := by
    simp [rest, sourceTokens]
  have hne : rest (sourceTokens source) m ≠ [] := rest_ne_nil (by rwa [size_sourceTokens])
  have hskip : skip (source.toList.take m ++ rest (sourceTokens source) m) =
      [] ++ rest (sourceTokens source) m := by
    rw [hsplit, ← h, List.nil_append]
  exact skip_context hskip hne hr

/-- The text in front of the index begins a program. -/
theorem exists_completion {source : String} {count i : Nat}
    (h : (parse source count).1 = .error (.noParse i)) :
    ∃ t, ∀ k, ∃ p, (parse (String.ofList (source.toList.take i ++ t)) k).1 = .ok p := by
  obtain ⟨m, y, hmy, hnext, rfl, hmi, -, hrest, hexact, -⟩ := parse_error_run h
  obtain ⟨t, ts, us, hus, hs⟩ := hexact.viable
  have hspells := hs [] settled_nil
  rw [Outcome.reach_ok, List.append_nil] at hspells
  have htake : source.toList.take y.furthest =
      source.toList.take m ++ between (sourceTokens source) m y.furthest := by
    rw [between, rest, sourceTokens, List.toList_toArray, ← List.take_add,
      Nat.add_sub_cancel' hmi]
  refine ⟨t, fun k => ⟨⟨((labelAll us).run k).1⟩, ?_⟩⟩
  have hderives := derives_program_labelAll hus k
  refine parse_of_derives (laid_iff_spells.2 ?_) hderives
  rw [String.toList_ofList, htake, List.append_assoc,
    skip_take_append (by omega) hrest (hspells.settled settled_nil)]
  exact hspells

/-! ### From the index on -/

/-- A source that has the same characters up to the index, the one at the index included, is
rejected as well. -/
theorem parse_error_of_agree {source source' : String} {count i : Nat}
    (h : (parse source count).1 = .error (.noParse i))
    (hagree : AgreeUpTo (sourceTokens source) (sourceTokens source') i)
    (hi : i < source'.length) : ∃ e, (parse source' count).1 = .error e := by
  -- wherever the run ended, the index is at least its reach
  have hrun (hreach : Outcome.reach (Grammar.program.run (sourceTokens source) 0 (.new count)).1 ≤
      i) := Parser.run_eq_of_agree Grammar.program rfl (hagree.mono hreach)
  simp only [parse] at h ⊢
  rcases hclosed : Grammar.program.run (sourceTokens source) 0 (.new count) with ⟨e | x, j⟩
  · rw [hclosed] at h hrun
    cases h
    rw [hrun (Nat.le_refl _)]
    exact ⟨_, rfl⟩
  · rw [hclosed] at h hrun
    dsimp only at h
    split at h
    · cases h
      have hsize : x.next < (sourceTokens source').size := by
        rw [size_sourceTokens]
        omega
      rw [hrun (Nat.le_max_left _ _)]
      dsimp only
      rw [if_pos hsize]
      exact ⟨_, rfl⟩
    · cases h

/-- A start of a source that is longer than the index agrees with the source up to the index. -/
theorem agreeUpTo_take_append {source : String} {i : Nat} (hi : i < source.length)
    (t : List Char) :
    AgreeUpTo (sourceTokens source)
      (sourceTokens (String.ofList (source.toList.take (i + 1) ++ t))) i := by
  intro k hk
  have hlen : k < (source.toList.take (i + 1)).length := by
    rw [List.length_take, String.length_toList]
    omega
  rw [sourceTokens, sourceTokens, String.toList_ofList, List.getElem?_toArray,
    List.getElem?_toArray, List.getElem?_append_left hlen, List.getElem?_take_of_lt (by omega)]

/-- **The longest viable start.** A syntax error blames an index of the source or its end. The
characters in front of it can be completed to a program, and if there is a character at the index,
the characters up to and with it cannot. -/
theorem parse_error_longest_viable (source : String) (count i : Nat)
    (h : (parse source count).1 = .error (.noParse i)) :
    i ≤ source.length ∧
      (∃ t, ∀ k, ∃ p, (parse (String.ofList (source.toList.take i ++ t)) k).1 = .ok p) ∧
      (i < source.length → ∀ t k,
        ∃ e, (parse (String.ofList (source.toList.take (i + 1) ++ t)) k).1 = .error e) := by
  obtain ⟨m, y, -, -, -, -, hi, -, -, hevery⟩ := parse_error_run h
  refine ⟨hi, exists_completion h, fun hlt t k => ?_⟩
  refine parse_error_of_agree (hevery k) (agreeUpTo_take_append hlt t) ?_
  rw [String.length_ofList, List.length_append, List.length_take, String.length_toList]
  omega

/-- The index behind half a register name: `r1` can go on, `r1x` cannot. -/
theorem parse_error_half_register :
    (parse "r10 = 7 / # c\n r1x" 0).1 = .error (.noParse 17) ∧
      (∃ t, ∀ k, ∃ p,
        (parse (String.ofList ("r10 = 7 / # c\n r1x".toList.take 17 ++ t)) k).1 = .ok p) ∧
      ∀ t k, ∃ e,
        (parse (String.ofList ("r10 = 7 / # c\n r1x".toList.take 18 ++ t)) k).1 = .error e := by
  have h : (parse "r10 = 7 / # c\n r1x" 0).1 = .error (.noParse 17) := by decide +kernel
  obtain ⟨-, hviable, hrejected⟩ := parse_error_longest_viable _ 0 17 h
  exact ⟨h, hviable, hrejected (by decide)⟩

end RegArith
