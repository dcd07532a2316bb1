import Mathlib.Order.Bounds.Basic
import RegArith.Proofs.Parsing.Silent

/-!
# Words and sets of characters

A word is read by a list of parsers in order, one for each of its characters, and a set of
characters by a list of alternatives. What the lists come to can be said without them. A word
matches where the text begins with it, and otherwise fails where the text stops agreeing with it;
the error index of a keyword rests on that. A set of characters is a single test of the next
character: the alternatives that failed before the right one leave no trace, as all of them failed
at the index where the character stands.

## Main results

* `isGreatest_commonPrefixLength` — the number of tokens in which two lists agree
* `Attempt.alt_satisfy` — two tests of a token are one
* `Parser.evalWith_altList_single` — alternatives of single tokens are one test
* `Parser.eval_word_oneOf` — words and sets of characters, without their lists
-/

namespace RegArith

variable {σ τ : Type}

/-! ### Where two lists depart -/

/-- No common prefix is longer. -/
theorem length_le_commonPrefixLength [DecidableEq τ] {s cs ds : List τ} (hcs : s <+: cs)
    (hds : s <+: ds) : s.length ≤ commonPrefixLength cs ds := by
  induction s generalizing cs ds with
  | nil => exact Nat.zero_le _
  | cons c s ih =>
    obtain ⟨cs, rfl⟩ := hcs
    obtain ⟨ds, rfl⟩ := hds
    simp only [List.cons_append, commonPrefixLength, ↓reduceIte, List.length_cons]
    exact Nat.succ_le_succ (ih (List.prefix_append _ _) (List.prefix_append _ _))

theorem commonPrefixLength_le [DecidableEq τ] (cs ds : List τ) :
    commonPrefixLength cs ds ≤ cs.length := by
  fun_induction commonPrefixLength cs ds with
  | case1 c cs ds ih => exact Nat.succ_le_succ ih
  | case2 => exact Nat.zero_le _
  | case3 => exact Nat.zero_le _

/-- **Where two lists depart.** Counted from `i`, the end of their longest common prefix. -/
theorem isGreatest_commonPrefixLength [DecidableEq τ] (cs ds : List τ) (i : Nat) :
    IsGreatest {k | ∃ s, s <+: cs ∧ s <+: ds ∧ k = i + s.length}
      (i + commonPrefixLength cs ds) := by
  constructor
  · refine ⟨cs.take (commonPrefixLength cs ds), List.take_prefix _ _, ?_, ?_⟩
    · rw [← take_commonPrefixLength]
      exact List.take_prefix _ _
    · rw [List.length_take, Nat.min_eq_left (commonPrefixLength_le cs ds)]
  · rintro k ⟨s, hcs, hds, rfl⟩
    exact Nat.add_le_add_left (length_le_commonPrefixLength hcs hds) i

/-! ### Tests of a token -/

namespace Attempt

theorem never_eq_satisfy : (never : Attempt σ τ τ) = satisfy fun _ => false := by
  funext tokens i j
  rw [gives_never j, gives_satisfy_error (by simp) j]

/-- Two tests of a token are one: both are made at the same index, so that the failure of the first
is not further than the match or the failure of the second. -/
theorem alt_satisfy (pred pred' : τ → Bool) :
    alt (satisfy pred) (satisfy pred') = (satisfy fun t => pred t || pred' t : Attempt σ τ τ) := by
  funext tokens i j
  cases hs : rest tokens i with
  | nil =>
    have hnone (pred : τ → Bool) : (satisfy pred : Attempt σ τ τ).Gives tokens i (.error ⟨i⟩) :=
      gives_satisfy_error (by simp [hs])
    rw [(hnone pred).alt_error (hnone pred') j, hnone _ j, Nat.max_self]
  | cons t s =>
    have hhead (pred : τ → Bool) (ht : ¬pred t) :
        (satisfy pred : Attempt σ τ τ).Gives tokens i (.error ⟨i⟩) :=
      gives_satisfy_error (by simpa [hs] using ht)
    by_cases ht : pred t
    · rw [(gives_satisfy_ok pred hs ht).alt_ok j, gives_satisfy_ok _ hs (by simp [ht]) j]
    · by_cases ht' : pred' t
      · rw [(hhead pred ht).alt_error_ok (gives_satisfy_ok pred' hs ht') j,
          gives_satisfy_ok _ hs (by simp [ht']) j, Nat.max_eq_left (Nat.le_succ i)]
      · rw [(hhead pred ht).alt_error (hhead pred' ht') j, hhead _ (by simp [ht, ht']) j,
          Nat.max_self]

end Attempt

/-! ### Lists of characters -/

namespace Parser

variable {n : Nat} {ty : Fin n → Type}

/-- Alternatives of single tokens are one test, whether the next token is among them. -/
theorem evalWith_altList_single [BEq τ] (rules : (r : Fin n) → Place → Attempt σ τ (ty r))
    (place : Place) (ts : List τ) :
    (altList (ts.map single)).evalWith rules place = Attempt.satisfy ts.contains := by
  induction ts generalizing place with
  | nil => exact Attempt.never_eq_satisfy
  | cons t ts ih =>
    change Attempt.alt (Attempt.satisfy (· == t)) ((altList (ts.map single)).evalWith rules _) = _
    rw [ih, Attempt.alt_satisfy]
    simp only [← List.contains_cons]

theorem eval_word_of_isPrefix (rules : (r : Fin n) → Parser σ Char ty (ty r)) (depth : Nat)
    {text : String} {tokens : Array Char} {i : Nat} (h : text.toList <+: rest tokens i)
    (j : Journal σ) :
    (word text).eval rules depth tokens i j =
      some (.ok ⟨text, i + text.length, i + text.length⟩, j) := by
  have hbegins := List.isPrefixOf_iff_prefix.2 h
  have hword := gives_evalWith_word (ruleAttempt rules depth) [] text tokens i j
  rw [wordOutcome, if_pos hbegins] at hword
  rw [eval, hword]
  simp only [Except.map, Output.map, String.ofList_toList, String.length_toList]

theorem eval_word_of_not_isPrefix (rules : (r : Fin n) → Parser σ Char ty (ty r)) (depth : Nat)
    {text : String} {tokens : Array Char} {i : Nat} (h : ¬text.toList <+: rest tokens i)
    (j : Journal σ) :
    (word text).eval rules depth tokens i j =
      some (.error ⟨i + commonPrefixLength text.toList (rest tokens i)⟩, j) := by
  have hdeparts := mt List.isPrefixOf_iff_prefix.1 h
  have hword := gives_evalWith_word (ruleAttempt rules depth) [] text tokens i j
  rwa [wordOutcome, if_neg hdeparts] at hword

theorem eval_oneOf (rules : (r : Fin n) → Parser σ Char ty (ty r)) (depth : Nat) (text : String) :
    (oneOf text).eval rules depth = (satisfy fun c => c ∈ text.toList).eval rules depth := by
  simp only [← List.contains_eq_mem]
  exact evalWith_altList_single (ruleAttempt rules depth) [] text.toList

/-- **Words and sets of characters.** A word matches exactly if the characters from the index on
begin with it; then it is the value, and nothing failed beyond its end. Otherwise it fails at the
end of the longest prefix that the word and the characters have in common. A set of characters does
the same as a test whether the next character is one of them. Both hold at every index, also past
the end, and of the empty text. -/
theorem eval_word_oneOf (rules : (r : Fin n) → Parser σ Char ty (ty r)) (depth : Nat)
    (text : String) (tokens : Array Char) (i : Nat) (j j' : Journal σ) :
    (∀ x, (word text).eval rules depth tokens i j = some (.ok x, j') ↔
      text.toList <+: rest tokens i ∧ x = ⟨text, i + text.length, i + text.length⟩ ∧ j' = j) ∧
    (∀ e, (word text).eval rules depth tokens i j = some (.error e, j') ↔
      ¬text.toList <+: rest tokens i ∧
        IsGreatest {k | ∃ s, s <+: text.toList ∧ s <+: rest tokens i ∧ k = i + s.length} e.index ∧
        j' = j) ∧
    (oneOf text).eval rules depth = (satisfy fun c => c ∈ text.toList).eval rules depth := by
  have hgreatest := isGreatest_commonPrefixLength text.toList (rest tokens i) i
  by_cases h : text.toList <+: rest tokens i
  · rw [eval_word_of_isPrefix rules depth h j]
    refine ⟨fun x => ?_, fun e => ?_, eval_oneOf rules depth text⟩
    · simp [h, eq_comm]
    · simp [h]
  · rw [eval_word_of_not_isPrefix rules depth h j]
    refine ⟨fun x => ?_, fun e => ?_, eval_oneOf rules depth text⟩
    · simp [h]
    · constructor
      · intro heq
        cases heq
        exact ⟨h, hgreatest, rfl⟩
      · rintro ⟨-, he, rfl⟩
        rw [hgreatest.unique he]

/-- Half of a keyword: the error is where the rest of it is missing. -/
example : ((word "loop" : Parser Unit Char NoRules String).run #[' ', 'l', 'o', '1'] 1
    (.new ())).1 = .error ⟨3⟩ := by decide +kernel

end Parser

end RegArith
