import RegArith.Proofs.Parsing.Position

/-!
# Attempts that only read

Most parts of a grammar compute a value and touch nothing else. `Attempt.Gives` says that of an
attempt at one index: it ends with the given outcome and hands the journal on as it is. Such
outcomes are put together here operation by operation, and the characters of a word and runs of
characters get their exact outcomes, in terms of what is left of the tokens.

## Main definitions

* `Attempt.Gives` — the outcome of an attempt that leaves the journal alone
* `rest` — the tokens from an index on
* `commonPrefixLength` — how far two lists agree

## Main results

* `Attempt.Gives.seq_ok`, `alt_error`, `map` and their companions
* `Parser.gives_evalWith_word` — a word matches or fails where the text departs from it
* `Attempt.gives_star_satisfy` — a repeated character class takes the longest run
-/

namespace RegArith

variable {σ τ α β : Type}

/-! ### The rest of the tokens -/

/-- The tokens from index `i` on. -/
def rest (tokens : Array τ) (i : Nat) : List τ := tokens.toList.drop i

theorem length_rest (tokens : Array τ) (i : Nat) : (rest tokens i).length = tokens.size - i := by
  simp [rest]

theorem rest_add (tokens : Array τ) (i k : Nat) : rest tokens (i + k) = (rest tokens i).drop k := by
  rw [rest, rest, List.drop_drop]

theorem getElem?_eq_head?_rest (tokens : Array τ) (i : Nat) :
    tokens[i]? = (rest tokens i).head? := by
  rw [rest, List.head?_drop, Array.getElem?_toList]

theorem rest_succ {tokens : Array τ} {i : Nat} {c : τ} {s : List τ}
    (h : rest tokens i = c :: s) : rest tokens (i + 1) = s := by
  rw [rest_add, h, List.drop_one, List.tail_cons]

/-- Within the tokens, the rest knows its index. -/
theorem rest_injective {tokens : Array τ} {i k : Nat} (hi : i ≤ tokens.size)
    (hk : k ≤ tokens.size) (h : rest tokens i = rest tokens k) : i = k := by
  have hlen := congrArg List.length h
  rw [length_rest, length_rest] at hlen
  omega

/-- The number of tokens in which two lists agree before they differ or one ends. -/
def commonPrefixLength [DecidableEq τ] : List τ → List τ → Nat
  | c :: cs, d :: ds => if c = d then commonPrefixLength cs ds + 1 else 0
  | _, _ => 0

theorem take_commonPrefixLength [DecidableEq τ] (cs ds : List τ) :
    ds.take (commonPrefixLength cs ds) = cs.take (commonPrefixLength cs ds) := by
  fun_induction commonPrefixLength cs ds with
  | case1 c cs ds ih => rw [List.take_succ_cons, List.take_succ_cons, ih]
  | case2 => rfl
  | case3 => rfl

theorem NoMatch.furthest_eq_mk (e f : NoMatch) : e.furthest f = ⟨max e.index f.index⟩ := by
  rw [← NoMatch.index_furthest]

namespace Attempt

/-- The attempt ends at `i` with the outcome `o` and leaves the journal alone. -/
def Gives (a : Attempt σ τ α) (tokens : Array τ) (i : Nat) (o : Outcome α) : Prop :=
  ∀ j, a tokens i j = some (o, j)

variable {a : Attempt σ τ α} {b : Attempt σ τ β} {tokens : Array τ} {i : Nat}

theorem Gives.of_eq {o o' : Outcome α} (h : a.Gives tokens i o) (ho : o = o') :
    a.Gives tokens i o' := ho ▸ h

theorem Gives.unique [Inhabited σ] {o o' : Outcome α} (h : a.Gives tokens i o)
    (h' : a.Gives tokens i o') : o = o' := by
  have := (h (.new default)).symm.trans (h' _)
  simpa using this

/-! ### Primitives -/

theorem gives_satisfy_ok (pred : τ → Bool) {c : τ} {s : List τ} (h : rest tokens i = c :: s)
    (hc : pred c) : (satisfy pred : Attempt σ τ τ).Gives tokens i (.ok ⟨c, i + 1, i + 1⟩) := by
  intro j
  have hi : tokens[i]? = some c := by rw [getElem?_eq_head?_rest, h, List.head?_cons]
  simp only [satisfy, hi, hc, ↓reduceIte]
  rfl

theorem gives_satisfy_error {pred : τ → Bool} (h : ∀ c ∈ (rest tokens i).head?, ¬pred c) :
    (satisfy pred : Attempt σ τ τ).Gives tokens i (.error ⟨i⟩) := by
  intro j
  rw [← getElem?_eq_head?_rest] at h
  cases hi : tokens[i]? with
  | none => simp only [satisfy, hi]; rfl
  | some c =>
    simp only [satisfy, hi, h c (by simp [hi]), Bool.false_eq_true, ↓reduceIte]
    rfl

theorem gives_nothing : (nothing : Attempt σ τ (Match α)).Gives tokens i (.ok ⟨.empty, i, i⟩) :=
  fun _ => rfl

theorem gives_never : (never : Attempt σ τ α).Gives tokens i (.error ⟨i⟩) := fun _ => rfl

/-! ### Operations -/

namespace Gives

theorem seq_error {e : NoMatch} (ha : a.Gives tokens i (.error e)) :
    (seq a b).Gives tokens i (.error e) := fun j =>
  seq_eq_some_iff.2 (.inl ⟨e, ha j, rfl⟩)

theorem seq_ok_error {x : Output α} {e : NoMatch} (ha : a.Gives tokens i (.ok x))
    (hb : b.Gives tokens x.next (.error e)) :
    (seq a b).Gives tokens i (.error ⟨max e.index x.furthest⟩) := fun j => by
  refine seq_eq_some_iff.2 (.inr (.inl ⟨x, j, e, ha j, hb j, ?_⟩))
  rw [NoMatch.furthest_eq_mk]

theorem seq_ok {x : Output α} {y : Output β} (ha : a.Gives tokens i (.ok x))
    (hb : b.Gives tokens x.next (.ok y)) (hy : y.next ≤ y.furthest) :
    (seq a b).Gives tokens i (.ok ⟨(x.value, y.value), y.next, max x.furthest y.furthest⟩) :=
  fun j => by
    refine seq_eq_some_iff.2 (.inr (.inr ⟨x, j, y, ha j, hb j, ?_⟩))
    simp only [Output.new, Output.reached]
    rw [show max (max y.next x.furthest) y.furthest = max x.furthest y.furthest by omega]

theorem alt_ok {b : Attempt σ τ α} {x : Output α} (ha : a.Gives tokens i (.ok x)) :
    (alt a b).Gives tokens i (.ok x) := fun j =>
  alt_eq_some_iff.2 (.inl ⟨x, ha j, rfl⟩)

theorem alt_error_ok {b : Attempt σ τ α} {e : NoMatch} {y : Output α}
    (ha : a.Gives tokens i (.error e)) (hb : b.Gives tokens i (.ok y)) :
    (alt a b).Gives tokens i (.ok ⟨y.value, y.next, max y.furthest e.index⟩) := fun j =>
  alt_eq_some_iff.2 (.inr (.inl ⟨e, j, y, ha j, hb j, rfl⟩))

theorem alt_error {b : Attempt σ τ α} {e f : NoMatch} (ha : a.Gives tokens i (.error e))
    (hb : b.Gives tokens i (.error f)) :
    (alt a b).Gives tokens i (.error ⟨max e.index f.index⟩) := fun j => by
  refine alt_eq_some_iff.2 (.inr (.inr ⟨e, j, f, ha j, hb j, ?_⟩))
  rw [NoMatch.furthest_eq_mk]

theorem transform {o : Outcome α} (ha : a.Gives tokens i o) (action : α → StateM σ β)
    (j : Journal σ) : transform a action tokens i j = some (finish action o j) :=
  transform_eq_some_iff.2 ⟨o, j, ha j, rfl⟩

theorem map {o : Outcome α} (ha : a.Gives tokens i o) (f : α → β) :
    (Attempt.transform a fun x => pure (f x)).Gives tokens i (o.map (Output.map f)) := fun j => by
  rw [ha.transform, finish_pure]

end Gives

/-! ### Runs of characters -/

theorem gives_star_satisfy (pred : τ → Bool) (tokens : Array τ) (i : Nat) :
    (star (satisfy pred) : Attempt σ τ (List τ)).Gives tokens i
      (.ok ⟨(rest tokens i).takeWhile pred, i + ((rest tokens i).takeWhile pred).length,
        i + ((rest tokens i).takeWhile pred).length⟩) := by
  intro j
  induction hs : rest tokens i generalizing i with
  | nil =>
    have hstop : (satisfy pred : Attempt σ τ τ).Gives tokens i (.error ⟨i⟩) :=
      gives_satisfy_error (by simp [hs])
    exact star_of_error (advances_satisfy pred) (hstop j)
  | cons c s ih =>
    by_cases hc : pred c
    · have hstep : (satisfy pred : Attempt σ τ τ).Gives tokens i (.ok ⟨c, i + 1, i + 1⟩) :=
        gives_satisfy_ok _ hs hc
      rw [star_of_step (advances_satisfy pred) (hstep j) (Nat.lt_succ_self i)
        (ih (i + 1) (rest_succ hs)), List.takeWhile_cons_of_pos hc, List.length_cons]
      simp only [Nat.add_comm _ 1, ← Nat.add_assoc, Nat.max_eq_right (Nat.le_add_right _ _)]
    · have hstop : (satisfy pred : Attempt σ τ τ).Gives tokens i (.error ⟨i⟩) :=
        gives_satisfy_error (by simp [hs, hc])
      rw [star_of_error (advances_satisfy pred) (hstop j), List.takeWhile_cons_of_neg hc]
      rfl

end Attempt

/-! ### Words -/

namespace Parser

variable {n : Nat} {ty : Fin n → Type}

/-- The outcome of a word at `i`, where `s` is left of the tokens: it matches, or it fails where
the tokens depart from it. -/
def wordOutcome (text s : List Char) (i : Nat) : Outcome (List Char) :=
  if text.isPrefixOf s then .ok ⟨text, i + text.length, i + text.length⟩
  else .error ⟨i + commonPrefixLength text s⟩

theorem wordOutcome_cons_self (c : Char) (text s : List Char) (i : Nat) :
    wordOutcome (c :: text) (c :: s) i =
      (wordOutcome text s (i + 1)).map (Output.map (c :: ·)) := by
  unfold wordOutcome
  simp only [List.isPrefixOf_cons_cons_self, List.length_cons, commonPrefixLength, ↓reduceIte,
    Nat.add_comm _ 1, ← Nat.add_assoc]
  split <;> rfl

theorem wordOutcome_cons_of_ne {c d : Char} (h : d ≠ c) (text s : List Char) (i : Nat) :
    wordOutcome (c :: text) (d :: s) i = .error ⟨i⟩ := by
  simp [wordOutcome, List.isPrefixOf, commonPrefixLength, h.symm]

theorem gives_seqList_single (rules : (r : Fin n) → Place → Attempt σ Char (ty r)) (place : Place)
    (text : List Char) (tokens : Array Char) (i : Nat) :
    ((seqList (text.map fun c => (single c).map Match.value)).evalWith rules place).Gives
      tokens i (wordOutcome text (rest tokens i) i) := by
  induction text generalizing place i with
  | nil => exact Attempt.gives_nothing.map fun _ => []
  | cons c text ih =>
    rw [List.map_cons, seqList]
    cases hs : rest tokens i with
    | nil =>
      exact ((Attempt.gives_satisfy_error (by simp [hs])).map Match.value).seq_error.map consMatch
    | cons d s =>
      by_cases hd : d = c
      · subst hd
        have hfirst := (Attempt.gives_satisfy_ok (σ := σ) (· == d) hs (by simp)).map
          Match.value
        have hnext := ih (.right :: place) (i + 1)
        rw [rest_succ hs] at hnext
        rw [wordOutcome_cons_self]
        unfold wordOutcome at hnext ⊢
        by_cases hp : text.isPrefixOf s
        · rw [if_pos hp] at hnext ⊢
          refine ((hfirst.seq_ok hnext (Nat.le_refl _)).map consMatch).of_eq ?_
          simp [Except.map, Output.map, consMatch]
        · rw [if_neg hp] at hnext ⊢
          refine ((hfirst.seq_ok_error hnext).map consMatch).of_eq ?_
          simp [Except.map]
      · rw [wordOutcome_cons_of_ne hd]
        exact ((Attempt.gives_satisfy_error (by simp [hs, hd])).map Match.value).seq_error.map
          consMatch

/-- A word means the same among whatever rules it is used. -/
theorem gives_evalWith_word (rules : (r : Fin n) → Place → Attempt σ Char (ty r)) (place : Place)
    (text : String) (tokens : Array Char) (i : Nat) :
    ((word text).evalWith rules place).Gives tokens i
      ((wordOutcome text.toList (rest tokens i) i).map (Output.map String.ofList)) :=
  (gives_seqList_single rules place text.toList tokens i).map String.ofList

theorem gives_word (text : String) (tokens : Array Char) (i : Nat) :
    (word text : Parser σ Char NoRules String).closed.Gives tokens i
      ((wordOutcome text.toList (rest tokens i) i).map (Output.map String.ofList)) :=
  gives_evalWith_word (fun r => r.elim0) [] text tokens i

end Parser

end RegArith
