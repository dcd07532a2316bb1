import Mathlib.Order.Bounds.Basic
import RegArith.Proofs.Parsing.Locality

/-!
# The furthest index is the last failure

What an outcome reports as its furthest index is put together by the operations, each in its own
way. Here it is compared with what happened: a second evaluator writes down every index at which a
primitive fails, also in branches that are given up later, and the furthest index turns out to be
the greatest of them. A match stops somewhere without a failure, so that for a match the index
where it stopped counts as well.

The recording evaluator uses the same operations as the plain one and only replaces the three
primitives that can fail. It runs on a state with a list of failures beside the original state,
and its outcomes are those of the plain evaluator.

## Main definitions

* `Attempt.recorded` — an attempt that notes the index at which it fails
* `Parser.recordWith`, `recordRule`, `record` — the recording evaluator
* `Outcome.IsFurthest` — the outcome reports the greatest of some failures
* `Attempt.Records` — an attempt beside its recording

## Main results

* `Attempt.Records.seq`, `.alt`, `.star` and their companions — one for each operation
* `Parser.records_eval` — regular parsers report the furthest failure of their run
* `Parser.furthest_eq_last_failure` — the same, with the failures of one run in view
-/

namespace RegArith

variable {σ τ α β : Type}

/-! ### Recording -/

/-- The journal with a list of failures in its state. -/
def Journal.withFailures (j : Journal σ) (failures : List Nat) : Journal (σ × List Nat) where
  state := (j.state, failures)
  log := j.log
  built := j.built
  constructions := j.constructions

@[simp] theorem Journal.withFailures_visit (j : Journal σ) (failures : List Nat) (place : Place) :
    (j.withFailures failures).visit place = (j.visit place).withFailures failures := by
  unfold Journal.visit
  by_cases h : place ∈ j.built
  · rw [if_pos h, if_pos (show place ∈ (j.withFailures failures).built from h)]
  · rw [if_neg h, if_neg (show place ∉ (j.withFailures failures).built from h)]
    rfl

namespace Attempt

/-- Notes the index if the attempt fails there. -/
def recorded (a : Attempt (σ × List Nat) τ α) : Attempt (σ × List Nat) τ α := fun tokens i => do
  match ← a tokens i with
  | .ok x => return .ok x
  | .error e =>
    modify fun j => { j with state := (j.state.1, i :: j.state.2) }
    return .error e

/-- The action beside a list of failures, which it does not touch. -/
def besideFailures (action : α → StateM σ β) : α → StateM (σ × List Nat) β := fun x s =>
  (((action x).run s.1).1, ((action x).run s.1).2, s.2)

end Attempt

namespace Parser

variable {n : Nat} {ty : Fin n → Type}

/-- The meaning of the parser at a place, where primitives note the indices at which they fail. -/
def recordWith (rules : (r : Fin n) → Place → Attempt (σ × List Nat) τ (ty r)) :
    {α : Type} → Parser σ τ ty α → Place → Attempt (σ × List Nat) τ α
  | _, satisfy pred, _ => (Attempt.satisfy pred).recorded
  | _, nothing, _ => Attempt.nothing
  | _, never, _ => Attempt.never.recorded
  | _, endOfInput, _ => Attempt.endOfInput.recorded
  | _, seq p q, place =>
    Attempt.seq (p.recordWith rules (.left :: place)) (q.recordWith rules (.right :: place))
  | _, alt p q, place =>
    Attempt.alt (p.recordWith rules (.left :: place)) (q.recordWith rules (.right :: place))
  | _, transform p action, place =>
    Attempt.transform (p.recordWith rules place) (Attempt.besideFailures action)
  | _, star p, place => Attempt.star (p.recordWith rules place)
  | _, plus p, place => Attempt.plus (p.recordWith rules place)
  | _, rule r, place => fun tokens i => do
    modify (·.visit place)
    rules r (.inside :: place) tokens i
  | _, guard p pred, place => Attempt.guard (p.recordWith rules place) pred
  | _, diff p q, place =>
    Attempt.diff (p.recordWith rules (.left :: place)) (q.recordWith rules (.right :: place))
  | _, followedBy p q, place =>
    Attempt.followedBy (p.recordWith rules (.left :: place)) (q.recordWith rules (.right :: place))
  | _, notFollowedBy p q, place =>
    Attempt.notFollowedBy (p.recordWith rules (.left :: place))
      (q.recordWith rules (.right :: place))
  | _, trace p name description, place =>
    Attempt.traced (p.recordWith rules place) (traceLine name description)

/-- The recording meaning of the rules with references unfolded `depth` deep. -/
def recordRule (rules : (r : Fin n) → Parser σ τ ty (ty r)) :
    (depth : Nat) → (r : Fin n) → Place → Attempt (σ × List Nat) τ (ty r)
  | 0 => fun _ _ _ _ _ => none
  | depth + 1 => fun r place => (rules r).recordWith (recordRule rules depth) place

/-- The recording meaning of a parser with references unfolded `depth` deep. -/
def record (rules : (r : Fin n) → Parser σ τ ty (ty r)) (depth : Nat) (p : Parser σ τ ty α) :
    Attempt (σ × List Nat) τ α :=
  p.recordWith (recordRule rules depth) []

end Parser

/-! ### The greatest failure -/

/-- The outcome reports the greatest of the failures. A match that got further than all of them
reports where it stopped. -/
def Outcome.IsFurthest (failures : Set Nat) : Outcome α → Prop
  | .ok x => IsGreatest (insert x.next failures) x.furthest
  | .error e => IsGreatest failures e.index

/-- A member that lies at or before another one can be left out. -/
theorem isGreatest_of_insert {a b m : Nat} {s : Set Nat} (h : IsGreatest (insert a s) m)
    (hb : b ∈ s) (hab : a ≤ b) : IsGreatest s m := by
  have hbm : b ≤ m := h.2 (Set.mem_insert_of_mem a hb)
  refine ⟨?_, fun k hk => h.2 (Set.mem_insert_of_mem a hk)⟩
  rcases h.1 with rfl | hm
  · rwa [Nat.le_antisymm hab hbm]
  · exact hm

/-- The greatest of all members is that of some of them and the others. -/
theorem isGreatest_insert_union {m k : Nat} {s t : Set Nat} (hk : IsGreatest s k)
    (hm : IsGreatest (insert k t) m) : IsGreatest (t ∪ s) m := by
  refine ⟨?_, ?_⟩
  · rcases hm.1 with rfl | hm'
    · exact .inr hk.1
    · exact .inl hm'
  · rintro l (hl | hl)
    · exact hm.2 (Set.mem_insert_of_mem k hl)
    · exact (hk.2 hl).trans (hm.2 (Set.mem_insert k t))

namespace Outcome

variable {F G : Set Nat}

/-- The second of two parts fails, not before its start. -/
theorem IsFurthest.seq_error {x : Output α} {e : NoMatch} (hx : IsFurthest F (.ok x))
    (he : IsFurthest G (.error e : Outcome β)) (hle : x.next ≤ e.index) :
    IsFurthest (G ∪ F) (.error (e.furthest ⟨x.furthest⟩) : Outcome (α × β)) := by
  have hmax := IsGreatest.union he hx
  rw [Set.union_insert] at hmax
  change IsGreatest _ (e.furthest ⟨x.furthest⟩).index
  rw [NoMatch.index_furthest]
  exact isGreatest_of_insert hmax (.inl he.1) hle

/-- Both parts match, and the second one ends at or behind its start. -/
theorem IsFurthest.seq_ok {x : Output α} {y : Output β} (hx : IsFurthest F (.ok x))
    (hy : IsFurthest G (.ok y)) (hle : x.next ≤ y.next) :
    IsFurthest (G ∪ F) (.ok (((Output.new (x.value, y.value) y.next).reached x.furthest).reached
      y.furthest)) := by
  have hmax := IsGreatest.union hy hx
  rw [Set.union_insert, Set.insert_union] at hmax
  have hnext : y.next ≤ y.furthest := hy.2 (Set.mem_insert _ _)
  change IsGreatest _ (max (max y.next x.furthest) y.furthest)
  rw [show max (max y.next x.furthest) y.furthest = max y.furthest x.furthest by omega]
  exact isGreatest_of_insert hmax (Set.mem_insert _ _) hle

/-- The first alternative fails and the second one matches. -/
theorem IsFurthest.alt_ok {e : NoMatch} {y : Output α}
    (he : IsFurthest F (.error e : Outcome α)) (hy : IsFurthest G (.ok y)) :
    IsFurthest (G ∪ F) (.ok (y.reached e.index)) := by
  have hmax := IsGreatest.union hy he
  rwa [Set.insert_union] at hmax

/-- Both alternatives fail. -/
theorem IsFurthest.alt_error {e f : NoMatch} (he : IsFurthest F (.error e : Outcome α))
    (hf : IsFurthest G (.error f : Outcome α)) :
    IsFurthest (G ∪ F) (.error (e.furthest f) : Outcome α) := by
  have hmax := IsGreatest.union hf he
  change IsGreatest _ (e.furthest f).index
  rwa [NoMatch.index_furthest, Nat.max_comm]

end Outcome

/-! ### The operations -/

/-- The failures in a list. -/
abbrev failureSet (failures : List Nat) : Set Nat := {k | k ∈ failures}

theorem failureSet_append (failures failures' : List Nat) :
    failureSet (failures ++ failures') = failureSet failures ∪ failureSet failures' := by
  ext k
  exact List.mem_append

namespace Attempt

/-- Whenever `a` ends, its recording `b` ends alike, with further failures of which the outcome
reports the greatest. -/
def Records (a : Attempt σ τ α) (b : Attempt (σ × List Nat) τ α) : Prop :=
  ∀ ⦃tokens i j o j'⦄, a tokens i j = some (o, j') → ∀ earlier, ∃ failures,
    b tokens i (j.withFailures earlier) = some (o, j'.withFailures (failures ++ earlier)) ∧
      Outcome.IsFurthest (failureSet failures) o

/-- A primitive fails on the spot or not at all. -/
theorem records_recorded {a : Attempt σ τ α} {b : Attempt (σ × List Nat) τ α}
    {o : Array τ → Nat → Outcome α} (ha : ∀ tokens i, a tokens i = pure (o tokens i))
    (hb : ∀ tokens i, b tokens i = pure (o tokens i))
    (ho : ∀ tokens i e, o tokens i = .error e → e.index = i)
    (ho' : ∀ tokens i x, o tokens i = .ok x → x.furthest = x.next) : Records a b.recorded := by
  intro tokens i j r j' h earlier
  rw [ha] at h
  obtain ⟨rfl, rfl⟩ := pure_eq_some_iff.1 h
  rw [recorded, hb]
  cases hr : o tokens i with
  | ok x =>
    refine ⟨[], rfl, ?_⟩
    change IsGreatest (insert x.next _) x.furthest
    rw [ho' tokens i x hr]
    simp [failureSet, IsGreatest, upperBounds]
  | error e =>
    refine ⟨[i], rfl, ?_⟩
    change IsGreatest _ e.index
    rw [ho tokens i e hr]
    simp [failureSet, IsGreatest, upperBounds]

theorem records_satisfy (pred : τ → Bool) :
    Records (satisfy pred : Attempt σ τ τ) (satisfy pred).recorded := by
  refine records_recorded (fun _ _ => rfl) (fun _ _ => rfl) ?_ ?_
  · intro tokens i e h
    cases ht : tokens[i]? with
    | none => rw [ht] at h; cases h; rfl
    | some token =>
      rw [ht] at h
      dsimp only at h
      split at h <;> cases h
      rfl
  · intro tokens i x h
    cases ht : tokens[i]? with
    | none => rw [ht] at h; cases h
    | some token =>
      rw [ht] at h
      dsimp only at h
      split at h <;> cases h
      rfl

theorem records_never : Records (never : Attempt σ τ α) never.recorded := by
  refine records_recorded (fun _ _ => rfl) (fun _ _ => rfl) ?_ ?_
  · rintro tokens i e ⟨⟩
    rfl
  · rintro tokens i x ⟨⟩

theorem records_endOfInput :
    Records (endOfInput : Attempt σ τ (Match α)) endOfInput.recorded := by
  refine records_recorded (fun _ _ => rfl) (fun _ _ => rfl) ?_ ?_
  · intro tokens i e h
    split at h <;> cases h
    rfl
  · intro tokens i x h
    split at h <;> cases h
    rfl

theorem records_nothing : Records (nothing : Attempt σ τ (Match α)) nothing := by
  intro tokens i j o j' h earlier
  obtain ⟨rfl, rfl⟩ := pure_eq_some_iff.1 h
  exact ⟨[], rfl, .inl rfl, by simp [failureSet, upperBounds, Output.empty]⟩

theorem Records.seq {a : Attempt σ τ α} {b : Attempt σ τ β} {a' : Attempt (σ × List Nat) τ α}
    {b' : Attempt (σ × List Nat) τ β} (hb : b.Advances) (ha' : Records a a')
    (hb' : Records b b') : Records (seq a b) (seq a' b') := by
  intro tokens i j o j' h earlier
  obtain ⟨e, h₁, rfl⟩ | ⟨x, j₁, e, h₁, h₂, rfl⟩ | ⟨x, j₁, y, h₁, h₂, rfl⟩ := seq_eq_some_iff.1 h
  · obtain ⟨F, hF, he⟩ := ha' h₁ earlier
    exact ⟨F, seq_eq_some_iff.2 (.inl ⟨e, hF, rfl⟩), he⟩
  · obtain ⟨F, hF, hx⟩ := ha' h₁ earlier
    obtain ⟨G, hG, he⟩ := hb' h₂ (F ++ earlier)
    rw [← List.append_assoc] at hG
    refine ⟨G ++ F, seq_eq_some_iff.2 (.inr (.inl ⟨x, _, e, hF, hG, rfl⟩)), ?_⟩
    rw [failureSet_append]
    exact hx.seq_error he (hb h₂).1
  · obtain ⟨F, hF, hx⟩ := ha' h₁ earlier
    obtain ⟨G, hG, hy⟩ := hb' h₂ (F ++ earlier)
    rw [← List.append_assoc] at hG
    refine ⟨G ++ F, seq_eq_some_iff.2 (.inr (.inr ⟨x, _, y, hF, hG, rfl⟩)), ?_⟩
    rw [failureSet_append]
    exact hx.seq_ok hy (hb h₂).1

theorem Records.alt {a b : Attempt σ τ α} {a' b' : Attempt (σ × List Nat) τ α}
    (ha' : Records a a') (hb' : Records b b') : Records (alt a b) (alt a' b') := by
  intro tokens i j o j' h earlier
  obtain ⟨x, h₁, rfl⟩ | ⟨e, j₁, y, h₁, h₂, rfl⟩ | ⟨e, j₁, f, h₁, h₂, rfl⟩ := alt_eq_some_iff.1 h
  · obtain ⟨F, hF, hx⟩ := ha' h₁ earlier
    exact ⟨F, alt_eq_some_iff.2 (.inl ⟨x, hF, rfl⟩), hx⟩
  · obtain ⟨F, hF, he⟩ := ha' h₁ earlier
    obtain ⟨G, hG, hy⟩ := hb' h₂ (F ++ earlier)
    rw [← List.append_assoc] at hG
    refine ⟨G ++ F, alt_eq_some_iff.2 (.inr (.inl ⟨e, _, y, hF, hG, rfl⟩)), ?_⟩
    rw [failureSet_append]
    exact he.alt_ok hy
  · obtain ⟨F, hF, he⟩ := ha' h₁ earlier
    obtain ⟨G, hG, hf⟩ := hb' h₂ (F ++ earlier)
    rw [← List.append_assoc] at hG
    refine ⟨G ++ F, alt_eq_some_iff.2 (.inr (.inr ⟨e, _, f, hF, hG, rfl⟩)), ?_⟩
    rw [failureSet_append]
    exact he.alt_error hf

theorem Records.transform {a : Attempt σ τ α} {a' : Attempt (σ × List Nat) τ α}
    (ha' : Records a a') (action : α → StateM σ β) :
    Records (transform a action) (transform a' (besideFailures action)) := by
  intro tokens i j o j' h earlier
  obtain ⟨o₁, j₁, h₁, h₂⟩ := transform_eq_some_iff.1 h
  obtain ⟨F, hF, ho⟩ := ha' h₁ earlier
  cases o₁ with
  | error e =>
    cases h₂
    exact ⟨F, transform_eq_some_iff.2 ⟨_, _, hF, rfl⟩, ho⟩
  | ok x =>
    cases h₂
    exact ⟨F, transform_eq_some_iff.2 ⟨_, _, hF, rfl⟩, ho⟩

/-- The loop of a repetition reports the greatest of where it stops, the furthest index so far and
the failures that are still to come. -/
theorem Records.starFrom {a : Attempt σ τ α} {a' : Attempt (σ × List Nat) τ α} (ha : a.Advances)
    (ha' : Records a a') {tokens : Array τ} {i furthest : Nat} {values : List α}
    {j j' : Journal σ} {y : Output (List α)}
    (h : Attempt.starFrom a tokens i furthest values j = some (y, j')) (earlier : List Nat) :
    ∃ failures,
      Attempt.starFrom a' tokens i furthest values (j.withFailures earlier) =
        some (y, j'.withFailures (failures ++ earlier)) ∧
      i ≤ y.next ∧
      IsGreatest (insert y.next (insert furthest (failureSet failures))) y.furthest := by
  fun_induction Attempt.starFrom a tokens i furthest values j generalizing earlier with
  | case1 => cases h
  | case2 i furthest values j e j₁ h₁ =>
    cases h
    obtain ⟨F, hF, he⟩ := ha' h₁ earlier
    refine ⟨F, ?_, Nat.le_refl i, (IsGreatest.insert furthest he).insert i⟩
    rw [Attempt.starFrom, hF]
  | case3 i furthest values j x j₁ h₁ hx ih =>
    obtain ⟨F, hF, hfar⟩ := ha' h₁ earlier
    obtain ⟨G, hG, hle, hgreatest⟩ := ih h (F ++ earlier)
    refine ⟨G ++ F, ?_, by omega, ?_⟩
    · rw [Attempt.starFrom, hF]
      simp only [hx, and_self, ↓reduceIte]
      rw [hG, List.append_assoc]
    · -- the index where the match stopped lies before the one where the loop stops
      have hmax := isGreatest_insert_union (IsGreatest.insert furthest hfar)
        (Set.insert_comm _ _ _ ▸ hgreatest)
      have hset : insert y.next (failureSet G) ∪ insert furthest (insert x.next (failureSet F)) =
          insert x.next (insert y.next (insert furthest (failureSet (G ++ F)))) := by
        rw [failureSet_append]
        ext k
        simp only [Set.mem_union, Set.mem_insert_iff]
        tauto
      rw [hset] at hmax
      exact isGreatest_of_insert hmax (Set.mem_insert _ _) hle
  | case4 i furthest values j x j₁ h₁ hx =>
    cases h
    obtain ⟨F, hF, hfar⟩ := ha' h₁ earlier
    refine ⟨F, ?_, (ha h₁).1, ?_⟩
    · rw [Attempt.starFrom, hF]
      simp only [hx, ↓reduceIte]
    · have hmax := IsGreatest.insert furthest hfar
      have hnext : x.next ≤ x.furthest := (ha h₁).2.1
      rw [Set.insert_comm] at hmax
      change IsGreatest _ (max x.next (max furthest x.furthest))
      rwa [show max x.next (max furthest x.furthest) = max furthest x.furthest by omega]

theorem Records.star {a : Attempt σ τ α} {a' : Attempt (σ × List Nat) τ α} (ha : a.Advances)
    (ha' : Records a a') : Records (star a) (star a') := by
  intro tokens i j o j' h earlier
  rw [star_eq_map, Option.map_eq_some_iff] at h
  obtain ⟨⟨y, j₁⟩, h₁, h₂⟩ := h
  cases h₂
  obtain ⟨F, hF, hle, hgreatest⟩ := ha'.starFrom ha h₁ earlier
  refine ⟨F, ?_, ?_⟩
  · rw [star_eq_map, hF]
    rfl
  · rw [Set.insert_comm] at hgreatest
    exact isGreatest_of_insert hgreatest (Set.mem_insert _ _) hle

theorem Records.plus {a : Attempt σ τ α} {a' : Attempt (σ × List Nat) τ α} (ha : a.Advances)
    (ha' : Records a a') : Records (plus a) (plus a') :=
  (ha'.seq (advances_star ha) (ha'.star ha)).transform _

theorem Records.traced {a : Attempt σ τ α} {a' : Attempt (σ × List Nat) τ α}
    (ha' : Records a a') (line : Nat → Outcome α → String) :
    Records (traced a line) (traced a' line) := by
  intro tokens i j o j' h earlier
  obtain ⟨o₁, j₁, h₁, h⟩ := bind_eq_some_iff.1 h
  cases h
  obtain ⟨F, hF, ho⟩ := ha' h₁ earlier
  exact ⟨F, bind_eq_some_iff.2 ⟨_, _, hF, rfl⟩, ho⟩

end Attempt

/-! ### Parsers -/

namespace Parser

variable {n : Nat} {ty : Fin n → Type}

/-- A regular parser is recorded faithfully if the rules it mentions are. -/
theorem records_evalWith {rules : (r : Fin n) → Place → Attempt σ τ (ty r)}
    {rules' : (r : Fin n) → Place → Attempt (σ × List Nat) τ (ty r)}
    (hadv : ∀ r place, (rules r place).Advances)
    (h : ∀ r place, (rules r place).Records (rules' r place)) (p : Parser σ τ ty α)
    (hp : p.isRegular) (place : Place) :
    (p.evalWith rules place).Records (p.recordWith rules' place) := by
  have hpart {α : Type} (q : Parser σ τ ty α) (place : Place) : (q.evalWith rules place).Advances :=
    advances_evalWith hadv q place
  induction p generalizing place with
  | satisfy pred => exact Attempt.records_satisfy pred
  | nothing => exact Attempt.records_nothing
  | never => exact Attempt.records_never
  | endOfInput => exact Attempt.records_endOfInput
  | seq p q ihp ihq =>
    obtain ⟨hp, hq⟩ := Bool.and_eq_true_iff.1 hp
    exact (ihp hp _).seq (hpart q _) (ihq hq _)
  | alt p q ihp ihq =>
    obtain ⟨hp, hq⟩ := Bool.and_eq_true_iff.1 hp
    exact (ihp hp _).alt (ihq hq _)
  | transform p action ih => exact (ih hp _).transform action
  | star p ih => exact (ih hp _).star (hpart p _)
  | plus p ih => exact (ih hp _).plus (hpart p _)
  | rule r =>
    intro tokens i j o j' h' earlier
    obtain ⟨F, hF, ho⟩ := h r (.inside :: place) h' earlier
    rw [← Journal.withFailures_visit] at hF
    exact ⟨F, hF, ho⟩
  | trace p name description ih => exact (ih hp _).traced _
  | guard | diff | followedBy | notFollowedBy => cases hp

theorem records_ruleAttempt {rules : (r : Fin n) → Parser σ τ ty (ty r)}
    (h : ∀ r, (rules r).isRegular) (depth : Nat) (r : Fin n) (place : Place) :
    (ruleAttempt rules depth r place).Records (recordRule rules depth r place) := by
  induction depth generalizing r place with
  | zero => intro tokens i j o j' h'; cases h'
  | succ depth ih => exact records_evalWith (advances_ruleAttempt rules depth) ih _ (h r) place

/-- A regular parser with regular rules is recorded faithfully. -/
theorem records_eval {rules : (r : Fin n) → Parser σ τ ty (ty r)} (h : ∀ r, (rules r).isRegular)
    (depth : Nat) (p : Parser σ τ ty α) (hp : p.isRegular) :
    (p.eval rules depth).Records (p.record rules depth) :=
  records_evalWith (advances_ruleAttempt rules depth) (records_ruleAttempt h depth) p hp []

/-- **The furthest index is exact.** If a regular parser ends, its recording ends alike and finds
the indices at which primitives failed during the run. A failure is blamed on the last of them;
a match reports the last of them, or the index where it stopped if that lies behind them all. -/
theorem furthest_eq_last_failure (rules : (r : Fin n) → Parser σ τ ty (ty r))
    (hrules : ∀ r, (rules r).isRegular) (p : Parser σ τ ty α) (hp : p.isRegular) (depth : Nat)
    (tokens : Array τ) (i : Nat) (j j' : Journal σ) (o : Outcome α)
    (h : p.eval rules depth tokens i j = some (o, j')) :
    ∃ failures : List Nat,
      p.record rules depth tokens i (j.withFailures []) = some (o, j'.withFailures failures) ∧
      (∀ e, o = .error e → IsGreatest {k | k ∈ failures} e.index) ∧
      ∀ x, o = .ok x → IsGreatest (insert x.next {k | k ∈ failures}) x.furthest := by
  obtain ⟨F, hF, ho⟩ := records_eval hrules depth p hp h []
  rw [List.append_nil] at hF
  refine ⟨F, hF, ?_, ?_⟩
  · rintro e rfl
    exact ho
  · rintro x rfl
    exact ho

/-- Any number of bracketed groups in a row, each of which holds such a row. -/
def bracketGroups : (r : Fin 1) → Parser Unit Char (fun _ : Fin 1 => Nat) Nat := fun _ =>
  (((single '(').seq ((rule 0).seq (single ')'))).star).map List.length

/-- In `(()` the outer group is never closed. The row in front of the end matches with no group at
all, and yet the end is blamed at index 3, where the closing bracket is missing. -/
theorem furthest_unclosed_group :
    ∃ (j' : Journal Unit) (failures : List Nat),
      ((rule 0).seq (endOfInput : Parser Unit Char _ (Match Unit))).eval bracketGroups 4
        #['(', '(', ')'] 0 (.new ()) = some (.error ⟨3⟩, j') ∧
      ((rule 0).seq (endOfInput : Parser Unit Char _ (Match Unit))).record bracketGroups 4
        #['(', '(', ')'] 0 ((Journal.new ()).withFailures []) =
          some (.error ⟨3⟩, j'.withFailures failures) ∧
      IsGreatest {k | k ∈ failures} 3 := by
  have hrun : (((rule 0).seq (endOfInput : Parser Unit Char _ (Match Unit))).eval bracketGroups 4
      #['(', '(', ')'] 0 (.new ())).map Prod.fst = some (.error ⟨3⟩) := by decide +kernel
  obtain ⟨⟨o, j'⟩, h, rfl⟩ := Option.map_eq_some_iff.1 hrun
  obtain ⟨failures, hrecord, herror, -⟩ := furthest_eq_last_failure bracketGroups (by decide) _ rfl
    4 _ 0 _ _ _ h
  exact ⟨j', failures, h, hrecord, herror _ rfl⟩

end Parser

end RegArith
