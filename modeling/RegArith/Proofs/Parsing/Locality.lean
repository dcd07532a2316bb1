import RegArith.Proofs.Parsing.Position

/-!
# What decides an outcome

An outcome is decided by the tokens up to the furthest index it reports. Whatever a regular parser
looked at, also in branches it gave up and in the attempt that ended a repetition, lies at or
before that index; so two inputs that agree up to there cannot be told apart by the attempt. At
the end of the tokens the absence of a token is what was looked at, which is why agreement is
stated with `getElem?`.

The four conditions on a match (`guard`, `diff`, `followedBy`, `notFollowedBy`) report less than
they look at, so they are left out.

## Main definitions

* `AgreeUpTo` — two inputs have the same tokens up to an index
* `Attempt.Local` — outcomes are decided by the tokens up to their reach
* `Parser.isRegular` — no conditions in the parser

## Main results

* `Parser.local_evalWith`, `local_eval` — regular parsers are local
* `Parser.run_eq_of_agree` — the same for runs of parsers without rules
-/

namespace RegArith

variable {σ τ α β : Type}

/-- The same token, or none, at every index up to `m`. -/
def AgreeUpTo (tokens tokens' : Array τ) (m : Nat) : Prop :=
  ∀ k ≤ m, tokens[k]? = tokens'[k]?

theorem AgreeUpTo.mono {tokens tokens' : Array τ} {m m' : Nat} (h : AgreeUpTo tokens tokens' m)
    (hm : m' ≤ m) : AgreeUpTo tokens tokens' m' := fun k hk => h k (Nat.le_trans hk hm)

/-- Agreement shows on which side of an index the tokens end. -/
theorem AgreeUpTo.eq_size_iff {tokens tokens' : Array τ} {i : Nat}
    (h : AgreeUpTo tokens tokens' i) : i = tokens.size ↔ i = tokens'.size := by
  have hle : ∀ k ≤ i, tokens.size ≤ k ↔ tokens'.size ≤ k := by
    intro k hk
    rw [← Array.getElem?_eq_none_iff, ← Array.getElem?_eq_none_iff, h k hk]
  have hi := hle i (Nat.le_refl i)
  have hpred := hle (i - 1) (Nat.sub_le i 1)
  omega

namespace Attempt

/-- Inputs that agree up to the reach of an outcome have that outcome in common. -/
def Local (a : Attempt σ τ α) : Prop :=
  ∀ ⦃tokens tokens' i j o j'⦄, a tokens i j = some (o, j') →
    AgreeUpTo tokens tokens' (Outcome.reach o) → a tokens' i j = some (o, j')

theorem local_satisfy (pred : τ → Bool) : Local (satisfy pred : Attempt σ τ τ) := by
  intro tokens tokens' i j o j' h hagree
  obtain ⟨rfl, rfl⟩ := pure_eq_some_iff.1 h
  have hi : tokens[i]? = tokens'[i]? := by
    refine hagree i ?_
    cases tokens[i]? with
    | none => simp
    | some token => by_cases hp : pred token <;> simp [hp]
  simp only [satisfy, hi]
  rfl

theorem local_nothing : Local (nothing : Attempt σ τ (Match α)) := fun _ _ _ _ _ _ h _ => h

theorem local_never : Local (never : Attempt σ τ α) := fun _ _ _ _ _ _ h _ => h

theorem local_endOfInput : Local (endOfInput : Attempt σ τ (Match α)) := by
  intro tokens tokens' i j o j' h hagree
  obtain ⟨rfl, rfl⟩ := pure_eq_some_iff.1 h
  have hi : i = tokens.size ↔ i = tokens'.size := by
    refine AgreeUpTo.eq_size_iff (hagree.mono ?_)
    split <;> simp [Output.empty]
  simp only [endOfInput, hi]
  rfl

theorem local_seq {a : Attempt σ τ α} {b : Attempt σ τ β} (ha : a.Local) (hb : b.Local) :
    (seq a b).Local := by
  intro tokens tokens' i j o j' h hagree
  obtain ⟨e, h₁, rfl⟩ | ⟨x, j₁, e, h₁, h₂, rfl⟩ | ⟨x, j₁, y, h₁, h₂, rfl⟩ := seq_eq_some_iff.1 h
  · exact seq_eq_some_iff.2 (.inl ⟨e, ha h₁ hagree, rfl⟩)
  · simp only [Outcome.reach_error, NoMatch.index_furthest] at hagree
    exact seq_eq_some_iff.2 (.inr (.inl ⟨x, j₁, e, ha h₁ (hagree.mono (Nat.le_max_right _ _)),
      hb h₂ (hagree.mono (Nat.le_max_left _ _)), rfl⟩))
  · simp only [Outcome.reach_ok, Output.furthest_reached, Output.furthest_new] at hagree
    exact seq_eq_some_iff.2 (.inr (.inr ⟨x, j₁, y,
      ha h₁ (hagree.mono (by rw [Outcome.reach_ok]; omega)),
      hb h₂ (hagree.mono (by rw [Outcome.reach_ok]; omega)), rfl⟩))

theorem local_alt {a b : Attempt σ τ α} (ha : a.Local) (hb : b.Local) : (alt a b).Local := by
  intro tokens tokens' i j o j' h hagree
  obtain ⟨x, h₁, rfl⟩ | ⟨e, j₁, y, h₁, h₂, rfl⟩ | ⟨e, j₁, f, h₁, h₂, rfl⟩ := alt_eq_some_iff.1 h
  · exact alt_eq_some_iff.2 (.inl ⟨x, ha h₁ hagree, rfl⟩)
  · simp only [Outcome.reach_ok, Output.furthest_reached] at hagree
    exact alt_eq_some_iff.2 (.inr (.inl ⟨e, j₁, y, ha h₁ (hagree.mono (Nat.le_max_right _ _)),
      hb h₂ (hagree.mono (Nat.le_max_left _ _)), rfl⟩))
  · simp only [Outcome.reach_error, NoMatch.index_furthest] at hagree
    exact alt_eq_some_iff.2 (.inr (.inr ⟨e, j₁, f, ha h₁ (hagree.mono (Nat.le_max_left _ _)),
      hb h₂ (hagree.mono (Nat.le_max_right _ _)), rfl⟩))

theorem local_transform {a : Attempt σ τ α} (ha : a.Local) (action : α → StateM σ β) :
    (transform a action).Local := by
  intro tokens tokens' i j o j' h hagree
  obtain ⟨o₁, j₁, h₁, h₂⟩ := transform_eq_some_iff.1 h
  refine transform_eq_some_iff.2 ⟨o₁, j₁, ha h₁ (hagree.mono ?_), h₂⟩
  cases o₁ with
  | error e => cases h₂; exact Nat.le_refl _
  | ok x => cases h₂; exact Nat.le_refl _

/-- The furthest index only grows along the loop of a repetition. -/
theorem le_furthest_of_starFrom {a : Attempt σ τ α} {tokens : Array τ} {i furthest : Nat}
    {values : List α} {j j' : Journal σ} {o : Output (List α)}
    (h : starFrom a tokens i furthest values j = some (o, j')) : furthest ≤ o.furthest := by
  fun_induction starFrom a tokens i furthest values j with
  | case1 => cases h
  | case2 i furthest values j e j₁ h₁ =>
    cases h
    simp only [Output.furthest_reached, Output.furthest_new]
    omega
  | case3 i furthest values j x j₁ h₁ hx ih =>
    have hfar := ih h
    omega
  | case4 i furthest values j x j₁ h₁ hx =>
    cases h
    simp only [Output.furthest_reached, Output.furthest_new]
    omega

theorem starFrom_local {a : Attempt σ τ α} (hadv : a.Advances) (ha : a.Local)
    {tokens tokens' : Array τ} {i furthest : Nat} {values : List α} {j j' : Journal σ}
    {o : Output (List α)} (h : starFrom a tokens i furthest values j = some (o, j'))
    (hagree : AgreeUpTo tokens tokens' o.furthest) :
    starFrom a tokens' i furthest values j = some (o, j') := by
  fun_induction starFrom a tokens i furthest values j with
  | case1 => cases h
  | case2 i furthest values j e j₁ h₁ =>
    cases h
    simp only [Output.furthest_reached, Output.furthest_new] at hagree
    have h₁' := ha h₁ (hagree.mono (by rw [Outcome.reach_error]; omega))
    rw [starFrom, h₁']
  | case3 i furthest values j x j₁ h₁ hx ih =>
    have hfar := le_furthest_of_starFrom h
    have h₁' := ha h₁ (hagree.mono (by rw [Outcome.reach_ok]; omega))
    -- the same match consumes within the other input as well, so its loop goes on too
    have hx' := hadv h₁'
    simp only [Outcome.within_ok] at hx'
    rw [starFrom, h₁']
    simp only [show i < x.next ∧ x.next ≤ tokens'.size by omega, and_self, ↓reduceIte]
    exact ih h
  | case4 i furthest values j x j₁ h₁ hx =>
    cases h
    simp only [Output.furthest_reached, Output.furthest_new] at hagree
    have h₁' := ha h₁ (hagree.mono (by rw [Outcome.reach_ok]; omega))
    have hx' := hadv h₁
    simp only [Outcome.within_ok] at hx'
    rw [starFrom, h₁']
    simp only [show ¬(i < x.next ∧ x.next ≤ tokens'.size) by omega, ↓reduceIte]

theorem local_star {a : Attempt σ τ α} (hadv : a.Advances) (ha : a.Local) : (star a).Local := by
  intro tokens tokens' i j o j' h hagree
  rw [star_eq_map, Option.map_eq_some_iff] at h ⊢
  obtain ⟨⟨x, j₁⟩, h₁, h₂⟩ := h
  cases h₂
  exact ⟨(x, j₁), starFrom_local hadv ha h₁ hagree, rfl⟩

theorem local_plus {a : Attempt σ τ α} (hadv : a.Advances) (ha : a.Local) : (plus a).Local :=
  local_transform (local_seq ha (local_star hadv ha)) _

theorem local_traced {a : Attempt σ τ α} (ha : a.Local) (line : Nat → Outcome α → String) :
    (traced a line).Local := by
  intro tokens tokens' i j o j' h hagree
  obtain ⟨o₁, j₁, h₁, h⟩ := bind_eq_some_iff.1 h
  cases h
  exact bind_eq_some_iff.2 ⟨_, j₁, ha h₁ hagree, rfl⟩

end Attempt

namespace Parser

variable {n : Nat} {ty : Fin n → Type}

/-- Whether the parser is free of conditions on a match. -/
def isRegular {α : Type} : Parser σ τ ty α → Bool
  | satisfy _ | nothing | never | endOfInput | rule _ => true
  | seq p q => p.isRegular && q.isRegular
  | alt p q => p.isRegular && q.isRegular
  | transform p _ => p.isRegular
  | star p => p.isRegular
  | plus p => p.isRegular
  | trace p _ _ => p.isRegular
  | guard _ _ | diff _ _ | followedBy _ _ | notFollowedBy _ _ => false

/-- A regular parser is local if the rules it mentions are. -/
theorem local_evalWith {rules : (r : Fin n) → Place → Attempt σ τ (ty r)}
    (hadv : ∀ r place, (rules r place).Advances) (h : ∀ r place, (rules r place).Local)
    (p : Parser σ τ ty α) (hp : p.isRegular) (place : Place) :
    (p.evalWith rules place).Local := by
  induction p generalizing place with
  | satisfy pred => exact Attempt.local_satisfy pred
  | nothing => exact Attempt.local_nothing
  | never => exact Attempt.local_never
  | endOfInput => exact Attempt.local_endOfInput
  | seq p q ihp ihq =>
    obtain ⟨hp, hq⟩ := Bool.and_eq_true_iff.1 hp
    exact Attempt.local_seq (ihp hp _) (ihq hq _)
  | alt p q ihp ihq =>
    obtain ⟨hp, hq⟩ := Bool.and_eq_true_iff.1 hp
    exact Attempt.local_alt (ihp hp _) (ihq hq _)
  | transform p action ih => exact Attempt.local_transform (ih hp _) action
  | star p ih => exact Attempt.local_star (advances_evalWith hadv p _) (ih hp _)
  | plus p ih => exact Attempt.local_plus (advances_evalWith hadv p _) (ih hp _)
  | rule r => exact fun tokens tokens' i j o j' h' hagree => h r _ h' hagree
  | trace p name description ih => exact Attempt.local_traced (ih hp _) _
  | guard | diff | followedBy | notFollowedBy => cases hp

theorem local_ruleAttempt {rules : (r : Fin n) → Parser σ τ ty (ty r)}
    (h : ∀ r, (rules r).isRegular) (depth : Nat) (r : Fin n) (place : Place) :
    (ruleAttempt rules depth r place).Local := by
  induction depth generalizing r place with
  | zero => intro tokens tokens' i j o j' h'; cases h'
  | succ depth ih => exact local_evalWith (advances_ruleAttempt rules depth) ih _ (h r) place

/-- **Locality.** A regular parser with regular rules cannot tell inputs apart that agree up to
the furthest index it reports on one of them. -/
theorem local_eval {rules : (r : Fin n) → Parser σ τ ty (ty r)} (h : ∀ r, (rules r).isRegular)
    (depth : Nat) (p : Parser σ τ ty α) (hp : p.isRegular) : (p.eval rules depth).Local :=
  local_evalWith (advances_ruleAttempt rules depth) (local_ruleAttempt h depth) p hp []

theorem local_closed (p : Parser σ τ NoRules α) (hp : p.isRegular) : p.closed.Local :=
  local_evalWith (fun r => r.elim0) (fun r => r.elim0) p hp []

/-- Locality of a whole run. -/
theorem run_eq_of_agree (p : Parser σ τ NoRules α) (hp : p.isRegular) {tokens tokens' : Array τ}
    {i : Nat} {j : Journal σ} (h : AgreeUpTo tokens tokens' (Outcome.reach (p.run tokens i j).1)) :
    p.run tokens' i j = p.run tokens i j := by
  have hrun : p.closed tokens i j = some (p.run tokens i j) := (Option.some_get _).symm
  have hrun' : p.closed tokens' i j = some (p.run tokens' i j) := (Option.some_get _).symm
  rw [local_closed p hp hrun h] at hrun'
  exact (Option.some.inj hrun').symm

end Parser

end RegArith
