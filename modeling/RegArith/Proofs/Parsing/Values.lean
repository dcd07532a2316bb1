import RegArith.Proofs.Parsing.Equations

/-!
# What the values of an attempt have in common

`Attempt.Yields a P` says that every match of `a` has a value with the property `P`, on all tokens
and from every index. Positions play no part in it, so that the rules for the operations have no
side conditions.

## Main definitions

* `Attempt.Yields` — a property of all values that an attempt can give

## Main results

* `Attempt.Yields.seq`, `.alt`, `.map`, `.star`, `.plus`
-/

namespace RegArith

namespace Attempt

variable {σ τ α β : Type} {P : α → Prop} {Q : β → Prop}

/-- Every value that the attempt gives has the property. -/
def Yields (a : Attempt σ τ α) (P : α → Prop) : Prop :=
  ∀ ⦃tokens i j x j'⦄, a tokens i j = some (.ok x, j') → P x.value

theorem yields_true (a : Attempt σ τ α) : a.Yields fun _ => True := fun _ _ _ _ _ _ => trivial

theorem yields_satisfy (pred : τ → Bool) :
    (satisfy pred : Attempt σ τ τ).Yields fun t => pred t := by
  intro tokens i j x j' h
  obtain ⟨hx, -⟩ := pure_eq_some_iff.1 h
  cases ht : tokens[i]? with
  | none => rw [ht] at hx; cases hx
  | some token =>
    rw [ht] at hx
    dsimp only at hx
    split at hx
    · cases hx
      assumption
    · cases hx

theorem yields_never : (never : Attempt σ τ α).Yields P := by
  intro tokens i j x j' h
  obtain ⟨hx, -⟩ := pure_eq_some_iff.1 h
  cases hx

namespace Yields

variable {a : Attempt σ τ α} {b : Attempt σ τ β}

theorem seq (ha : a.Yields P) (hb : b.Yields Q) :
    (seq a b).Yields fun v => P v.1 ∧ Q v.2 := by
  intro tokens i j z j' h
  obtain ⟨e, -, hz⟩ | ⟨x, j₁, e, -, -, hz⟩ | ⟨x, j₁, y, hx, hy, hz⟩ := seq_eq_some_iff.1 h
  · cases hz
  · cases hz
  · cases hz
    exact ⟨ha hx, hb hy⟩

theorem alt {b : Attempt σ τ α} (ha : a.Yields P) (hb : b.Yields P) : (alt a b).Yields P := by
  intro tokens i j z j' h
  obtain ⟨x, hx, hz⟩ | ⟨e, j₁, y, -, hy, hz⟩ | ⟨e, j₁, f, -, -, hz⟩ := alt_eq_some_iff.1 h
  · cases hz
    exact ha hx
  · cases hz
    rw [Output.value_reached]
    exact hb hy
  · cases hz

theorem map (ha : a.Yields P) {f : α → β} (hf : ∀ v, P v → Q (f v)) :
    (transform a fun v => pure (f v)).Yields Q := by
  intro tokens i j z j' h
  obtain ⟨o, j₁, ho, hz⟩ := transform_eq_some_iff.1 h
  rw [finish_pure] at hz
  cases o with
  | error e => cases hz
  | ok x =>
    cases hz
    exact hf x.value (ha ho)

/-- The loop of a repetition adds values of its part to those it has. -/
theorem starFrom (ha : a.Yields P) {tokens : Array τ} {i furthest : Nat} {values : List α}
    {j j' : Journal σ} {y : Output (List α)}
    (h : starFrom a tokens i furthest values j = some (y, j')) (hvalues : ∀ v ∈ values, P v) :
    ∀ v ∈ y.value, P v := by
  fun_induction Attempt.starFrom a tokens i furthest values j with
  | case1 => cases h
  | case2 i furthest values j e j₁ h₁ =>
    cases h
    simpa using hvalues
  | case3 i furthest values j x j₁ h₁ hx ih =>
    exact ih h (List.forall_mem_cons.2 ⟨ha h₁, hvalues⟩)
  | case4 i furthest values j x j₁ h₁ hx =>
    cases h
    intro v hv
    rw [Output.value_reached, Output.value_new, List.mem_reverse] at hv
    exact List.forall_mem_cons.2 ⟨ha h₁, hvalues⟩ v hv

theorem star (ha : a.Yields P) : (star a).Yields fun vs => ∀ v ∈ vs, P v := by
  intro tokens i j y j' h
  rw [star_eq_map, Option.map_eq_some_iff] at h
  obtain ⟨⟨z, j₁⟩, hz, hy⟩ := h
  cases hy
  exact ha.starFrom hz (by simp)

theorem plus (ha : a.Yields P) : (plus a).Yields fun vs => vs ≠ [] ∧ ∀ v ∈ vs, P v :=
  (ha.seq ha.star).map fun v hv => ⟨by simp, List.forall_mem_cons.2 hv⟩

end Yields

end Attempt

namespace Parser

variable {σ τ α : Type}

/-- A run is the outcome of the parser's meaning. -/
theorem closed_eq_some_run (p : Parser σ τ NoRules α) (tokens : Array τ) (i : Nat)
    (j : Journal σ) : p.closed tokens i j = some (p.run tokens i j) := (Option.some_get _).symm

/-- The value of a run has the property that all values have. -/
theorem of_run_eq_ok {p : Parser σ τ NoRules α} {P : α → Prop} (h : p.closed.Yields P)
    {tokens : Array τ} {i : Nat} {j : Journal σ} {x : Output α}
    (hx : (p.run tokens i j).1 = .ok x) : P x.value := by
  have hclosed := p.closed_eq_some_run tokens i j
  rw [show p.run tokens i j = (.ok x, (p.run tokens i j).2) by rw [← hx]] at hclosed
  exact h hclosed

end Parser

end RegArith
