import RegArith.Proofs.Parsing.Equations

/-!
# Positions of outcomes

No attempt moves backwards or past the end of the tokens, and what it reports as its furthest
failure lies at or behind the place where it stopped. Each operation keeps this, recursion through
rules included, because rules only pass on what their parsers do.

With positions under control, repetition can be unfolded round by round: the test that lets the
loop go on is no more than the question whether the match consumed anything.

## Main definitions

* `Outcome.reach` — the furthest index that an outcome knows of
* `Outcome.Within`, `Attempt.Advances` — the position invariant

## Main results

* `Parser.advances_evalWith`, `advances_eval` — every parser keeps the invariant
* `Parser.eval_stays_within` — the invariant spelled out
* `Attempt.star_of_error`, `star_of_next_eq`, `star_of_step` — one round of a repetition
-/

namespace RegArith

namespace Outcome

variable {α β : Type}

/-- The furthest index at which anything failed on the way to the outcome. -/
def reach : Outcome α → Nat
  | .ok x => x.furthest
  | .error e => e.index

@[simp] theorem reach_ok (x : Output α) : reach (.ok x) = x.furthest := rfl

@[simp] theorem reach_error (e : NoMatch) : reach (.error e : Outcome α) = e.index := rfl

/-- An outcome at `i` neither moved backwards nor past the end, and its furthest failure is not
before the place where it stopped. -/
def Within (i size : Nat) : Outcome α → Prop
  | .ok x => i ≤ x.next ∧ x.next ≤ x.furthest ∧ x.furthest ≤ max i size
  | .error e => i ≤ e.index ∧ e.index ≤ max i size

@[simp] theorem within_ok {i size : Nat} {x : Output α} :
    Within i size (.ok x) ↔ i ≤ x.next ∧ x.next ≤ x.furthest ∧ x.furthest ≤ max i size := Iff.rfl

@[simp] theorem within_error {i size : Nat} {e : NoMatch} :
    Within i size (.error e : Outcome α) ↔ i ≤ e.index ∧ e.index ≤ max i size := Iff.rfl

/-- A success that read nothing. -/
theorem within_ok_self (v : α) (i size : Nat) : Within i size (.ok (.new v i)) :=
  ⟨Nat.le_refl i, Nat.le_refl i, Nat.le_max_left i size⟩

/-- A failure on the spot. -/
theorem within_error_self (i size : Nat) : Within i size (.error ⟨i⟩ : Outcome α) :=
  ⟨Nat.le_refl i, Nat.le_max_left i size⟩

end Outcome

namespace Attempt

variable {σ τ α β : Type}

/-- Every outcome of the attempt keeps to the position invariant. -/
def Advances (a : Attempt σ τ α) : Prop :=
  ∀ ⦃tokens i j o j'⦄, a tokens i j = some (o, j') → Outcome.Within i tokens.size o

/-! ### The operations keep the invariant -/

theorem advances_satisfy (pred : τ → Bool) : Advances (satisfy pred : Attempt σ τ τ) := by
  intro tokens i j o j' h
  obtain ⟨rfl, rfl⟩ := pure_eq_some_iff.1 h
  cases ht : tokens[i]? with
  | none => exact Outcome.within_error_self i _
  | some token =>
    obtain ⟨hi, -⟩ := Array.getElem?_eq_some_iff.1 ht
    dsimp only
    split
    · simp only [Outcome.within_ok, Output.next_new, Output.furthest_new]
      omega
    · exact Outcome.within_error_self i _

theorem advances_nothing : Advances (nothing : Attempt σ τ (Match α)) := by
  intro tokens i j o j' h
  obtain ⟨rfl, rfl⟩ := pure_eq_some_iff.1 h
  exact Outcome.within_ok_self _ i _

theorem advances_never : Advances (never : Attempt σ τ α) := by
  intro tokens i j o j' h
  obtain ⟨rfl, rfl⟩ := pure_eq_some_iff.1 h
  exact Outcome.within_error_self i _

theorem advances_endOfInput : Advances (endOfInput : Attempt σ τ (Match α)) := by
  intro tokens i j o j' h
  obtain ⟨rfl, rfl⟩ := pure_eq_some_iff.1 h
  split
  · exact Outcome.within_ok_self _ i _
  · exact Outcome.within_error_self i _

theorem advances_seq {a : Attempt σ τ α} {b : Attempt σ τ β} (ha : a.Advances)
    (hb : b.Advances) : (seq a b).Advances := by
  intro tokens i j o j' h
  obtain ⟨e, h₁, rfl⟩ | ⟨x, j₁, e, h₁, h₂, rfl⟩ | ⟨x, j₁, y, h₁, h₂, rfl⟩ := seq_eq_some_iff.1 h
  · exact ha h₁
  · have hx := ha h₁
    have he := hb h₂
    simp only [Outcome.within_ok, Outcome.within_error, NoMatch.index_furthest] at hx he ⊢
    omega
  · have hx := ha h₁
    have hy := hb h₂
    simp only [Outcome.within_ok, Output.next_reached, Output.next_new, Output.furthest_reached,
      Output.furthest_new] at hx hy ⊢
    omega

theorem advances_alt {a b : Attempt σ τ α} (ha : a.Advances) (hb : b.Advances) :
    (alt a b).Advances := by
  intro tokens i j o j' h
  obtain ⟨x, h₁, rfl⟩ | ⟨e, j₁, y, h₁, h₂, rfl⟩ | ⟨e, j₁, f, h₁, h₂, rfl⟩ := alt_eq_some_iff.1 h
  · exact ha h₁
  · have he := ha h₁
    have hy := hb h₂
    simp only [Outcome.within_error, Outcome.within_ok, Output.next_reached,
      Output.furthest_reached] at he hy ⊢
    omega
  · have he := ha h₁
    have hf := hb h₂
    simp only [Outcome.within_error, NoMatch.index_furthest] at he hf ⊢
    omega

theorem advances_transform {a : Attempt σ τ α} (ha : a.Advances) (action : α → StateM σ β) :
    (transform a action).Advances := by
  intro tokens i j o j' h
  obtain ⟨o₁, j₁, h₁, h₂⟩ := transform_eq_some_iff.1 h
  have ho := ha h₁
  cases o₁ with
  | error e => cases h₂; exact ho
  | ok x => cases h₂; exact ho

theorem starFrom_within {a : Attempt σ τ α} (ha : a.Advances) {tokens : Array τ}
    {i furthest : Nat} {values : List α} {j j' : Journal σ} {o : Output (List α)}
    (hf : furthest ≤ max i tokens.size)
    (h : starFrom a tokens i furthest values j = some (o, j')) :
    Outcome.Within i tokens.size (.ok o) := by
  fun_induction starFrom a tokens i furthest values j with
  | case1 => cases h
  | case2 i furthest values j e j₁ h₁ =>
    cases h
    have he := ha h₁
    simp only [Outcome.within_error, Outcome.within_ok, Output.next_reached, Output.next_new,
      Output.furthest_reached, Output.furthest_new] at he ⊢
    omega
  | case3 i furthest values j x j₁ h₁ hx ih =>
    have hw := ha h₁
    simp only [Outcome.within_ok] at hw
    have hrest := ih (by omega) h
    simp only [Outcome.within_ok] at hrest ⊢
    omega
  | case4 i furthest values j x j₁ h₁ hx =>
    cases h
    have hw := ha h₁
    simp only [Outcome.within_ok, Output.next_reached, Output.next_new, Output.furthest_reached,
      Output.furthest_new] at hw ⊢
    omega

theorem advances_star {a : Attempt σ τ α} (ha : a.Advances) : (star a).Advances := by
  intro tokens i j o j' h
  rw [star_eq_map, Option.map_eq_some_iff] at h
  obtain ⟨⟨x, j₁⟩, h₁, h₂⟩ := h
  cases h₂
  exact starFrom_within ha (by omega) h₁

theorem advances_plus {a : Attempt σ τ α} (ha : a.Advances) : (plus a).Advances :=
  advances_transform (advances_seq ha (advances_star ha)) _

theorem advances_guard {a : Attempt σ τ α} (ha : a.Advances) (pred : α → Bool) :
    (guard a pred).Advances := by
  intro tokens i j o j' h
  obtain ⟨o₁, j₁, h₁, h⟩ := bind_eq_some_iff.1 h
  have ho := ha h₁
  cases o₁ with
  | error e =>
    obtain ⟨rfl, rfl⟩ := pure_eq_some_iff.1 h
    exact ho
  | ok x =>
    obtain ⟨rfl, rfl⟩ := pure_eq_some_iff.1 h
    cases pred x.value
    · exact Outcome.within_error_self i _
    · exact ho

theorem advances_diff {a : Attempt σ τ α} (ha : a.Advances) (b : Attempt σ τ β) :
    (diff a b).Advances := by
  intro tokens i j o j' h
  obtain ⟨o₁, j₁, h₁, h⟩ := bind_eq_some_iff.1 h
  have ho := ha h₁
  cases o₁ with
  | error e =>
    obtain ⟨rfl, rfl⟩ := pure_eq_some_iff.1 h
    exact ho
  | ok x =>
    obtain ⟨o₂, j₂, -, h⟩ := bind_eq_some_iff.1 h
    cases o₂ with
    | ok y =>
      obtain ⟨rfl, rfl⟩ := pure_eq_some_iff.1 h
      exact Outcome.within_error_self i _
    | error e =>
      obtain ⟨rfl, rfl⟩ := pure_eq_some_iff.1 h
      exact ho

theorem advances_followedBy {a : Attempt σ τ α} {b : Attempt σ τ β} (ha : a.Advances)
    (hb : b.Advances) : (followedBy a b).Advances := by
  intro tokens i j o j' h
  obtain ⟨o₁, j₁, h₁, h⟩ := bind_eq_some_iff.1 h
  have ho := ha h₁
  cases o₁ with
  | error e =>
    obtain ⟨rfl, rfl⟩ := pure_eq_some_iff.1 h
    exact ho
  | ok x =>
    obtain ⟨o₂, j₂, h₂, h⟩ := bind_eq_some_iff.1 h
    have hy := hb h₂
    cases o₂ with
    | ok y =>
      obtain ⟨rfl, rfl⟩ := pure_eq_some_iff.1 h
      exact ho
    | error e =>
      obtain ⟨rfl, rfl⟩ := pure_eq_some_iff.1 h
      simp only [Outcome.within_ok, Outcome.within_error] at ho hy ⊢
      omega

theorem advances_notFollowedBy {a : Attempt σ τ α} (ha : a.Advances) (b : Attempt σ τ β) :
    (notFollowedBy a b).Advances := by
  intro tokens i j o j' h
  obtain ⟨o₁, j₁, h₁, h⟩ := bind_eq_some_iff.1 h
  have ho := ha h₁
  cases o₁ with
  | error e =>
    obtain ⟨rfl, rfl⟩ := pure_eq_some_iff.1 h
    exact ho
  | ok x =>
    obtain ⟨o₂, j₂, -, h⟩ := bind_eq_some_iff.1 h
    cases o₂ with
    | ok y =>
      obtain ⟨rfl, rfl⟩ := pure_eq_some_iff.1 h
      exact Outcome.within_error_self i _
    | error e =>
      obtain ⟨rfl, rfl⟩ := pure_eq_some_iff.1 h
      exact ho

theorem advances_traced {a : Attempt σ τ α} (ha : a.Advances) (line : Nat → Outcome α → String) :
    (traced a line).Advances := by
  intro tokens i j o j' h
  obtain ⟨o₁, j₁, h₁, h⟩ := bind_eq_some_iff.1 h
  cases h
  exact ha h₁

/-! ### Repetition, round by round

The part fails, or matches without consuming, and either ends the repetition; or it consumes, and
the repetition goes on from there. -/

theorem star_of_error {a : Attempt σ τ α} (ha : a.Advances) {tokens : Array τ} {i : Nat}
    {j j' : Journal σ} {e : NoMatch} (h : a tokens i j = some (.error e, j')) :
    star a tokens i j = some (.ok ⟨[], i, e.index⟩, j') := by
  have he := ha h
  simp only [Outcome.within_error] at he
  rw [star_eq_map, starFrom, h]
  simp only [Option.map_some, Output.new, Output.reached, List.reverse_nil]
  rw [show max i (max i e.index) = e.index by omega]

theorem star_of_next_eq {a : Attempt σ τ α} (ha : a.Advances) {tokens : Array τ} {i : Nat}
    {j j' : Journal σ} {x : Output α} (h : a tokens i j = some (.ok x, j')) (hx : x.next = i) :
    star a tokens i j = some (.ok ⟨[x.value], i, x.furthest⟩, j') := by
  have hw := ha h
  simp only [Outcome.within_ok] at hw
  rw [star_eq_map, starFrom, h]
  simp only [hx, Nat.lt_irrefl, false_and, ↓reduceIte, Option.map_some, Output.new,
    Output.reached, List.reverse_cons, List.reverse_nil, List.nil_append]
  rw [show max i (max i x.furthest) = x.furthest by omega]

theorem star_of_step {a : Attempt σ τ α} (ha : a.Advances) {tokens : Array τ} {i : Nat}
    {j j₁ j' : Journal σ} {x : Output α} {y : Output (List α)}
    (h : a tokens i j = some (.ok x, j₁)) (hx : i < x.next)
    (hy : star a tokens x.next j₁ = some (.ok y, j')) :
    star a tokens i j =
      some (.ok ⟨x.value :: y.value, y.next, max x.furthest y.furthest⟩, j') := by
  have hw := ha h
  simp only [Outcome.within_ok] at hw
  have hsize : x.next ≤ tokens.size := by omega
  -- the loop that goes on is the repetition from `x.next` with `x` in front of it
  have hloop := starFrom_append a tokens x.next x.next [] j₁ x.furthest [x.value]
  rw [show max x.next x.furthest = max i x.furthest by omega, List.nil_append] at hloop
  rw [star_eq_map, Option.map_eq_some_iff] at hy
  obtain ⟨⟨z, j₂⟩, hz, hzy⟩ := hy
  cases hzy
  rw [star_eq_map, starFrom, h]
  simp only [hx, hsize, and_self, ↓reduceIte]
  rw [hloop, hz]
  simp only [Option.map_some, List.reverse_cons, List.reverse_nil, List.nil_append,
    List.cons_append, Nat.max_comm]

end Attempt

namespace Parser

variable {σ τ α : Type} {n : Nat} {ty : Fin n → Type}

/-- Every parser keeps to the position invariant if the rules it mentions do. -/
theorem advances_evalWith {rules : (r : Fin n) → Place → Attempt σ τ (ty r)}
    (h : ∀ r place, (rules r place).Advances) (p : Parser σ τ ty α) (place : Place) :
    (p.evalWith rules place).Advances := by
  induction p generalizing place with
  | satisfy pred => exact Attempt.advances_satisfy pred
  | nothing => exact Attempt.advances_nothing
  | never => exact Attempt.advances_never
  | endOfInput => exact Attempt.advances_endOfInput
  | seq p q hp hq => exact Attempt.advances_seq (hp _) (hq _)
  | alt p q hp hq => exact Attempt.advances_alt (hp _) (hq _)
  | transform p action hp => exact Attempt.advances_transform (hp _) action
  | star p hp => exact Attempt.advances_star (hp _)
  | plus p hp => exact Attempt.advances_plus (hp _)
  | rule r => exact fun tokens i j o j' h' => h r _ h'
  | guard p pred hp => exact Attempt.advances_guard (hp _) pred
  | diff p q hp hq => exact Attempt.advances_diff (hp _) _
  | followedBy p q hp hq => exact Attempt.advances_followedBy (hp _) (hq _)
  | notFollowedBy p q hp hq => exact Attempt.advances_notFollowedBy (hp _) _
  | trace p name description hp => exact Attempt.advances_traced (hp _) _

theorem advances_ruleAttempt (rules : (r : Fin n) → Parser σ τ ty (ty r)) (depth : Nat)
    (r : Fin n) (place : Place) : (ruleAttempt rules depth r place).Advances := by
  induction depth generalizing r place with
  | zero => intro tokens i j o j' h; cases h
  | succ depth ih => exact advances_evalWith ih (rules r) place

/-- **Position invariant.** However deep references are unfolded, no outcome of a parser lies
before its start or past the end. -/
theorem advances_eval (rules : (r : Fin n) → Parser σ τ ty (ty r)) (depth : Nat)
    (p : Parser σ τ ty α) : (p.eval rules depth).Advances :=
  advances_evalWith (advances_ruleAttempt rules depth) p []

theorem advances_closed (p : Parser σ τ NoRules α) : p.closed.Advances :=
  advances_evalWith (fun r => r.elim0) p []

/-- **No parser moves backwards or past the end.** Wherever a parser ends, a match stops between its
start and the end of the tokens, and its furthest failure lies between the place where it stopped
and the end; a failure lies between the start and the end. From a start past the end nothing
moves at all. -/
theorem eval_stays_within (rules : (r : Fin n) → Parser σ τ ty (ty r)) (p : Parser σ τ ty α)
    (depth : Nat) (tokens : Array τ) (i : Nat) (j j' : Journal σ) (o : Outcome α)
    (h : p.eval rules depth tokens i j = some (o, j')) :
    (∀ x, o = .ok x → i ≤ x.next ∧ x.next ≤ x.furthest ∧ x.furthest ≤ max i tokens.size) ∧
    ∀ e, o = .error e → i ≤ e.index ∧ e.index ≤ max i tokens.size := by
  have hwithin := advances_eval rules depth p h
  constructor
  · rintro x rfl
    exact hwithin
  · rintro e rfl
    exact hwithin

/-- Tokens that have another one behind them: of three tokens the first two match, and the third is
why the end is the furthest index. -/
theorem eval_stays_within_lookahead :
    ∃ j' : Journal Unit,
      (((any.followedBy any).star : Parser Unit Char NoRules (List Char)).eval (fun r => r.elim0) 0
        #['a', 'b', 'c'] 0 (.new ())) = some (.ok ⟨['a', 'b'], 2, 3⟩, j') ∧
      0 ≤ 2 ∧ 2 ≤ 3 ∧ 3 ≤ max 0 3 := by
  have hrun : (((any.followedBy any).star : Parser Unit Char NoRules (List Char)).eval
      (fun r => r.elim0) 0 #['a', 'b', 'c'] 0 (.new ())).bind (fun r => r.1.toOption) =
        some ⟨['a', 'b'], 2, 3⟩ := by decide +kernel
  obtain ⟨⟨e | x, j'⟩, h, hx⟩ := Option.bind_eq_some_iff.1 hrun
  · cases hx
  · cases hx
    exact ⟨j', h, (eval_stays_within _ _ 0 _ 0 _ j' _ h).1 _ rfl⟩

end Parser

end RegArith
