import RegArith.Proofs.Parsing.Algebra
import RegArith.Proofs.Parsing.Depth

/-!
# Repetition

A repetition tries its part again and again, and nothing limits the number of rounds but the tokens
that are left: each round but the last consumes one. So it ends whenever its part does, after at
most one attempt for every token and one more, and it unfolds from the front: no round, one round
that stands still, or one round and the repetition behind it.

How deep references have to be unfolded may differ from round to round. `EndsWith` leaves the depth
out, as a parse that ends does not change when references are unfolded further.

## Main definitions

* `Parser.EndsWith` — a parse ends with an outcome and a state, at some depth
* `Parser.EndsFrom` — all parses from an index to the end of the tokens end
* `Attempt.counted` — an attempt that counts how often it is made
* `Parser.RepeatsIn` — a repetition and the number of attempts of its part
* `Output.prepend` — a match in front of those behind it

## Main results

* `Parser.EndsWith.unique` — a parse has one outcome
* `Parser.EndsWith.star_of_error`, `star_of_next_eq`, `star_of_step` — one round of a repetition
* `Parser.EndsWith.plus_of_ok`, `plus_endsWith_error_iff` — the first round of `plus`
* `Parser.EndsFrom.exists_star` — a repetition ends if its part does
* `Parser.star_ends_and_unfolds` — repetition ends soon, and is greedy
-/

namespace RegArith

variable {σ τ α : Type}

/-- A match in front of what was matched behind it. -/
def Output.prepend (x : Output α) (y : Output (List α)) : Output (List α) :=
  ⟨x.value :: y.value, y.next, max x.furthest y.furthest⟩

/-- The journal with another state. -/
def Journal.withState {υ : Type} (j : Journal σ) (s : υ) : Journal υ where
  state := s
  log := j.log
  built := j.built
  constructions := j.constructions

/-! ### Attempts of the part -/

namespace Attempt

variable {a : Attempt σ τ α} {tokens : Array τ} {i : Nat} {j j₁ j' : Journal σ}

/-- Counts, beside the state, how often the attempt is made. -/
def counted (a : Attempt σ τ α) : Attempt (σ × Nat) τ α := fun tokens i j =>
  (a tokens i (j.withState j.state.1)).map fun r => (r.1, r.2.withState (r.2.state, j.state.2 + 1))

theorem counted_of_eq {o : Outcome α} (h : a tokens i j = some (o, j')) (earlier : Nat) :
    a.counted tokens i (j.withState (j.state, earlier)) =
      some (o, j'.withState (j'.state, earlier + 1)) := by
  change (a tokens i j).map _ = _
  rw [h]
  rfl

/-- The loop of `star` makes an attempt where it is, and those that follow are made further on. -/
theorem starFrom_counted {furthest : Nat} {values : List α} {y : Output (List α)}
    (h : starFrom a tokens i furthest values j = some (y, j')) (earlier : Nat) :
    ∃ attempts ≤ tokens.size - i + 1,
      starFrom a.counted tokens i furthest values (j.withState (j.state, earlier)) =
        some (y, j'.withState (j'.state, earlier + attempts)) := by
  fun_induction starFrom a tokens i furthest values j generalizing earlier with
  | case1 => cases h
  | case2 i furthest values j e j₁ ha =>
    cases h
    refine ⟨1, Nat.le_add_left 1 _, ?_⟩
    rw [starFrom, counted_of_eq ha earlier]
  | case3 i furthest values j x j₁ ha hx ih =>
    obtain ⟨attempts, hle, hloop⟩ := ih h (earlier + 1)
    refine ⟨attempts + 1, by omega, ?_⟩
    rw [starFrom, counted_of_eq ha earlier]
    simp only [hx, and_self, ↓reduceIte]
    rw [hloop, Nat.add_assoc, Nat.add_comm 1 attempts]
  | case4 i furthest values j x j₁ ha hx =>
    cases h
    refine ⟨1, Nat.le_add_left 1 _, ?_⟩
    rw [starFrom, counted_of_eq ha earlier]
    simp only [hx, ↓reduceIte]

/-- A repetition makes at most one attempt for every token that is left, and one more. -/
theorem star_counted {y : Output (List α)} (h : star a tokens i j = some (.ok y, j')) :
    ∃ attempts ≤ tokens.size - i + 1,
      star a.counted tokens i (j.withState (j.state, 0)) =
        some (.ok y, j'.withState (j'.state, attempts)) := by
  rw [star_eq_map, Option.map_eq_some_iff] at h
  obtain ⟨⟨z, j₁⟩, hz, hzy⟩ := h
  cases hzy
  obtain ⟨attempts, hle, hloop⟩ := starFrom_counted hz 0
  refine ⟨attempts, hle, ?_⟩
  rw [star_eq_map, hloop, Nat.zero_add]
  rfl

/-! ### One or more, round by round -/

theorem star_ne_error {e : NoMatch} : star a tokens i j ≠ some (.error e, j') := by
  rw [star_eq_map]
  intro h
  obtain ⟨r, -, hr⟩ := Option.map_eq_some_iff.1 h
  cases hr

theorem plus_eq_error_iff {e : NoMatch} :
    plus a tokens i j = some (.error e, j') ↔ a tokens i j = some (.error e, j') := by
  rw [plus, transform_eq_some_iff]
  constructor
  · rintro ⟨o, j₁, ho, hfinish⟩
    rw [finish_pure] at hfinish
    obtain ⟨f, ha, rfl⟩ | ⟨x, j₂, f, -, hstar, -⟩ | ⟨x, j₂, y, -, -, rfl⟩ := seq_eq_some_iff.1 ho
    · cases hfinish
      exact ha
    · exact absurd hstar star_ne_error
    · cases hfinish
  · intro h
    exact ⟨.error e, j', seq_eq_some_iff.2 (.inl ⟨e, h, rfl⟩), rfl⟩

theorem plus_of_ok (ha : a.Advances) {x : Output α} {y : Output (List α)}
    (h : a tokens i j = some (.ok x, j₁)) (hy : star a tokens x.next j₁ = some (.ok y, j')) :
    plus a tokens i j = some (.ok (x.prepend y), j') := by
  have hw := advances_star ha hy
  simp only [Outcome.within_ok] at hw
  rw [plus, transform_eq_some_iff]
  refine ⟨_, j', seq_eq_some_iff.2 (.inr (.inr ⟨x, j₁, y, h, hy, rfl⟩)), ?_⟩
  rw [finish_pure]
  have hfurthest : max (max y.next x.furthest) y.furthest = max x.furthest y.furthest := by omega
  simp only [Except.map, Output.map, Output.reached, Output.new, Output.prepend, hfurthest]

end Attempt

/-! ### Parses that end -/

namespace Parser

variable {n : Nat} {ty : Fin n → Type} {rules : (r : Fin n) → Parser σ τ ty (ty r)}
variable {p : Parser σ τ ty α} {tokens : Array τ} {i : Nat} {s s' s'' : σ}

/-- From the state `s` the parser comes to an outcome, in the state `s'`, if references are
unfolded deep enough. -/
def EndsWith (rules : (r : Fin n) → Parser σ τ ty (ty r)) (p : Parser σ τ ty α) (tokens : Array τ)
    (i : Nat) (s : σ) (o : Outcome α) (s' : σ) : Prop :=
  ∃ depth j', p.eval rules depth tokens i (.new s) = some (o, j') ∧ j'.state = s'

/-- From the state `s` the repetition of the parser matches, in the state `s'`, after so many
attempts of the parser. -/
def RepeatsIn (rules : (r : Fin n) → Parser σ τ ty (ty r)) (p : Parser σ τ ty α) (tokens : Array τ)
    (i : Nat) (s : σ) (attempts : Nat) (y : Output (List α)) (s' : σ) : Prop :=
  ∃ depth j', (p.eval rules depth).counted.star tokens i (.new (s, 0)) = some (.ok y, j') ∧
    j'.state = (s', attempts)

/-- From `i` to the end of the tokens, and in whatever state, every parse ends. -/
def EndsFrom (rules : (r : Fin n) → Parser σ τ ty (ty r)) (p : Parser σ τ ty α) (tokens : Array τ)
    (i : Nat) : Prop :=
  ∀ k, i ≤ k → k ≤ max i tokens.size → ∀ s, ∃ o s', p.EndsWith rules tokens k s o s'

theorem eval_plus (depth : Nat) : p.plus.eval rules depth = (p.eval rules depth).plus := rfl

/-- A parse that ends at a depth ends so at every greater depth, wherever the parser stands and
whatever was printed and constructed before. -/
theorem evalAt_mono {depth depth' : Nat} (hle : depth ≤ depth') (place place' : Place)
    {o : Outcome α} {j j₁ j' : Journal σ}
    (h : p.evalWith (ruleAttempt rules depth) place tokens i j = some (o, j₁))
    (hj : j.state = j'.state) :
    ∃ j₁', p.evalWith (ruleAttempt rules depth') place' tokens i j' = some (o, j₁') ∧
      j₁'.state = j₁.state := by
  obtain ⟨o', j₁', h', ho, hstate⟩ := mirrors_evalAt (Alignment.refl tokens)
    (fun r => (rules r).carries_eq) hle p p.carries_eq place place' rfl hj h
  obtain rfl := Outcome.aligned_eq_iff.1 ho
  exact ⟨j₁', h', hstate.symm⟩

theorem eval_mono {depth depth' : Nat} (hle : depth ≤ depth') {o : Outcome α}
    {j j₁ j' : Journal σ} (h : p.eval rules depth tokens i j = some (o, j₁))
    (hj : j.state = j'.state) :
    ∃ j₁', p.eval rules depth' tokens i j' = some (o, j₁') ∧ j₁'.state = j₁.state :=
  evalAt_mono hle [] [] h hj

namespace EndsWith

theorem unique {o o' : Outcome α} (h : p.EndsWith rules tokens i s o s')
    (h' : p.EndsWith rules tokens i s o' s'') : o = o' ∧ s' = s'' := by
  obtain ⟨depth, j, h, rfl⟩ := h
  obtain ⟨depth', j', h', rfl⟩ := h'
  obtain ⟨j₁, h₁, hs₁⟩ := eval_mono (Nat.le_max_left depth depth') h rfl
  obtain ⟨j₂, h₂, hs₂⟩ := eval_mono (Nat.le_max_right depth depth') h' rfl
  rw [h₁] at h₂
  cases h₂
  exact ⟨rfl, hs₁.symm.trans hs₂⟩

/-- Two parses, the second in the state that the first one leaves, with the depth of the deeper. -/
theorem chain {β : Type} {q : Parser σ τ ty β} {o : Outcome α} {o' : Outcome β} {k : Nat}
    (hp : p.EndsWith rules tokens i s o s') (hq : q.EndsWith rules tokens k s' o' s'') :
    ∃ depth j₁ j', p.eval rules depth tokens i (.new s) = some (o, j₁) ∧
      q.eval rules depth tokens k j₁ = some (o', j') ∧ j'.state = s'' := by
  obtain ⟨depth, j, h, rfl⟩ := hp
  obtain ⟨depth', j', h', rfl⟩ := hq
  obtain ⟨j₁, h₁, hs₁⟩ := eval_mono (Nat.le_max_left depth depth') h rfl
  obtain ⟨j₂, h₂, hs₂⟩ := eval_mono (Nat.le_max_right depth depth') h' hs₁.symm
  exact ⟨_, j₁, j₂, h₁, h₂, hs₂⟩

/-- Where a parse stops and how far it got. -/
theorem within {o : Outcome α} (h : p.EndsWith rules tokens i s o s') :
    Outcome.Within i tokens.size o := by
  obtain ⟨depth, j', h, -⟩ := h
  exact advances_eval rules depth p h

/-- Pure actions leave the state as it was. -/
theorem state_eq (hrules : ∀ r, (rules r).IsPure) (hp : p.IsPure) {o : Outcome α}
    (h : p.EndsWith rules tokens i s o s') : s' = s := by
  obtain ⟨depth, j', h, rfl⟩ := h
  obtain ⟨j₁, h₁, hstate⟩ := readsOnly_evalAt hrules depth hp [] h (.new s)
  change p.eval rules depth tokens i (.new s) = _ at h₁
  rw [h] at h₁
  cases h₁
  exact hstate

theorem star_of_error {e : NoMatch} (h : p.EndsWith rules tokens i s (.error e) s') :
    p.star.EndsWith rules tokens i s (.ok ⟨[], i, e.index⟩) s' := by
  obtain ⟨depth, j', h, hs⟩ := h
  exact ⟨depth, j', Attempt.star_of_error (advances_eval rules depth p) h, hs⟩

theorem star_of_next_eq {x : Output α} (h : p.EndsWith rules tokens i s (.ok x) s')
    (hx : x.next = i) : p.star.EndsWith rules tokens i s (.ok ⟨[x.value], i, x.furthest⟩) s' := by
  obtain ⟨depth, j', h, hs⟩ := h
  exact ⟨depth, j', Attempt.star_of_next_eq (advances_eval rules depth p) h hx, hs⟩

theorem star_of_step {x : Output α} {y : Output (List α)}
    (h : p.EndsWith rules tokens i s (.ok x) s') (hx : x.next ≠ i)
    (hy : p.star.EndsWith rules tokens x.next s' (.ok y) s'') :
    p.star.EndsWith rules tokens i s (.ok (x.prepend y)) s'' := by
  have hlt : i < x.next := Nat.lt_of_le_of_ne h.within.1 (Ne.symm hx)
  obtain ⟨depth, j₁, j', h, hy, hs⟩ := h.chain hy
  exact ⟨depth, j', Attempt.star_of_step (advances_eval rules depth p) h hlt hy, hs⟩

theorem plus_of_ok {x : Output α} {y : Output (List α)}
    (h : p.EndsWith rules tokens i s (.ok x) s')
    (hy : p.star.EndsWith rules tokens x.next s' (.ok y) s'') :
    p.plus.EndsWith rules tokens i s (.ok (x.prepend y)) s'' := by
  obtain ⟨depth, j₁, j', h, hy, hs⟩ := h.chain hy
  exact ⟨depth, j', Attempt.plus_of_ok (advances_eval rules depth p) h hy, hs⟩

/-- With pure actions, a match that stands still is found a second time by `plus`. -/
theorem plus_of_next_eq (hrules : ∀ r, (rules r).IsPure) (hp : p.IsPure) {x : Output α}
    (h : p.EndsWith rules tokens i s (.ok x) s') (hx : x.next = i) :
    p.plus.EndsWith rules tokens i s (.ok ⟨[x.value, x.value], i, x.furthest⟩) s' := by
  obtain rfl := h.state_eq hrules hp
  have hstar := h.star_of_next_eq hx
  rw [show i = x.next from hx.symm] at hstar
  have hplus := h.plus_of_ok hstar
  rwa [Output.prepend, Nat.max_self, hx] at hplus

/-- The attempts that a repetition makes of its part. -/
theorem repeatsIn {y : Output (List α)} (h : p.star.EndsWith rules tokens i s (.ok y) s') :
    ∃ attempts ≤ tokens.size - i + 1, p.RepeatsIn rules tokens i s attempts y s' := by
  obtain ⟨depth, j', h, rfl⟩ := h
  obtain ⟨attempts, hle, hcounted⟩ := Attempt.star_counted h
  exact ⟨attempts, hle, depth, _, hcounted, rfl⟩

end EndsWith

theorem plus_endsWith_error_iff {e : NoMatch} :
    p.plus.EndsWith rules tokens i s (.error e) s' ↔ p.EndsWith rules tokens i s (.error e) s' := by
  simp only [EndsWith, eval_plus, Attempt.plus_eq_error_iff]

/-- With nothing to keep in a state, a run to some depth shows what a parse comes to. -/
theorem EndsWith.of_run {rules : (r : Fin n) → Parser Unit τ ty (ty r)} {p : Parser Unit τ ty α}
    (depth : Nat) {o : Outcome α}
    (h : (p.eval rules depth tokens i (.new ())).map Prod.fst = some o) :
    p.EndsWith rules tokens i () o () := by
  obtain ⟨⟨o, j'⟩, ho, rfl⟩ := Option.map_eq_some_iff.1 h
  exact ⟨depth, j', ho, rfl⟩

/-- Behind a match, parses end as they do from its start. -/
theorem EndsFrom.behind (hends : p.EndsFrom rules tokens i) {x : Output α}
    (h : p.EndsWith rules tokens i s (.ok x) s') : p.EndsFrom rules tokens x.next := by
  have hw := h.within
  simp only [Outcome.within_ok] at hw
  intro k hlo hhi
  exact hends k (by omega) (by omega)

/-- A repetition ends if its part does. The induction is on the number of tokens that are left. -/
theorem EndsFrom.exists_star (hends : p.EndsFrom rules tokens i) (s : σ) :
    ∃ y s', p.star.EndsWith rules tokens i s (.ok y) s' := by
  induction hleft : tokens.size - i using Nat.strong_induction_on generalizing i s with
  | h left ih =>
    obtain ⟨o, s', h⟩ := hends i (Nat.le_refl i) (Nat.le_max_left _ _) s
    obtain e | x := o
    · exact ⟨_, s', h.star_of_error⟩
    · by_cases hx : x.next = i
      · exact ⟨_, s', h.star_of_next_eq hx⟩
      · have hw := h.within
        simp only [Outcome.within_ok] at hw
        have hless : tokens.size - x.next < left := by omega
        obtain ⟨y, s'', hy⟩ := ih _ hless (hends.behind h) s' rfl
        exact ⟨_, s'', h.star_of_step hx hy⟩

/-- **Repetition ends, and is greedy.** Let every parse of `p` from `i` to the end of the tokens
end. Then the repetition of `p` at `i` has exactly one outcome, a match, after at most one attempt
of `p` for every token from `i` on and one more. It is no match at all if `p` fails at `i`; the one
match of `p` if that stands still; and otherwise the match of `p` in front of the repetition behind
it. One or more fails exactly where `p` fails, with the same error. It comes to the same as the
repetition if the first match moves on. If that stands still, it stands in front of the repetition
at `i`, which with pure actions finds it a second time. -/
theorem star_ends_and_unfolds (rules : (r : Fin n) → Parser σ τ ty (ty r)) (p : Parser σ τ ty α)
    (tokens : Array τ) (i : Nat) (hends : p.EndsFrom rules tokens i) (s : σ) :
    (∃ y s', (∀ o s'', p.star.EndsWith rules tokens i s o s'' ↔ o = .ok y ∧ s'' = s') ∧
      ∃ attempts ≤ tokens.size - i + 1, p.RepeatsIn rules tokens i s attempts y s') ∧
    (∀ e s', p.EndsWith rules tokens i s (.error e) s' →
      p.star.EndsWith rules tokens i s (.ok ⟨[], i, e.index⟩) s') ∧
    (∀ x s', p.EndsWith rules tokens i s (.ok x) s' → x.next = i →
      p.star.EndsWith rules tokens i s (.ok ⟨[x.value], i, x.furthest⟩) s') ∧
    (∀ x s', p.EndsWith rules tokens i s (.ok x) s' → x.next ≠ i →
      ∃ y s'', p.star.EndsWith rules tokens x.next s' (.ok y) s'' ∧
        p.star.EndsWith rules tokens i s
          (.ok ⟨x.value :: y.value, y.next, max x.furthest y.furthest⟩) s'') ∧
    (∀ e s', p.plus.EndsWith rules tokens i s (.error e) s' ↔
      p.EndsWith rules tokens i s (.error e) s') ∧
    (∀ x s', p.EndsWith rules tokens i s (.ok x) s' → x.next ≠ i →
      ∀ o s'', p.plus.EndsWith rules tokens i s o s'' ↔ p.star.EndsWith rules tokens i s o s'') ∧
    (∀ x s', p.EndsWith rules tokens i s (.ok x) s' → x.next = i →
      (∃ y s'', p.star.EndsWith rules tokens i s' (.ok y) s'' ∧
        p.plus.EndsWith rules tokens i s
          (.ok ⟨x.value :: y.value, y.next, max x.furthest y.furthest⟩) s'') ∧
      ((∀ r, (rules r).IsPure) → p.IsPure →
        p.plus.EndsWith rules tokens i s (.ok ⟨[x.value, x.value], i, x.furthest⟩) s')) := by
  have hrest : ∀ x s', p.EndsWith rules tokens i s (.ok x) s' →
      ∃ y s'', p.star.EndsWith rules tokens x.next s' (.ok y) s'' :=
    fun x s' h => (hends.behind h).exists_star s'
  refine ⟨?_, fun e s' h => h.star_of_error, fun x s' h hx => h.star_of_next_eq hx, ?_,
    fun e s' => plus_endsWith_error_iff, ?_, ?_⟩
  · obtain ⟨y, s', hstar⟩ := hends.exists_star s
    refine ⟨y, s', fun o s'' => ⟨fun h => h.unique hstar, ?_⟩, hstar.repeatsIn⟩
    rintro ⟨rfl, rfl⟩
    exact hstar
  · intro x s' h hx
    obtain ⟨y, s'', hy⟩ := hrest x s' h
    exact ⟨y, s'', hy, h.star_of_step hx hy⟩
  · intro x s' h hx o s''
    obtain ⟨y, s₁, hy⟩ := hrest x s' h
    have hplus := h.plus_of_ok hy
    have hstar := h.star_of_step hx hy
    constructor
    · intro ho
      obtain ⟨rfl, rfl⟩ := ho.unique hplus
      exact hstar
    · intro ho
      obtain ⟨rfl, rfl⟩ := ho.unique hstar
      exact hplus
  · intro x s' h hx
    refine ⟨?_, fun hrules hp => h.plus_of_next_eq hrules hp hx⟩
    obtain ⟨y, s'', hy⟩ := hrest x s' h
    have hplus := h.plus_of_ok hy
    rw [hx] at hy
    exact ⟨y, s'', hy, hplus⟩

/-- Rows of bracketed groups, of which `()x` has one with a single group and, at index 2, one with
none. The first row moves on, so that zero or more and one or more rows are the same two; the second
stands still, and one or more rows at index 2 are twice that one. -/
theorem star_ends_and_unfolds_bracket_groups :
    (rule 0).EndsFrom bracketGroups #['(', ')', 'x'] 0 ∧
    (rule 0).star.EndsWith bracketGroups #['(', ')', 'x'] 0 () (.ok ⟨[1, 0], 2, 2⟩) () ∧
    (rule 0).plus.EndsWith bracketGroups #['(', ')', 'x'] 0 () (.ok ⟨[1, 0], 2, 2⟩) () ∧
    (rule 0).star.EndsWith bracketGroups #['(', ')', 'x'] 2 () (.ok ⟨[0], 2, 2⟩) () ∧
    (rule 0).plus.EndsWith bracketGroups #['(', ')', 'x'] 2 () (.ok ⟨[0, 0], 2, 2⟩) () := by
  have hends : (rule 0).EndsFrom bracketGroups #['(', ')', 'x'] 0 := by
    intro k _ hk s
    have hparses : ∀ k ≤ 3, (((rule 0).eval bracketGroups 3 #['(', ')', 'x'] k (.new ())).map
        Prod.fst).isSome := by decide +kernel
    obtain ⟨o, ho⟩ := Option.isSome_iff_exists.1 (hparses k hk)
    exact ⟨o, (), .of_run 3 ho⟩
  have hfirst : (rule 0).EndsWith bracketGroups #['(', ')', 'x'] 0 () (.ok ⟨1, 2, 2⟩) () :=
    .of_run 3 (by decide +kernel)
  have hsecond : (rule 0).EndsWith bracketGroups #['(', ')', 'x'] 2 () (.ok ⟨0, 2, 2⟩) () :=
    .of_run 3 (by decide +kernel)
  obtain ⟨-, -, -, hstep, -, hsame, -⟩ :=
    star_ends_and_unfolds bracketGroups (rule 0) #['(', ')', 'x'] 0 hends ()
  obtain ⟨-, -, hstill, -, -, -, htwice⟩ :=
    star_ends_and_unfolds bracketGroups (rule 0) #['(', ')', 'x'] 2 (hends.behind hfirst) ()
  have hlast := hstill _ _ hsecond rfl
  obtain ⟨y, s, hy, hstar⟩ := hstep _ _ hfirst (by decide)
  obtain ⟨hy, -⟩ := hy.unique hlast
  cases hy
  exact ⟨hends, hstar, (hsame _ _ hfirst (by decide) _ _).2 hstar, hlast,
    (htwice _ _ hsecond rfl).2 isPure_bracketGroups (isPure_rule 0)⟩

end Parser

end RegArith
