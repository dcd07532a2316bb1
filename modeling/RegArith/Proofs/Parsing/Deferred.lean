import RegArith.Proofs.Parsing.Equations

/-!
# Actions that can wait

An action changes the state in the middle of an attempt, and what it changed stays changed when
the attempt is given up. A parser could therefore use up state for matches that nobody gets to
see, or use it up twice for one match. This module singles out attempts that do neither.
`Attempt.Defers a f` says that an attempt of `a` comes to the same as reading, without any effect
on the state, and then running the action `f` on what was read. A failure has no action to run, so
it leaves the state alone.

The rules say which operations keep this property. Alternatives and repetitions do, for they go
back only behind failures. A sequence does not in general, as its second part may fail when the
first one has acted already: one of the parts has to be stateless, and if it is the second one, it
must not fail.

Traces print a line for each attempt. Only the state of the journal is looked at here, so tracing
makes no difference.

## Main definitions

* `Acts` — a computation does to the state what an action does
* `conclude` — an action on a result, if there is one
* `Attempt.Defers` — reading first, acting afterwards
* `Attempt.Stateless`, `Attempt.Matches` — nothing to be done afterwards

## Main results

* `Attempt.Defers.alt`, `.star`, `.transform` and their companions
* `Attempt.Defers.find` — all ways to use a parser
-/

namespace RegArith

variable {σ τ α β γ δ : Type}

/-! ### Computations and actions -/

/-- The computation ends; its result, and the state in the journal afterwards, are those of the
action `m`. -/
def Acts (x : StateT (Journal σ) Option γ) (m : StateM σ γ) : Prop :=
  ∀ j, ∃ j', x j = some ((m.run j.state).1, j') ∧ j'.state = (m.run j.state).2

/-- Behind a computation that leaves the state alone, another one starts from the same state. -/
theorem Acts.behind {x : StateT (Journal σ) Option γ} {y : StateT (Journal σ) Option δ}
    {m : StateM σ γ} {m' : StateM σ δ} {u : γ} (hx : Acts x m) (hu : ∀ s, m.run s = (u, s))
    (hy : Acts y m') (j : Journal σ) :
    ∃ j₁ j', x j = some (u, j₁) ∧ y j₁ = some ((m'.run j.state).1, j') ∧
      j'.state = (m'.run j.state).2 := by
  obtain ⟨j₁, hj₁, hstate⟩ := hx j
  rw [hu] at hj₁ hstate
  obtain ⟨j', hj', hstate'⟩ := hy j₁
  rw [hstate] at hj' hstate'
  exact ⟨j₁, j', hj₁, hj', hstate'⟩

/-- Runs an action on a result; a failure passes it by. -/
def conclude (action : γ → StateM σ δ) : Except NoMatch γ → StateM σ (Except NoMatch δ)
  | .error e => pure (.error e)
  | .ok x => Except.ok <$> action x

/-- Runs an action on the value of an output and keeps the positions. -/
def Output.act (action : α → StateM σ β) (x : Output α) : StateM σ (Output β) :=
  (fun v => ⟨v, x.next, x.furthest⟩) <$> action x.value

section Run

variable (s : σ)

@[simp] theorem run_conclude_error (action : γ → StateM σ δ) (e : NoMatch) :
    (conclude action (.error e)).run s = (.error e, s) := rfl

@[simp] theorem run_conclude_ok (action : γ → StateM σ δ) (x : γ) :
    (conclude action (.ok x)).run s = (.ok ((action x).run s).1, ((action x).run s).2) := rfl

@[simp] theorem Output.run_act (action : α → StateM σ β) (x : Output α) :
    (x.act action).run s =
      (⟨((action x.value).run s).1, x.next, x.furthest⟩, ((action x.value).run s).2) := rfl

theorem run_mapM_nil (action : α → StateM σ β) : (List.mapM action []).run s = ([], s) := rfl

theorem run_mapM_cons (action : α → StateM σ β) (v : α) (vs : List α) :
    (List.mapM action (v :: vs)).run s =
      (((action v).run s).1 :: ((vs.mapM action).run ((action v).run s).2).1,
        ((vs.mapM action).run ((action v).run s).2).2) := by
  rw [List.mapM_cons]
  rfl

end Run

theorem mapM_pure_eq_pure : List.mapM (pure : α → StateM σ α) = pure := by
  funext vs
  rw [show (pure : α → StateM σ α) = fun v => pure (id v) from rfl, List.mapM_pure, List.map_id]

namespace Attempt

/-- An attempt comes to the same as reading and then acting on what was read. What is read does
not depend on the state. -/
def Defers (a : Attempt σ τ β) (action : α → StateM σ β) : Prop :=
  ∀ tokens i, ∃ o : Outcome α, Acts (a tokens i) (conclude (Output.act action) o)

/-- The attempt never touches the state. -/
def Stateless (a : Attempt σ τ α) : Prop := Defers a (pure : α → StateM σ α)

/-- The attempt always matches, and never touches the state. -/
def Matches (a : Attempt σ τ α) : Prop := ∀ tokens i, ∃ y, Acts (a tokens i) (pure (.ok y))

theorem Defers.congr {a : Attempt σ τ β} {f g : α → StateM σ β} (h : a.Defers f)
    (hfg : ∀ v, f v = g v) : a.Defers g := funext hfg ▸ h

/-- What is computed before an action may be computed while reading. -/
theorem Defers.of_comp {a : Attempt σ τ γ} {h : α → β} {g : β → StateM σ γ}
    (ha : a.Defers fun v => g (h v)) : a.Defers g := by
  intro tokens i
  obtain ⟨o, ho⟩ := ha tokens i
  refine ⟨o.map (Output.map h), ?_⟩
  cases o <;> exact ho

/-! ### Primitives -/

theorem stateless_of_pure {a : Attempt σ τ α} (h : ∀ tokens i, ∃ o, a tokens i = pure o) :
    a.Stateless := by
  intro tokens i
  obtain ⟨o, ho⟩ := h tokens i
  refine ⟨o, fun j => ⟨j, ?_⟩⟩
  rw [ho]
  cases o <;> exact ⟨rfl, rfl⟩

theorem stateless_satisfy (pred : τ → Bool) : (satisfy pred : Attempt σ τ τ).Stateless :=
  stateless_of_pure fun _ _ => ⟨_, rfl⟩

theorem stateless_nothing : (nothing : Attempt σ τ (Match α)).Stateless :=
  stateless_of_pure fun _ _ => ⟨_, rfl⟩

theorem stateless_never : (never : Attempt σ τ α).Stateless := stateless_of_pure fun _ _ => ⟨_, rfl⟩

/-! ### Operations -/

theorem Defers.transform {a : Attempt σ τ β} {f : α → StateM σ β} (ha : a.Defers f)
    (g : β → StateM σ γ) : (transform a g).Defers fun v => f v >>= g := by
  intro tokens i
  obtain ⟨o, ho⟩ := ha tokens i
  refine ⟨o, fun j => ?_⟩
  obtain ⟨j₁, hj₁, hstate⟩ := ho j
  cases o with
  | error e => exact ⟨j₁, transform_eq_some_iff.2 ⟨_, j₁, hj₁, rfl⟩, hstate⟩
  | ok x =>
    refine ⟨(finish g (.ok ⟨((f x.value).run j.state).1, x.next, x.furthest⟩) j₁).2,
      transform_eq_some_iff.2 ⟨_, j₁, hj₁, Prod.ext ?_ rfl⟩, ?_⟩
    · change _ = Except.ok (Output.map _ _)
      rw [hstate]
      rfl
    · change ((g _).run j₁.state).2 = _
      rw [hstate]
      rfl

theorem Defers.map {a : Attempt σ τ β} {f : α → StateM σ β} (ha : a.Defers f) (g : β → γ) :
    (Attempt.transform a fun v => pure (g v)).Defers fun v => g <$> f v :=
  ha.transform _

theorem Stateless.map {a : Attempt σ τ α} (ha : a.Stateless) (f : α → β) :
    (Attempt.transform a fun v => pure (f v)).Stateless :=
  Defers.of_comp (h := f) ((Defers.map ha f).congr fun _ => rfl)

theorem Matches.map {a : Attempt σ τ α} (ha : a.Matches) (f : α → β) :
    (Attempt.transform a fun v => pure (f v)).Matches := by
  intro tokens i
  obtain ⟨y, hy⟩ := ha tokens i
  refine ⟨y.map f, fun j => ?_⟩
  obtain ⟨j₁, hj₁, hstate⟩ := hy j
  exact ⟨j₁, transform_eq_some_iff.2 ⟨_, j₁, hj₁, by rw [finish_pure]; rfl⟩, hstate⟩

/-! #### Sequences -/

section Seq

variable {a : Attempt σ τ α} {b : Attempt σ τ β}

/-- A stateless part in front. -/
theorem Stateless.seq_defers (ha : a.Stateless) {g : γ → StateM σ β} (hb : b.Defers g) :
    (seq a b).Defers fun v : α × γ => Prod.mk v.1 <$> g v.2 := by
  intro tokens i
  obtain ⟨oa, ha⟩ := ha tokens i
  cases oa with
  | error e =>
    refine ⟨.error e, fun j => ?_⟩
    obtain ⟨j₁, hj₁, hstate⟩ := ha j
    exact ⟨j₁, seq_eq_some_iff.2 (.inl ⟨e, hj₁, rfl⟩), hstate⟩
  | ok x =>
    obtain ⟨ob, hb⟩ := hb tokens x.next
    cases ob with
    | error e =>
      refine ⟨.error (e.furthest ⟨x.furthest⟩), fun j => ?_⟩
      obtain ⟨j₁, j₂, hj₁, hj₂, hstate⟩ := ha.behind (fun _ => rfl) hb j
      exact ⟨j₂, seq_eq_some_iff.2 (.inr (.inl ⟨x, j₁, e, hj₁, hj₂, rfl⟩)), hstate⟩
    | ok y =>
      refine ⟨.ok (((Output.new (x.value, y.value) y.next).reached x.furthest).reached
        y.furthest), fun j => ?_⟩
      obtain ⟨j₁, j₂, hj₁, hj₂, hstate⟩ := ha.behind (fun _ => rfl) hb j
      exact ⟨j₂, seq_eq_some_iff.2 (.inr (.inr ⟨x, j₁, _, hj₁, hj₂, rfl⟩)), hstate⟩

/-- A stateless part behind that always matches. -/
theorem Defers.seq_matches {f : γ → StateM σ α} (ha : a.Defers f) (hb : b.Matches) :
    (seq a b).Defers fun v : γ × β => (·, v.2) <$> f v.1 := by
  intro tokens i
  obtain ⟨oa, ha⟩ := ha tokens i
  cases oa with
  | error e =>
    refine ⟨.error e, fun j => ?_⟩
    obtain ⟨j₁, hj₁, hstate⟩ := ha j
    exact ⟨j₁, seq_eq_some_iff.2 (.inl ⟨e, hj₁, rfl⟩), hstate⟩
  | ok x =>
    obtain ⟨y, hb⟩ := hb tokens x.next
    refine ⟨.ok (((Output.new (x.value, y.value) y.next).reached x.furthest).reached
      y.furthest), fun j => ?_⟩
    obtain ⟨j₁, hj₁, hstate⟩ := ha j
    obtain ⟨j₂, hj₂, hstate'⟩ := hb j₁
    exact ⟨j₂, seq_eq_some_iff.2 (.inr (.inr ⟨_, j₁, y, hj₁, hj₂, rfl⟩)), hstate'.trans hstate⟩

theorem Stateless.seq (ha : a.Stateless) (hb : b.Stateless) : (seq a b).Stateless :=
  (ha.seq_defers hb).congr fun _ => rfl

end Seq

/-! #### Alternatives -/

theorem Defers.alt {a b : Attempt σ τ γ} {f : α → StateM σ γ} {g : β → StateM σ γ}
    (ha : a.Defers f) (hb : b.Defers g) : (alt a b).Defers (Sum.elim f g) := by
  intro tokens i
  obtain ⟨oa, ha⟩ := ha tokens i
  obtain ⟨ob, hb⟩ := hb tokens i
  cases oa with
  | ok x =>
    refine ⟨.ok (x.map .inl), fun j => ?_⟩
    obtain ⟨j₁, hj₁, hstate⟩ := ha j
    exact ⟨j₁, alt_eq_some_iff.2 (.inl ⟨_, hj₁, rfl⟩), hstate⟩
  | error e =>
    cases ob with
    | ok y =>
      refine ⟨.ok ((y.map .inr).reached e.index), fun j => ?_⟩
      obtain ⟨j₁, j₂, hj₁, hj₂, hstate⟩ := ha.behind (fun _ => rfl) hb j
      exact ⟨j₂, alt_eq_some_iff.2 (.inr (.inl ⟨e, j₁, _, hj₁, hj₂, rfl⟩)), hstate⟩
    | error e' =>
      refine ⟨.error (e.furthest e'), fun j => ?_⟩
      obtain ⟨j₁, j₂, hj₁, hj₂, hstate⟩ := ha.behind (fun _ => rfl) hb j
      exact ⟨j₂, alt_eq_some_iff.2 (.inr (.inr ⟨e, j₁, e', hj₁, hj₂, rfl⟩)), hstate⟩

theorem Stateless.alt {a b : Attempt σ τ α} (ha : a.Stateless) (hb : b.Stateless) :
    (alt a b).Stateless := by
  refine Defers.of_comp (h := Sum.elim id id) ((Defers.alt ha hb).congr ?_)
  rintro (v | v) <;> rfl

/-! #### Repetitions -/

/-- The loop of a repetition. What it reads from here on does not depend on what it has read so
far. -/
theorem Defers.starFrom {a : Attempt σ τ β} {f : α → StateM σ β} (ha : a.Defers f)
    (tokens : Array τ) (i furthest : Nat) :
    ∃ y : Output (List α), ∀ (values : List β) (j : Journal σ), ∃ j',
      starFrom a tokens i furthest values j =
        some (⟨values.reverse ++ ((y.value.mapM f).run j.state).1, y.next, y.furthest⟩, j') ∧
      j'.state = ((y.value.mapM f).run j.state).2 := by
  induction hn : tokens.size - i using Nat.strongRecOn generalizing i furthest with
  | ind n ih =>
  obtain ⟨o, ho⟩ := ha tokens i
  cases o with
  | error e =>
    refine ⟨⟨[], i, max i (max furthest e.index)⟩, fun values j => ?_⟩
    obtain ⟨j₁, hj₁, hstate⟩ := ho j
    refine ⟨j₁, ?_, hstate⟩
    rw [Attempt.starFrom, hj₁, run_mapM_nil, List.append_nil]
    rfl
  | ok x =>
    by_cases hx : i < x.next ∧ x.next ≤ tokens.size
    · obtain ⟨y, hy⟩ := ih (tokens.size - x.next) (by omega) x.next (max furthest x.furthest) rfl
      refine ⟨⟨x.value :: y.value, y.next, y.furthest⟩, fun values j => ?_⟩
      obtain ⟨j₁, hj₁, hstate⟩ := ho j
      rw [run_conclude_ok, Output.run_act] at hj₁ hstate
      obtain ⟨j₂, hj₂, hstate'⟩ := hy (((f x.value).run j.state).1 :: values) j₁
      rw [hstate, List.reverse_cons, List.append_assoc, List.singleton_append] at hj₂
      rw [run_mapM_cons, Attempt.starFrom, hj₁]
      refine ⟨j₂, ?_, by rw [hstate', hstate]⟩
      dsimp only
      rw [if_pos hx, hj₂]
    · refine ⟨⟨[x.value], x.next, max x.next (max furthest x.furthest)⟩, fun values j => ?_⟩
      obtain ⟨j₁, hj₁, hstate⟩ := ho j
      rw [run_conclude_ok, Output.run_act] at hj₁ hstate
      rw [run_mapM_cons, run_mapM_nil, Attempt.starFrom, hj₁]
      refine ⟨j₁, ?_, hstate⟩
      dsimp only
      rw [if_neg hx, List.reverse_cons]
      rfl

/-- A repetition always matches, and its items act one after the other. -/
theorem Defers.acts_star {a : Attempt σ τ β} {f : α → StateM σ β} (ha : a.Defers f)
    (tokens : Array τ) (i : Nat) :
    ∃ y, Acts (star a tokens i) (conclude (Output.act (List.mapM f)) (.ok y)) := by
  obtain ⟨y, hy⟩ := ha.starFrom tokens i i
  refine ⟨y, fun j => ?_⟩
  obtain ⟨j₁, hj₁, hstate⟩ := hy [] j
  exact ⟨j₁, by rw [star_eq_map, hj₁]; rfl, hstate⟩

theorem Defers.star {a : Attempt σ τ β} {f : α → StateM σ β} (ha : a.Defers f) :
    (star a).Defers (List.mapM f) := by
  intro tokens i
  obtain ⟨y, hy⟩ := ha.acts_star tokens i
  exact ⟨.ok y, hy⟩

theorem Stateless.star {a : Attempt σ τ α} (ha : a.Stateless) : (star a).Stateless :=
  (Defers.star ha).congr (congrFun mapM_pure_eq_pure)

theorem Stateless.matches_star {a : Attempt σ τ α} (ha : a.Stateless) :
    (Attempt.star a).Matches := by
  intro tokens i
  obtain ⟨y, hy⟩ := Defers.acts_star ha tokens i
  rw [mapM_pure_eq_pure] at hy
  exact ⟨y, hy⟩

theorem Stateless.plus {a : Attempt σ τ α} (ha : a.Stateless) : (plus a).Stateless :=
  (ha.seq ha.star).map fun v => v.1 :: v.2

/-! #### Traces -/

theorem Defers.traced {a : Attempt σ τ β} {f : α → StateM σ β} (ha : a.Defers f)
    (line : Nat → Outcome β → String) : (traced a line).Defers f := by
  intro tokens i
  obtain ⟨o, ho⟩ := ha tokens i
  refine ⟨o, fun j => ?_⟩
  obtain ⟨j₁, hj₁, hstate⟩ := ho j
  exact ⟨j₁.print _, bind_eq_some_iff.2 ⟨_, j₁, hj₁, rfl⟩, hstate⟩

/-! ### Searches -/

/-- Starts that fail leave the state alone. -/
theorem Defers.search {a : Attempt σ τ β} {f : α → StateM σ β} (ha : a.Defers f)
    (tokens : Array τ) (start : Nat) :
    ∃ o : Outcome α, Acts (search a tokens start) (conclude (Output.act f) o) := by
  induction hn : tokens.size - start generalizing start with
  | zero =>
    refine ⟨.error ⟨tokens.size⟩, fun j => ⟨j, ?_, rfl⟩⟩
    rw [Attempt.search, if_neg (by omega)]
    rfl
  | succ n ih =>
    obtain ⟨o, ho⟩ := ha tokens start
    cases o with
    | ok x =>
      refine ⟨.ok x, fun j => ?_⟩
      obtain ⟨j₁, hj₁, hstate⟩ := ho j
      refine ⟨j₁, ?_, hstate⟩
      rw [Attempt.search, if_pos (by omega), hj₁]
      rfl
    | error e =>
      obtain ⟨o, ho'⟩ := ih (start + 1) (by omega)
      refine ⟨o, fun j => ?_⟩
      obtain ⟨j₁, j₂, hj₁, hj₂, hstate⟩ := ho.behind (run_conclude_error · _ e) ho' j
      refine ⟨j₂, ?_, hstate⟩
      rw [Attempt.search, if_pos (by omega), hj₁]
      exact hj₂

theorem Defers.searchAllFrom {a : Attempt σ τ β} {f : α → StateM σ β} (ha : a.Defers f)
    (tokens : Array τ) (start : Nat) :
    ∃ xs : List (Output α), ∀ (found : List (Output β)) (j : Journal σ), ∃ j',
      searchAllFrom a tokens start found j =
        some (found.reverse ++ ((xs.mapM (Output.act f)).run j.state).1, j') ∧
      j'.state = ((xs.mapM (Output.act f)).run j.state).2 := by
  induction hn : tokens.size - start using Nat.strongRecOn generalizing start with
  | ind n ih =>
  by_cases hlt : start < tokens.size
  · obtain ⟨o, ho⟩ := ha tokens start
    cases o with
    | ok x =>
      obtain ⟨xs, hxs⟩ := ih (tokens.size - max x.next (start + 1)) (by omega)
        (max x.next (start + 1)) rfl
      refine ⟨x :: xs, fun found j => ?_⟩
      obtain ⟨j₁, hj₁, hstate⟩ := ho j
      rw [run_conclude_ok] at hj₁ hstate
      obtain ⟨j₂, hj₂, hstate'⟩ := hxs (((x.act f).run j.state).1 :: found) j₁
      rw [hstate, List.reverse_cons, List.append_assoc, List.singleton_append] at hj₂
      rw [run_mapM_cons, Attempt.searchAllFrom, if_pos hlt, hj₁]
      exact ⟨j₂, hj₂, by rw [hstate', hstate]⟩
    | error e =>
      obtain ⟨xs, hxs⟩ := ih (tokens.size - (start + 1)) (by omega) (start + 1) rfl
      refine ⟨xs, fun found j => ?_⟩
      obtain ⟨j₁, hj₁, hstate⟩ := ho j
      rw [run_conclude_error] at hj₁ hstate
      obtain ⟨j₂, hj₂, hstate'⟩ := hxs found j₁
      rw [hstate] at hj₂ hstate'
      rw [Attempt.searchAllFrom, if_pos hlt, hj₁]
      exact ⟨j₂, hj₂, hstate'⟩
  · refine ⟨[], fun found j => ⟨j, ?_, rfl⟩⟩
    rw [Attempt.searchAllFrom, if_neg hlt, run_mapM_nil, List.append_nil]

/-- There is something among the matches exactly if something was read. -/
theorem Defers.searchAll {a : Attempt σ τ β} {f : α → StateM σ β} (ha : a.Defers f)
    (tokens : Array τ) :
    ∃ found, Acts (searchAll a tokens) (conclude (List.mapM (Output.act f)) found) := by
  obtain ⟨xs, hxs⟩ := ha.searchAllFrom tokens 0
  cases xs with
  | nil =>
    refine ⟨.error ⟨tokens.size⟩, fun j => ?_⟩
    obtain ⟨j₁, hj₁, hstate⟩ := hxs [] j
    exact ⟨j₁, bind_eq_some_iff.2 ⟨_, j₁, hj₁, rfl⟩, hstate⟩
  | cons x xs =>
    refine ⟨.ok (x :: xs), fun j => ?_⟩
    obtain ⟨j₁, hj₁, hstate⟩ := hxs [] j
    refine ⟨j₁, bind_eq_some_iff.2 ⟨_, j₁, hj₁, ?_⟩, hstate⟩
    rw [run_conclude_ok, run_mapM_cons]
    rfl

/-- **Ways to use a parser.** In every mode, the matches that are found act in the order in which
they are found, and no other attempt acts. -/
theorem Defers.find {a : Attempt σ τ β} {f : α → StateM σ β} (ha : a.Defers f) (mode : Mode)
    (tokens : Array τ) :
    ∃ found, Acts (a.find mode tokens) (conclude (List.mapM (Output.act f)) found) := by
  have hone {x : StateT (Journal σ) Option (Outcome β)} {o : Outcome α}
      (h : Acts x (conclude (Output.act f) o)) :
      Acts (do return (← x).map ([·])) (conclude (List.mapM (Output.act f)) (o.map ([·]))) := by
    intro j
    obtain ⟨j₁, hj₁, hstate⟩ := h j
    refine ⟨j₁, bind_eq_some_iff.2 ⟨_, j₁, hj₁, ?_⟩, ?_⟩
    · cases o <;> rfl
    · cases o <;> exact hstate
  cases mode with
  | parse index =>
    obtain ⟨o, ho⟩ := ha tokens index
    exact ⟨_, hone ho⟩
  | search start =>
    obtain ⟨o, ho⟩ := ha.search tokens start
    exact ⟨_, hone ho⟩
  | searchAll => exact ha.searchAll tokens

end Attempt

/-! ### Parsers without rules -/

namespace Parser

/-- No attempt of the parser touches the state. -/
def Stateless (p : Parser σ τ NoRules α) : Prop := p.closed.Stateless

theorem stateless_satisfy (pred : τ → Bool) : (satisfy pred : Parser σ τ NoRules τ).Stateless :=
  Attempt.stateless_satisfy pred

theorem stateless_nothing : (nothing : Parser σ τ NoRules (Match α)).Stateless :=
  Attempt.stateless_nothing

theorem stateless_never : (never : Parser σ τ NoRules α).Stateless := Attempt.stateless_never

namespace Stateless

variable {p : Parser σ τ NoRules α}

theorem seq {q : Parser σ τ NoRules β} (hp : p.Stateless) (hq : q.Stateless) :
    (p.seq q).Stateless := by
  rw [Stateless, closed_seq]
  exact Attempt.Stateless.seq hp hq

theorem alt {q : Parser σ τ NoRules α} (hp : p.Stateless) (hq : q.Stateless) :
    (p.alt q).Stateless := by
  rw [Stateless, closed_alt]
  exact Attempt.Stateless.alt hp hq

theorem map (hp : p.Stateless) (f : α → β) : (p.map f).Stateless := Attempt.Stateless.map hp f

theorem star (hp : p.Stateless) : p.star.Stateless := Attempt.Stateless.star hp

theorem plus (hp : p.Stateless) : p.plus.Stateless := Attempt.Stateless.plus hp

end Stateless

theorem stateless_seqList {ps : List (Parser σ τ NoRules (Match α))} (h : ∀ p ∈ ps, p.Stateless) :
    (seqList ps).Stateless := by
  induction ps with
  | nil => exact stateless_nothing.map _
  | cons p ps ih =>
    rw [List.forall_mem_cons] at h
    exact (h.1.seq (ih h.2)).map _

theorem stateless_altList {ps : List (Parser σ τ NoRules α)} (h : ∀ p ∈ ps, p.Stateless) :
    (altList ps).Stateless := by
  induction ps with
  | nil => exact stateless_never
  | cons p ps ih =>
    rw [List.forall_mem_cons] at h
    exact h.1.alt (ih h.2)

theorem stateless_word (text : String) : (word text : Parser σ Char NoRules String).Stateless :=
  (stateless_seqList (List.forall_mem_map.2 fun _ _ => (stateless_satisfy _).map _)).map _

theorem stateless_oneOf (text : String) : (oneOf text : Parser σ Char NoRules Char).Stateless :=
  stateless_altList (List.forall_mem_map.2 fun _ _ => stateless_satisfy _)

/-- A search comes to the action that its meaning comes to. -/
theorem find_of_acts {p : Parser σ τ NoRules α} {mode : Mode} {tokens : Array τ}
    {m : StateM σ (Except NoMatch (List (Output α)))} (h : Acts (p.closed.find mode tokens) m)
    (j : Journal σ) :
    ∃ j', p.find mode tokens j = ((m.run j.state).1, j') ∧ j'.state = (m.run j.state).2 := by
  obtain ⟨j', hj', hstate⟩ := h j
  exact ⟨j', Option.some.inj ((Option.some_get _).trans hj'), hstate⟩

end Parser

end RegArith
