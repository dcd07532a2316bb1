import RegArith.Proofs.Parsing.Position

/-!
# Attempts on inputs that correspond

An attempt sees its tokens through indices, and it compares indices only with each other and with
the end of the tokens. So if the indices of two inputs are related in a way that tokens, the end,
neighbours and the order respect, what happens on one input can be followed on the other, from
related indices to related indices. Moving an input behind other tokens is such a relation, and so
is staying within a part of one input.

The relation between two runs is stated in one direction: where the first ends, the second ends as
well. It leaves room for what the runs may differ in otherwise. Their parsers may stand at different
places, their journals may hold different logs and different constructed rules, references may be
unfolded deeper in the second run, and their states need not be equal but only related by some `T`
that the actions carry on. Equal states are related for every parser; for a parser with pure
actions any relation will do.

## Main definitions

* `Simulated` — a computation that ends whenever another one does, with a related result
* `Alignment` — a relation between the indices of two inputs
* `Attempt.Mirrors` — an attempt followed along an alignment
* `Parser.AllActions`, `Parser.IsPure` — what the actions in a parser have in common

## Main results

* `Attempt.Mirrors.seq`, `.alt`, `.star` and their companions — one for each operation
* `Parser.mirrors_evalAt`, `mirrors_eval` — every parser is followed along every alignment
-/

namespace RegArith

variable {σ τ α β γ δ : Type}

@[simp] theorem Journal.state_visit (j : Journal σ) (place : Place) :
    (j.visit place).state = j.state := by
  unfold Journal.visit
  split <;> rfl

/-! ### Computations -/

/-- Whenever `x` ends, `y` ends from every state related to that of `x`, with a related result and
in a related state. -/
def Simulated (T : σ → σ → Prop) (R : γ → δ → Prop) (x : StateT (Journal σ) Option γ)
    (y : StateT (Journal σ) Option δ) : Prop :=
  ∀ ⦃j j' : Journal σ⦄, T j.state j'.state → ∀ ⦃u j₁⦄, x j = some (u, j₁) →
    ∃ v j₁', y j' = some (v, j₁') ∧ R u v ∧ T j₁.state j₁'.state

namespace Simulated

variable {T : σ → σ → Prop} {R : γ → δ → Prop}

theorem pure {u : γ} {v : δ} (h : R u v) :
    Simulated T R (Pure.pure u : StateT (Journal σ) Option γ) (Pure.pure v) := by
  intro j j' hj u' j₁ hu
  obtain ⟨rfl, rfl⟩ := Attempt.pure_eq_some_iff.1 hu
  exact ⟨v, j', rfl, h, hj⟩

theorem bind {α β : Type} {S : α → β → Prop} {x : StateT (Journal σ) Option γ}
    {y : StateT (Journal σ) Option δ} {f : γ → StateT (Journal σ) Option α}
    {g : δ → StateT (Journal σ) Option β} (hxy : Simulated T R x y)
    (hfg : ∀ u v, R u v → Simulated T S (f u) (g v)) : Simulated T S (x >>= f) (y >>= g) := by
  intro j j' hj w j₂ h
  obtain ⟨u, j₁, h₁, h₂⟩ := Attempt.bind_eq_some_iff.1 h
  obtain ⟨v, j₁', h₁', huv, hj₁⟩ := hxy hj h₁
  obtain ⟨w', j₂', h₂', hw, hj₂⟩ := hfg u v huv hj₁ h₂
  exact ⟨w', j₂', Attempt.bind_eq_some_iff.2 ⟨v, j₁', h₁', h₂'⟩, hw, hj₂⟩

theorem mono {S : γ → δ → Prop} {x : StateT (Journal σ) Option γ}
    {y : StateT (Journal σ) Option δ} (hxy : Simulated T R x y) (hRS : ∀ u v, R u v → S u v) :
    Simulated T S x y := by
  intro j j' hj u j₁ hx
  obtain ⟨v, j₁', hy, huv, hj₁⟩ := hxy hj hx
  exact ⟨v, j₁', hy, hRS u v huv, hj₁⟩

/-- Two computations that simulate each other end alike, or neither of them ends. -/
theorem map_eq {x : StateT (Journal σ) Option γ} {y : StateT (Journal σ) Option δ} {f : γ → δ}
    {R : δ → γ → Prop} (hxy : Simulated Eq (fun u v => v = f u) x y) (hyx : Simulated Eq R y x)
    {j j' : Journal σ} (hj : j.state = j'.state) :
    (y j').map (fun r => (r.1, r.2.state)) = (x j).map fun r => (f r.1, r.2.state) := by
  cases hx : x j with
  | some r =>
    obtain ⟨v, j₁', hy, hv, hstate⟩ := hxy hj hx
    rw [hy, Option.map_some, Option.map_some, hv, hstate]
  | none =>
    cases hy : y j' with
    | none => rfl
    | some r =>
      obtain ⟨u, j₁, hx', -⟩ := hyx hj.symm hy
      rw [hx] at hx'
      cases hx'

end Simulated

/-! ### Indices -/

/-- The same value, at related indices. -/
structure Output.Aligned (P : Nat → Nat → Prop) (x x' : Output α) : Prop where
  value : x.value = x'.value
  next : P x.next x'.next
  furthest : P x.furthest x'.furthest

/-- Two matches with the same value, or two failures, at related indices. -/
inductive Outcome.Aligned (P : Nat → Nat → Prop) : Outcome α → Outcome α → Prop
  | ok {x x' : Output α} (h : x.Aligned P x') : Aligned P (.ok x) (.ok x')
  | error {e e' : NoMatch} (h : P e.index e'.index) : Aligned P (.error e) (.error e')

/-- A relation between the indices of two inputs: related indices hold the same token or none, are
both the end or neither, have related successors within the tokens, and keep their order. -/
structure Alignment (tokens tokens' : Array τ) (P : Nat → Nat → Prop) : Prop where
  get : ∀ ⦃i i'⦄, P i i' → tokens[i]? = tokens'[i']?
  atEnd : ∀ ⦃i i'⦄, P i i' → (i = tokens.size ↔ i' = tokens'.size)
  succ : ∀ ⦃i i'⦄, P i i' → i < tokens.size → P (i + 1) (i' + 1)
  lt : ∀ ⦃i i' k k'⦄, P i i' → P k k' → (i < k ↔ i' < k')

namespace Alignment

variable {tokens tokens' : Array τ} {P : Nat → Nat → Prop}

theorem max (h : Alignment tokens tokens' P) {i i' k k' : Nat} (hi : P i i') (hk : P k k') :
    P (Max.max i k) (Max.max i' k') := by
  have hlt := h.lt hi hk
  by_cases hik : i < k
  · rwa [Nat.max_eq_right (by omega), Nat.max_eq_right (by omega)]
  · rwa [Nat.max_eq_left (by omega), Nat.max_eq_left (by omega)]

theorem symm (h : Alignment tokens tokens' P) : Alignment tokens' tokens fun i' i => P i i' where
  get _ _ hi := (h.get hi).symm
  atEnd _ _ hi := (h.atEnd hi).symm
  succ i' i hi hlt := by
    refine h.succ hi ?_
    have hget := h.get hi
    rw [Array.getElem?_eq_getElem hlt] at hget
    exact (Array.getElem?_eq_some_iff.1 hget).1
  lt _ _ _ _ hi hk := (h.lt hi hk).symm

theorem refl (tokens : Array τ) : Alignment tokens tokens Eq where
  get _ _ hi := by rw [hi]
  atEnd _ _ hi := by rw [hi]
  succ _ _ hi _ := by rw [hi]
  lt _ _ _ _ hi hk := by rw [hi, hk]

/-- Within one input, from an index on and up to its end. -/
theorem window (lo : Nat) {hi : Nat} (h : tokens.size ≤ hi) :
    Alignment tokens tokens fun i i' => i = i' ∧ lo ≤ i ∧ i ≤ hi where
  get _ _ hi := by rw [hi.1]
  atEnd _ _ hi := by rw [hi.1]
  succ _ _ hi hlt := by omega
  lt _ _ _ _ hi hk := by rw [hi.1, hk.1]

end Alignment

theorem Outcome.aligned_eq_iff {o o' : Outcome α} : Outcome.Aligned Eq o o' ↔ o = o' := by
  constructor
  · rintro (⟨hvalue, hnext, hfurthest⟩ | h)
    · rename_i x x'
      obtain ⟨v, n, m⟩ := x
      cases hvalue
      cases hnext
      cases hfurthest
      rfl
    · rename_i e e'
      obtain ⟨k⟩ := e
      cases h
      rfl
  · rintro rfl
    cases o with
    | ok x => exact .ok ⟨rfl, rfl, rfl⟩
    | error e => exact .error rfl

/-! ### The operations -/

/-- The action takes related states to related states, and gives the same value in both. -/
def Carries (T : σ → σ → Prop) (action : α → StateM σ β) : Prop :=
  ∀ v s s', T s s' → ((action v).run s).1 = ((action v).run s').1 ∧
    T ((action v).run s).2 ((action v).run s').2

namespace Attempt

/-- Along the alignment `P`, the attempt `a` on `tokens` is followed by `a'` on `tokens'`. -/
def Mirrors (T : σ → σ → Prop) (P : Nat → Nat → Prop) (tokens tokens' : Array τ)
    (a a' : Attempt σ τ α) : Prop :=
  ∀ ⦃i i'⦄, P i i' → Simulated T (Outcome.Aligned P) (a tokens i) (a' tokens' i')

variable {T : σ → σ → Prop} {P : Nat → Nat → Prop} {tokens tokens' : Array τ}

theorem mirrors_satisfy (h : Alignment tokens tokens' P) (pred : τ → Bool) :
    Mirrors T P tokens tokens' (satisfy pred) (satisfy pred) := by
  intro i i' hi
  refine Simulated.pure ?_
  rw [← h.get hi]
  cases ht : tokens[i]? with
  | none => exact .error hi
  | some token =>
    obtain ⟨hlt, -⟩ := Array.getElem?_eq_some_iff.1 ht
    dsimp only
    split
    · exact .ok ⟨rfl, h.succ hi hlt, h.succ hi hlt⟩
    · exact .error hi

theorem mirrors_nothing :
    Mirrors T P tokens tokens' (nothing : Attempt σ τ (Match α)) nothing :=
  fun _ _ hi => Simulated.pure (.ok ⟨rfl, hi, hi⟩)

theorem mirrors_never : Mirrors T P tokens tokens' (never : Attempt σ τ α) never :=
  fun _ _ hi => Simulated.pure (.error hi)

theorem mirrors_endOfInput (h : Alignment tokens tokens' P) :
    Mirrors T P tokens tokens' (endOfInput : Attempt σ τ (Match α)) endOfInput := by
  intro i i' hi
  refine Simulated.pure ?_
  have hend := h.atEnd hi
  by_cases hsize : i = tokens.size
  · rw [if_pos hsize, if_pos (hend.1 hsize)]
    exact .ok ⟨rfl, hi, hi⟩
  · rw [if_neg hsize, if_neg (fun hsize' => hsize (hend.2 hsize'))]
    exact .error hi

namespace Mirrors

variable {a a' : Attempt σ τ α} {b b' : Attempt σ τ β}

theorem seq (h : Alignment tokens tokens' P) (ha : Mirrors T P tokens tokens' a a')
    (hb : Mirrors T P tokens tokens' b b') :
    Mirrors T P tokens tokens' (seq a b) (seq a' b') := by
  intro i i' hi
  refine (ha hi).bind ?_
  rintro _ _ (⟨hx⟩ | ⟨he⟩)
  · refine (hb hx.next).bind ?_
    rintro _ _ (⟨hy⟩ | ⟨he⟩)
    · exact Simulated.pure (.ok ⟨Prod.ext hx.value hy.value, hy.next,
        h.max (h.max hy.next hx.furthest) hy.furthest⟩)
    · refine Simulated.pure (.error ?_)
      rw [NoMatch.index_furthest, NoMatch.index_furthest]
      exact h.max he hx.furthest
  · exact Simulated.pure (.error he)

theorem alt {b b' : Attempt σ τ α} (h : Alignment tokens tokens' P)
    (ha : Mirrors T P tokens tokens' a a') (hb : Mirrors T P tokens tokens' b b') :
    Mirrors T P tokens tokens' (alt a b) (alt a' b') := by
  intro i i' hi
  refine (ha hi).bind ?_
  rintro _ _ (⟨hx⟩ | ⟨he⟩)
  · exact Simulated.pure (.ok hx)
  · refine (hb hi).bind ?_
    rintro _ _ (⟨hy⟩ | ⟨hf⟩)
    · exact Simulated.pure (.ok ⟨hy.value, hy.next, h.max hy.furthest he⟩)
    · refine Simulated.pure (.error ?_)
      rw [NoMatch.index_furthest, NoMatch.index_furthest]
      exact h.max he hf

theorem transform (ha : Mirrors T P tokens tokens' a a') {action : α → StateM σ β}
    (haction : Carries T action) :
    Mirrors T P tokens tokens' (transform a action) (transform a' action) := by
  intro i i' hi j j' hj o j₁ h
  obtain ⟨o₁, j₂, h₁, h₂⟩ := transform_eq_some_iff.1 h
  obtain ⟨o₁', j₂', h₁', ho, hj₂⟩ := ha hi hj h₁
  refine ⟨_, _, transform_eq_some_iff.2 ⟨o₁', j₂', h₁', rfl⟩, ?_⟩
  obtain ⟨hx⟩ | ⟨he⟩ := ho
  · rename_i x x'
    obtain ⟨hvalue, hstate⟩ := haction x.value _ _ hj₂
    cases h₂
    rw [hx.value] at hvalue hstate ⊢
    exact ⟨.ok ⟨hvalue, hx.next, hx.furthest⟩, hstate⟩
  · cases h₂
    exact ⟨.error he, hj₂⟩

/-- The loop of a repetition. Both loops go on after the same matches, because a match consumes on
one side exactly if it does on the other. -/
theorem starFrom (h : Alignment tokens tokens' P) (hadv : a.Advances) (hadv' : a'.Advances)
    (ha : Mirrors T P tokens tokens' a a') {i i' far far' : Nat} (hi : P i i') (hfar : P far far')
    {values : List α} {j j' j₁ : Journal σ} (hj : T j.state j'.state) {y : Output (List α)}
    (hy : starFrom a tokens i far values j = some (y, j₁)) :
    ∃ y' j₁', Attempt.starFrom a' tokens' i' far' values j' = some (y', j₁') ∧ y.Aligned P y' ∧
      T j₁.state j₁'.state := by
  fun_induction Attempt.starFrom a tokens i far values j generalizing i' far' j' with
  | case1 => cases hy
  | case2 i far values j e j₂ h₁ =>
    cases hy
    obtain ⟨_, j₂', h₁', he, hj₂⟩ := ha hi hj h₁
    obtain ⟨-⟩ | ⟨he⟩ := he
    rename_i e'
    have hstop : Attempt.starFrom a' tokens' i' far' values j' =
        some ((Output.new values.reverse i').reached (max far' e'.index), j₂') := by
      rw [Attempt.starFrom, h₁']
    exact ⟨_, j₂', hstop, ⟨rfl, hi, h.max hi (h.max hfar he)⟩, hj₂⟩
  | case3 i far values j x j₂ h₁ hx ih =>
    obtain ⟨_, j₂', h₁', hx', hj₂⟩ := ha hi hj h₁
    obtain ⟨hx'⟩ | ⟨-⟩ := hx'
    rename_i x'
    have hlt := (h.lt hi hx'.next).1 hx.1
    have hw := hadv' h₁'
    simp only [Outcome.within_ok] at hw
    obtain ⟨y', j₁', hy', hyy', hj₁⟩ := ih hx'.next (h.max hfar hx'.furthest) hj₂ hy
    refine ⟨y', j₁', ?_, hyy', hj₁⟩
    rw [Attempt.starFrom, h₁']
    simp only [show i' < x'.next ∧ x'.next ≤ tokens'.size by omega, and_self, ↓reduceIte]
    rw [← hx'.value, hy']
  | case4 i far values j x j₂ h₁ hx =>
    cases hy
    obtain ⟨_, j₂', h₁', hx', hj₂⟩ := ha hi hj h₁
    obtain ⟨hx'⟩ | ⟨-⟩ := hx'
    rename_i x'
    have hlt := h.lt hi hx'.next
    have hw := hadv h₁
    simp only [Outcome.within_ok] at hw
    have hstop : Attempt.starFrom a' tokens' i' far' values j' =
        some ((Output.new (x'.value :: values).reverse x'.next).reached
          (max far' x'.furthest), j₂') := by
      rw [Attempt.starFrom, h₁']
      simp only [show ¬(i' < x'.next ∧ x'.next ≤ tokens'.size) by omega, ↓reduceIte]
    refine ⟨_, j₂', hstop, ⟨?_, hx'.next, h.max hx'.next (h.max hfar hx'.furthest)⟩, hj₂⟩
    simp only [Output.value_reached, Output.value_new, hx'.value]

theorem star (h : Alignment tokens tokens' P) (hadv : a.Advances) (hadv' : a'.Advances)
    (ha : Mirrors T P tokens tokens' a a') :
    Mirrors T P tokens tokens' (star a) (star a') := by
  intro i i' hi j j' hj o j₁ ho
  rw [star_eq_map, Option.map_eq_some_iff] at ho
  obtain ⟨⟨y, j₂⟩, hy, hyo⟩ := ho
  cases hyo
  obtain ⟨y', j₁', hy', hyy', hj₁⟩ := ha.starFrom h hadv hadv' hi hi hj hy
  exact ⟨.ok y', j₁', by rw [star_eq_map, hy']; rfl, .ok hyy', hj₁⟩

theorem plus (h : Alignment tokens tokens' P) (hadv : a.Advances) (hadv' : a'.Advances)
    (ha : Mirrors T P tokens tokens' a a') :
    Mirrors T P tokens tokens' (plus a) (plus a') :=
  (ha.seq h (ha.star h hadv hadv')).transform fun _ _ _ hs => ⟨rfl, hs⟩

theorem guard (ha : Mirrors T P tokens tokens' a a') (pred : α → Bool) :
    Mirrors T P tokens tokens' (guard a pred) (guard a' pred) := by
  intro i i' hi
  refine (ha hi).bind ?_
  rintro _ _ (⟨hx⟩ | ⟨he⟩)
  · rename_i x x'
    refine Simulated.pure ?_
    rw [hx.value]
    cases pred x'.value
    · exact .error hi
    · exact .ok hx
  · exact Simulated.pure (.error he)

theorem diff (ha : Mirrors T P tokens tokens' a a') (hb : Mirrors T P tokens tokens' b b') :
    Mirrors T P tokens tokens' (diff a b) (diff a' b') := by
  intro i i' hi
  refine (ha hi).bind ?_
  rintro _ _ (⟨hx⟩ | ⟨he⟩)
  · refine (hb hi).bind ?_
    rintro _ _ (⟨-⟩ | ⟨-⟩)
    · exact Simulated.pure (.error hi)
    · exact Simulated.pure (.ok hx)
  · exact Simulated.pure (.error he)

theorem followedBy (ha : Mirrors T P tokens tokens' a a') (hb : Mirrors T P tokens tokens' b b') :
    Mirrors T P tokens tokens' (followedBy a b) (followedBy a' b') := by
  intro i i' hi
  refine (ha hi).bind ?_
  rintro _ _ (⟨hx⟩ | ⟨he⟩)
  · refine (hb hx.next).bind ?_
    rintro _ _ (⟨-⟩ | ⟨he⟩)
    · exact Simulated.pure (.ok hx)
    · exact Simulated.pure (.error he)
  · exact Simulated.pure (.error he)

theorem notFollowedBy (ha : Mirrors T P tokens tokens' a a')
    (hb : Mirrors T P tokens tokens' b b') :
    Mirrors T P tokens tokens' (notFollowedBy a b) (notFollowedBy a' b') := by
  intro i i' hi
  refine (ha hi).bind ?_
  rintro _ _ (⟨hx⟩ | ⟨he⟩)
  · refine (hb hx.next).bind ?_
    rintro _ _ (⟨-⟩ | ⟨-⟩)
    · exact Simulated.pure (.error hi)
    · exact Simulated.pure (.ok hx)
  · exact Simulated.pure (.error he)

theorem traced (ha : Mirrors T P tokens tokens' a a') (line : Nat → Outcome α → String) :
    Mirrors T P tokens tokens' (traced a line) (traced a' line) := by
  intro i i' hi j j' hj o j₁ h
  obtain ⟨o₁, j₂, h₁, h₂⟩ := bind_eq_some_iff.1 h
  cases h₂
  obtain ⟨o', j₂', h₁', ho, hj₂⟩ := ha hi hj h₁
  exact ⟨o', _, bind_eq_some_iff.2 ⟨o', j₂', h₁', rfl⟩, ho, hj₂⟩

/-- Starts are tried in step, and the searches end together. -/
theorem search (h : Alignment tokens tokens' P) (hend : P tokens.size tokens'.size)
    (ha : Mirrors T P tokens tokens' a a') :
    Mirrors T P tokens tokens' (Attempt.search a) (Attempt.search a') := by
  intro i i' hi j j' hj o j₁ ho
  have hlt := h.lt hi hend
  fun_induction Attempt.search a tokens i j generalizing i' j' with
  | case1 => cases ho
  | case2 i j hsize x j₂ h₁ =>
    cases ho
    obtain ⟨_, j₂', h₁', hx, hj₂⟩ := ha hi hj h₁
    obtain ⟨hx⟩ | ⟨-⟩ := hx
    refine ⟨_, j₂', ?_, .ok hx, hj₂⟩
    rw [Attempt.search, if_pos (hlt.1 hsize), h₁']
  | case3 i j hsize e j₂ h₁ ih =>
    obtain ⟨_, j₂', h₁', he, hj₂⟩ := ha hi hj h₁
    obtain ⟨-⟩ | ⟨-⟩ := he
    have hi' := h.succ hi hsize
    rw [Attempt.search, if_pos (hlt.1 hsize), h₁']
    exact ih hi' hj₂ ho (h.lt hi' hend)
  | case4 i j hsize =>
    cases ho
    refine ⟨.error ⟨tokens'.size⟩, j', ?_, .error hend, hj⟩
    rw [Attempt.search, if_neg (fun hsize' => hsize (hlt.2 hsize'))]

end Mirrors

end Attempt

/-! ### Parsers -/

namespace Parser

variable {n : Nat} {ty : Fin n → Type}

/-- Every action in the parser has the property. -/
def AllActions (C : (α β : Type) → (α → StateM σ β) → Prop) :
    {α : Type} → Parser σ τ ty α → Prop
  | _, satisfy _ | _, nothing | _, never | _, endOfInput | _, rule _ => True
  | _, seq p q => p.AllActions C ∧ q.AllActions C
  | _, alt p q => p.AllActions C ∧ q.AllActions C
  | _, transform p action => p.AllActions C ∧ C _ _ action
  | _, star p => p.AllActions C
  | _, plus p => p.AllActions C
  | _, guard p _ => p.AllActions C
  | _, diff p q => p.AllActions C ∧ q.AllActions C
  | _, followedBy p q => p.AllActions C ∧ q.AllActions C
  | _, notFollowedBy p q => p.AllActions C ∧ q.AllActions C
  | _, trace p _ _ => p.AllActions C

theorem AllActions.mono {C D : (α β : Type) → (α → StateM σ β) → Prop}
    (hCD : ∀ α β action, C α β action → D α β action) {p : Parser σ τ ty α}
    (hp : p.AllActions C) : p.AllActions D := by
  induction p with
  | satisfy | nothing | never | endOfInput | rule => trivial
  | seq p q ihp ihq | alt p q ihp ihq | diff p q ihp ihq | followedBy p q ihp ihq
  | notFollowedBy p q ihp ihq => exact ⟨ihp hp.1, ihq hp.2⟩
  | transform p action ih => exact ⟨ih hp.1, hCD _ _ _ hp.2⟩
  | star p ih | plus p ih | guard p pred ih | trace p name description ih => exact ih hp

theorem allActions_of_forall {C : (α β : Type) → (α → StateM σ β) → Prop}
    (hC : ∀ α β action, C α β action) (p : Parser σ τ ty α) : p.AllActions C := by
  induction p with
  | satisfy | nothing | never | endOfInput | rule => trivial
  | seq p q ihp ihq | alt p q ihp ihq | diff p q ihp ihq | followedBy p q ihp ihq
  | notFollowedBy p q ihp ihq => exact ⟨ihp, ihq⟩
  | transform p action ih => exact ⟨ih, hC _ _ action⟩
  | star p ih | plus p ih | guard p pred ih | trace p name description ih => exact ih

/-- Every action in the parser is a function of the value that was read. -/
def IsPure (p : Parser σ τ ty α) : Prop :=
  p.AllActions fun α β action => ∃ f : α → β, ∀ v, action v = pure (f v)

theorem isPure_rule (r : Fin n) : (rule r : Parser σ τ ty (ty r)).IsPure := trivial

theorem carries_eq (p : Parser σ τ ty α) : p.AllActions fun _ _ action => Carries Eq action :=
  allActions_of_forall (fun _ _ _ _ _ _ hs => by rw [hs]; exact ⟨rfl, rfl⟩) p

theorem IsPure.carries {p : Parser σ τ ty α} (hp : p.IsPure) (T : σ → σ → Prop) :
    p.AllActions fun _ _ action => Carries T action := by
  refine AllActions.mono ?_ hp
  rintro α β action ⟨f, hf⟩ v s s' hs
  rw [hf v]
  exact ⟨rfl, hs⟩

variable {T : σ → σ → Prop} {P : Nat → Nat → Prop} {tokens tokens' : Array τ}

/-- A parser is followed along an alignment if the rules it mentions are. -/
theorem mirrors_evalWith {rules rules' : (r : Fin n) → Place → Attempt σ τ (ty r)}
    (h : Alignment tokens tokens' P) (hadv : ∀ r place, (rules r place).Advances)
    (hadv' : ∀ r place, (rules' r place).Advances)
    (hrules : ∀ r place place',
      Attempt.Mirrors T P tokens tokens' (rules r place) (rules' r place'))
    (p : Parser σ τ ty α) (hp : p.AllActions fun _ _ action => Carries T action)
    (place place' : Place) :
    Attempt.Mirrors T P tokens tokens' (p.evalWith rules place) (p.evalWith rules' place') := by
  have hpart {α : Type} (q : Parser σ τ ty α) (place : Place) : (q.evalWith rules place).Advances :=
    advances_evalWith hadv q place
  have hpart' {α : Type} (q : Parser σ τ ty α) (place : Place) :
      (q.evalWith rules' place).Advances := advances_evalWith hadv' q place
  induction p generalizing place place' with
  | satisfy pred => exact Attempt.mirrors_satisfy h pred
  | nothing => exact Attempt.mirrors_nothing
  | never => exact Attempt.mirrors_never
  | endOfInput => exact Attempt.mirrors_endOfInput h
  | seq p q ihp ihq => exact (ihp hp.1 _ _).seq h (ihq hp.2 _ _)
  | alt p q ihp ihq => exact (ihp hp.1 _ _).alt h (ihq hp.2 _ _)
  | transform p action ih => exact (ih hp.1 _ _).transform hp.2
  | star p ih => exact (ih hp _ _).star h (hpart p _) (hpart' p _)
  | plus p ih => exact (ih hp _ _).plus h (hpart p _) (hpart' p _)
  | rule r =>
    intro i i' hi j j' hj
    refine hrules r (.inside :: place) (.inside :: place') hi ?_
    rwa [Journal.state_visit, Journal.state_visit]
  | guard p pred ih => exact (ih hp _ _).guard pred
  | diff p q ihp ihq => exact (ihp hp.1 _ _).diff (ihq hp.2 _ _)
  | followedBy p q ihp ihq => exact (ihp hp.1 _ _).followedBy (ihq hp.2 _ _)
  | notFollowedBy p q ihp ihq => exact (ihp hp.1 _ _).notFollowedBy (ihq hp.2 _ _)
  | trace p name description ih => exact (ih hp _ _).traced _

theorem mirrors_ruleAttempt {rules : (r : Fin n) → Parser σ τ ty (ty r)}
    (h : Alignment tokens tokens' P)
    (hrules : ∀ r, (rules r).AllActions fun _ _ action => Carries T action) {depth depth' : Nat}
    (hle : depth ≤ depth') (r : Fin n) (place place' : Place) :
    Attempt.Mirrors T P tokens tokens' (ruleAttempt rules depth r place)
      (ruleAttempt rules depth' r place') := by
  induction depth generalizing depth' r place place' with
  | zero => intro i i' _ j j' _ o j₁ ho; cases ho
  | succ depth ih =>
    obtain ⟨depth', rfl⟩ : ∃ d, depth' = d + 1 := ⟨depth' - 1, by omega⟩
    exact mirrors_evalWith h (advances_ruleAttempt rules depth) (advances_ruleAttempt rules depth')
      (ih (Nat.le_of_succ_le_succ hle)) (rules r) (hrules r) place place'

/-- **Runs on aligned inputs.** Where a parser ends on one input, it ends on the other, with related
indices and the same value. Neither the place where it stands nor deeper unfolding of references
makes a difference. -/
theorem mirrors_evalAt {rules : (r : Fin n) → Parser σ τ ty (ty r)}
    (h : Alignment tokens tokens' P)
    (hrules : ∀ r, (rules r).AllActions fun _ _ action => Carries T action) {depth depth' : Nat}
    (hle : depth ≤ depth') (p : Parser σ τ ty α)
    (hp : p.AllActions fun _ _ action => Carries T action) (place place' : Place) :
    Attempt.Mirrors T P tokens tokens' (p.evalWith (ruleAttempt rules depth) place)
      (p.evalWith (ruleAttempt rules depth') place') :=
  mirrors_evalWith h (advances_ruleAttempt rules depth) (advances_ruleAttempt rules depth')
    (mirrors_ruleAttempt h hrules hle) p hp place place'

theorem mirrors_eval {rules : (r : Fin n) → Parser σ τ ty (ty r)} (h : Alignment tokens tokens' P)
    (hrules : ∀ r, (rules r).AllActions fun _ _ action => Carries T action) {depth depth' : Nat}
    (hle : depth ≤ depth') (p : Parser σ τ ty α)
    (hp : p.AllActions fun _ _ action => Carries T action) :
    Attempt.Mirrors T P tokens tokens' (p.eval rules depth) (p.eval rules depth') :=
  mirrors_evalAt h hrules hle p hp [] []

end Parser

end RegArith
