import RegArith.Proofs.Parsing.Equations

/-!
# Runs side by side

Two computations on journals are coupled if they end together and with the same result, from all
journals that are related to each other, and leave related journals behind. How journals are
related is a parameter, and it may depend on what has happened so far: a list that both runs know
and that only grows at its end. A relation that speaks of such a history can say of a journal what
it has become since the start of a run, and not only what it holds.

The operations on attempts keep couplings. Of the relation it is asked that actions act alike on
both sides, and that printed lines do not count; all else that two journals have to do with each
other is decided where references are resolved.

## Main definitions

* `Coupled`, `Attempt.Coupled` — ending together, with the same result
* `IgnoresLog` — printed lines do not count
* `ActAlike` — two actions with the same values on related journals
* `Attempt.findEach` — one parser used several times

## Main results

* `Attempt.Coupled.seq`, `.alt`, `.star` and their companions — one for each operation
* `Attempt.Coupled.find`, `.findEach` — for every way to use a parser
-/

namespace RegArith

variable {σ σ' τ α β γ δ ω : Type}
variable {R : List ω → Journal σ → Journal σ' → Prop} {w : List ω}

/-! ### Computations -/

/-- From journals that are related under a history that goes on from `w`, both computations end
with the same result and leave journals that are related under a history that goes on from there;
or neither of them ends. -/
def Coupled (R : List ω → Journal σ → Journal σ' → Prop) (w : List ω)
    (x : StateT (Journal σ) Option γ) (y : StateT (Journal σ') Option γ) : Prop :=
  ∀ ⦃v⦄, w <+: v → ∀ ⦃j j'⦄, R v j j' →
    Option.Rel (fun r r' => r.1 = r'.1 ∧ ∃ u, v <+: u ∧ R u r.2 r'.2) (x j) (y j')

/-- Printed lines do not count for the relation. -/
structure IgnoresLog (R : List ω → Journal σ → Journal σ' → Prop) : Prop where
  left : ∀ {w j j'} (line : String), R w j j' → R w (j.print line) j'
  right : ∀ {w j j'} (line : String), R w j j' → R w j (j'.print line)

/-- On related journals both actions have the same value, and they leave related journals. -/
def ActAlike (R : List ω → Journal σ → Journal σ' → Prop) (action : α → StateM σ β)
    (action' : α → StateM σ' β) : Prop :=
  ∀ v ⦃w j j'⦄, R w j j' →
    ((action v).run j.state).1 = ((action' v).run j'.state).1 ∧
    R w { j with state := ((action v).run j.state).2 }
      { j' with state := ((action' v).run j'.state).2 }

theorem actAlike_pure (f : α → β) :
    ActAlike R (fun v => (pure (f v) : StateM σ β)) fun v => (pure (f v) : StateM σ' β) :=
  fun _ _ _ _ hj => ⟨rfl, hj⟩

namespace Coupled

variable {x : StateT (Journal σ) Option γ} {y : StateT (Journal σ') Option γ}

theorem pure (r : γ) :
    Coupled R w (Pure.pure r : StateT (Journal σ) Option γ) (Pure.pure r) :=
  fun v _ _ _ hj => .some ⟨rfl, v, List.prefix_refl v, hj⟩

theorem mono {v : List ω} (h : Coupled R w x y) (hwv : w <+: v) : Coupled R v x y :=
  fun _ hv => h (hwv.trans hv)

/-- What comes before both computations may take the history further. -/
theorem after {v u : List ω} {j : Journal σ} {j' : Journal σ'} (h : Coupled R u x y) (hvu : v <+: u)
    (hj : R u j j') :
    Option.Rel (fun r r' => r.1 = r'.1 ∧ ∃ u, v <+: u ∧ R u r.2 r'.2) (x j) (y j') := by
  have hends := h (List.prefix_refl u) hj
  generalize x j = p at hends ⊢
  generalize y j' = q at hends ⊢
  cases hends with
  | none => exact .none
  | some h =>
    obtain ⟨heq, u', huu', hu'⟩ := h
    exact .some ⟨heq, u', hvu.trans huu', hu'⟩

/-- What related journals have in common, coupled computations leave in common. -/
theorem map_eq {δ : Type} {view : Journal σ → δ} {view' : Journal σ' → δ} (h : Coupled R w x y)
    (hview : ∀ {v j j'}, R v j j' → view j = view' j') {j : Journal σ} {j' : Journal σ'}
    (hj : R w j j') :
    (x j).map (fun r => (r.1, view r.2)) = (y j').map fun r => (r.1, view' r.2) := by
  have hends := h (List.prefix_refl w) hj
  generalize x j = p at hends ⊢
  generalize y j' = q at hends ⊢
  cases hends with
  | none => rfl
  | some h =>
    obtain ⟨heq, u, -, hu⟩ := h
    rw [Option.map_some, Option.map_some, heq, hview hu]

theorem bind {f : γ → StateT (Journal σ) Option δ} {g : γ → StateT (Journal σ') Option δ}
    (hxy : Coupled R w x y) (hfg : ∀ r, Coupled R w (f r) (g r)) :
    Coupled R w (x >>= f) (y >>= g) := by
  intro v hv j j' hj
  have hfirst := hxy hv hj
  change Option.Rel _ ((x j).bind fun r => f r.1 r.2) ((y j').bind fun r => g r.1 r.2)
  generalize x j = p at hfirst ⊢
  generalize y j' = q at hfirst ⊢
  cases hfirst with
  | none => exact .none
  | some h =>
    obtain ⟨heq, u, hvu, hu⟩ := h
    rw [Option.bind_some, Option.bind_some, ← heq]
    exact ((hfg _).mono (hv.trans hvu)).after hvu hu

theorem print_left (hR : IgnoresLog R) (hxy : Coupled R w x y) (line : γ → String) :
    Coupled R w (x >>= fun r => do modify (·.print (line r)); return r) y := by
  rw [← bind_pure y]
  refine hxy.bind fun r v _ j j' hj => ?_
  exact .some ⟨rfl, v, List.prefix_refl v, hR.left (line r) hj⟩

theorem print_right (hR : IgnoresLog R) (hxy : Coupled R w x y) (line : γ → String) :
    Coupled R w x (y >>= fun r => do modify (·.print (line r)); return r) := by
  rw [← bind_pure x]
  refine hxy.bind fun r v _ j j' hj => ?_
  exact .some ⟨rfl, v, List.prefix_refl v, hR.right (line r) hj⟩

end Coupled

/-! ### Loops as sequences of effects -/

namespace Attempt

theorem starFrom_eq_bind (a : Attempt σ τ α) (tokens : Array τ) (i furthest : Nat)
    (values : List α) :
    (starFrom a tokens i furthest values : StateT (Journal σ) Option _) =
      a tokens i >>= fun
        | .error e => return (Output.new values.reverse i).reached (max furthest e.index)
        | .ok x =>
          if i < x.next ∧ x.next ≤ tokens.size then
            starFrom a tokens x.next (max furthest x.furthest) (x.value :: values)
          else
            return (Output.new (x.value :: values).reverse x.next).reached
              (max furthest x.furthest) := by
  funext j
  change _ = (a tokens i j).bind _
  rw [starFrom]
  rcases a tokens i j with _ | ⟨e | x, j₁⟩
  · rfl
  · rfl
  · rw [Option.bind_some]
    dsimp only
    split <;> rfl

theorem search_eq_bind (a : Attempt σ τ α) (tokens : Array τ) (start : Nat) :
    (search a tokens start : StateT (Journal σ) Option _) =
      if start < tokens.size then
        a tokens start >>= fun
          | .ok x => return .ok x
          | .error _ => search a tokens (start + 1)
      else return .error ⟨tokens.size⟩ := by
  funext j
  rw [search]
  split
  · change _ = (a tokens start j).bind _
    rcases a tokens start j with _ | ⟨e | x, j₁⟩ <;> rfl
  · rfl

theorem searchAllFrom_eq_bind (a : Attempt σ τ α) (tokens : Array τ) (start : Nat)
    (found : List (Output α)) :
    (searchAllFrom a tokens start found : StateT (Journal σ) Option _) =
      if start < tokens.size then
        a tokens start >>= fun
          | .ok x => searchAllFrom a tokens (max x.next (start + 1)) (x :: found)
          | .error _ => searchAllFrom a tokens (start + 1) found
      else return found.reverse := by
  funext j
  rw [searchAllFrom]
  split
  · change _ = (a tokens start j).bind _
    rcases a tokens start j with _ | ⟨e | x, j₁⟩ <;> rfl
  · rfl

/-! ### The operations -/

/-- On the given tokens the attempts are coupled at every index. -/
def Coupled (R : List ω → Journal σ → Journal σ' → Prop) (w : List ω) (tokens : Array τ)
    (a : Attempt σ τ α) (a' : Attempt σ' τ α) : Prop :=
  ∀ i, RegArith.Coupled R w (a tokens i) (a' tokens i)

namespace Coupled

variable {tokens : Array τ} {a : Attempt σ τ α} {a' : Attempt σ' τ α} {b : Attempt σ τ β}
  {b' : Attempt σ' τ β}

theorem satisfy (pred : τ → Bool) :
    Coupled R w tokens (satisfy pred : Attempt σ τ τ) (satisfy pred : Attempt σ' τ τ) :=
  fun _ => .pure _

theorem nothing :
    Coupled R w tokens (nothing : Attempt σ τ (Match α)) (nothing : Attempt σ' τ (Match α)) :=
  fun _ => .pure _

theorem never : Coupled R w tokens (never : Attempt σ τ α) (never : Attempt σ' τ α) :=
  fun _ => .pure _

theorem endOfInput :
    Coupled R w tokens (endOfInput : Attempt σ τ (Match α)) (endOfInput : Attempt σ' τ (Match α)) :=
  fun _ => .pure _

theorem seq (ha : Coupled R w tokens a a') (hb : Coupled R w tokens b b') :
    Coupled R w tokens (seq a b) (seq a' b') := by
  refine fun i => (ha i).bind fun o => ?_
  cases o with
  | error e => exact .pure _
  | ok x =>
    refine (hb x.next).bind fun o => ?_
    cases o <;> exact .pure _

theorem alt {b : Attempt σ τ α} {b' : Attempt σ' τ α} (ha : Coupled R w tokens a a')
    (hb : Coupled R w tokens b b') : Coupled R w tokens (alt a b) (alt a' b') := by
  refine fun i => (ha i).bind fun o => ?_
  cases o with
  | ok x => exact .pure _
  | error e =>
    refine (hb i).bind fun o => ?_
    cases o <;> exact .pure _

theorem transform (ha : Coupled R w tokens a a') {action : α → StateM σ β}
    {action' : α → StateM σ' β} (haction : ActAlike R action action') :
    Coupled R w tokens (transform a action) (transform a' action') := by
  refine fun i => (ha i).bind fun o => ?_
  cases o with
  | error e => exact .pure _
  | ok x =>
    intro v _ j j' hj
    obtain ⟨hvalue, hrel⟩ := haction x.value hj
    refine .some ⟨?_, v, List.prefix_refl v, hrel⟩
    exact congrArg (fun value => Except.ok (x.map fun _ => value)) hvalue

/-- The loop of a repetition goes round on both sides, or on neither: it looks at the match. -/
theorem starFrom (ha : Coupled R w tokens a a') (i furthest : Nat) (values : List α) :
    RegArith.Coupled R w (starFrom a tokens i furthest values)
      (Attempt.starFrom a' tokens i furthest values) := by
  induction hk : tokens.size - i using Nat.strongRecOn generalizing i furthest values with
  | _ k ih =>
    rw [starFrom_eq_bind a, starFrom_eq_bind a']
    refine (ha i).bind fun o => ?_
    cases o with
    | error e => exact .pure _
    | ok x =>
      dsimp only
      split
      · exact ih (tokens.size - x.next) (by omega) _ _ _ rfl
      · exact .pure _

theorem star (ha : Coupled R w tokens a a') : Coupled R w tokens (star a) (star a') :=
  fun i => (ha.starFrom i i []).bind fun _ => .pure _

theorem plus (ha : Coupled R w tokens a a') : Coupled R w tokens (plus a) (plus a') :=
  (ha.seq ha.star).transform (actAlike_pure _)

theorem guard (ha : Coupled R w tokens a a') (pred : α → Bool) :
    Coupled R w tokens (guard a pred) (guard a' pred) := by
  refine fun i => (ha i).bind fun o => ?_
  cases o <;> exact .pure _

theorem diff (ha : Coupled R w tokens a a') (hb : Coupled R w tokens b b') :
    Coupled R w tokens (diff a b) (diff a' b') := by
  refine fun i => (ha i).bind fun o => ?_
  cases o with
  | error e => exact .pure _
  | ok x =>
    refine (hb i).bind fun o => ?_
    cases o <;> exact .pure _

theorem followedBy (ha : Coupled R w tokens a a') (hb : Coupled R w tokens b b') :
    Coupled R w tokens (followedBy a b) (followedBy a' b') := by
  refine fun i => (ha i).bind fun o => ?_
  cases o with
  | error e => exact .pure _
  | ok x =>
    refine (hb x.next).bind fun o => ?_
    cases o <;> exact .pure _

theorem notFollowedBy (ha : Coupled R w tokens a a') (hb : Coupled R w tokens b b') :
    Coupled R w tokens (notFollowedBy a b) (notFollowedBy a' b') := by
  refine fun i => (ha i).bind fun o => ?_
  cases o with
  | error e => exact .pure _
  | ok x =>
    refine (hb x.next).bind fun o => ?_
    cases o <;> exact .pure _

theorem traced_left (hR : IgnoresLog R) (ha : Coupled R w tokens a a')
    (line : Nat → Outcome α → String) : Coupled R w tokens (traced a line) a' :=
  fun i => (ha i).print_left hR (line i)

theorem traced_right (hR : IgnoresLog R) (ha : Coupled R w tokens a a')
    (line : Nat → Outcome α → String) : Coupled R w tokens a (traced a' line) :=
  fun i => (ha i).print_right hR (line i)

/-! ### Ways to use a parser -/

theorem search (ha : Coupled R w tokens a a') : Coupled R w tokens (search a) (search a') := by
  intro start
  induction hk : tokens.size - start using Nat.strongRecOn generalizing start with
  | _ k ih =>
    rw [search_eq_bind a, search_eq_bind a']
    by_cases hstart : start < tokens.size
    · rw [if_pos hstart, if_pos hstart]
      refine (ha start).bind fun o => ?_
      cases o with
      | ok x => exact .pure _
      | error e => exact ih (tokens.size - (start + 1)) (by omega) _ rfl
    · rw [if_neg hstart, if_neg hstart]
      exact .pure _

theorem searchAllFrom (ha : Coupled R w tokens a a') (start : Nat) (found : List (Output α)) :
    RegArith.Coupled R w (searchAllFrom a tokens start found)
      (Attempt.searchAllFrom a' tokens start found) := by
  induction hk : tokens.size - start using Nat.strongRecOn generalizing start found with
  | _ k ih =>
    rw [searchAllFrom_eq_bind a, searchAllFrom_eq_bind a']
    by_cases hstart : start < tokens.size
    · rw [if_pos hstart, if_pos hstart]
      refine (ha start).bind fun o => ?_
      cases o with
      | ok x => exact ih (tokens.size - max x.next (start + 1)) (by omega) _ _ rfl
      | error e => exact ih (tokens.size - (start + 1)) (by omega) _ _ rfl
    · rw [if_neg hstart, if_neg hstart]
      exact .pure _

theorem find (ha : Coupled R w tokens a a') (mode : Mode) :
    RegArith.Coupled R w (find a mode tokens) (find a' mode tokens) := by
  cases mode with
  | parse index => exact (ha index).bind fun _ => .pure _
  | search start => exact (ha.search start).bind fun _ => .pure _
  | searchAll =>
    refine (ha.searchAllFrom 0 []).bind fun found => ?_
    cases found <;> exact .pure _

end Coupled

/-- The matches that a parser finds when it is used several times, each time in some mode and on
some tokens. What a use leaves in the journal is there at the next one. -/
def findEach (a : Attempt σ τ α) (runs : List (Mode × Array τ)) :
    StateT (Journal σ) Option (List (Except NoMatch (List (Output α)))) :=
  runs.mapM fun run => a.find run.1 run.2

theorem Coupled.findEach {a : Attempt σ τ α} {a' : Attempt σ' τ α}
    (h : ∀ tokens, Coupled R w tokens a a') (runs : List (Mode × Array τ)) :
    RegArith.Coupled R w (a.findEach runs) (a'.findEach runs) := by
  induction runs with
  | nil => exact .pure _
  | cons run runs ih =>
    rw [Attempt.findEach, Attempt.findEach, List.mapM_cons, List.mapM_cons]
    exact ((h run.2).find run.1).bind fun _ => ih.bind fun _ => .pure _

end Attempt

end RegArith
