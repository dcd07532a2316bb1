import RegArith.Proofs.Parsing.Repetition

/-!
# Looking ahead

`followedBy` does what `seq` does: the first part is tried, and behind its match the second. They
differ in what they make of the second outcome. A sequence keeps the match of both parts; a
look-ahead gives the match of the first part back as if the second had never been tried. So the two
match in the same cases, and what they leave behind is the same.

They do not fail at the same index. A sequence merges the failure of the second part with the
furthest index of the first one's match. A look-ahead passes on the failure of the second part
alone. If the first part got further than that before it settled for a shorter match, as
a repetition does that breaks off in the middle of a round, the look-ahead forgets about it.

## Main definitions

* `Attempt.inTurn` — two parts in a row, with the outcome of the second merged with the first match
* `Outcome.ahead` — the merging that a look-ahead does

## Main results

* `Attempt.seq_eq_inTurn`, `Attempt.followedBy_eq_inTurn` — both are parts in a row
* `Parser.inTurn_iff` — what parts in a row come to, in terms of the parts
* `Parser.followedBy_compared_with_seq` — where the two agree, and where they do not
-/

namespace RegArith

variable {σ τ α β γ : Type}

/-- The outcome of a look-ahead whose first part matched, from that of the second part. -/
def Outcome.ahead (x : Output α) (o : Outcome β) : Outcome α := o.map fun _ => x

namespace Outcome

variable {x : Output α} {o : Outcome β}

theorem ahead_eq_ok_iff {x' : Output α} : ahead x o = .ok x' ↔ x' = x ∧ ∃ y, o = .ok y := by
  cases o <;> simp [ahead, Except.map, eq_comm]

theorem ahead_eq_error_iff {e : NoMatch} : ahead x o = .error e ↔ o = .error e := by
  cases o <;> simp [ahead, Except.map]

theorem exists_behind_eq_ok_iff : (∃ z, behind x o = .ok z) ↔ ∃ y, o = .ok y := by
  cases o <;> simp [behind]

theorem behind_eq_error_iff {f : NoMatch} :
    behind x o = .error f ↔ ∃ e, o = .error e ∧ f = ⟨max e.index x.furthest⟩ := by
  cases o <;> simp [behind, NoMatch.furthest_eq_mk, eq_comm]

end Outcome

/-! ### Parts in a row -/

namespace Attempt

/-- Two parts in a row. A failure of the first is passed on. Behind a match of the first the second
is tried, and its outcome is merged with that match. -/
def inTurn (merge : Output α → Outcome β → Outcome γ) (a : Attempt σ τ α) (b : Attempt σ τ β) :
    Attempt σ τ γ := fun tokens i j =>
  (a tokens i j).bind fun
    | (.error e, j) => some (.error e, j)
    | (.ok x, j) => (b tokens x.next j).map fun r => (merge x r.1, r.2)

variable (a : Attempt σ τ α) (b : Attempt σ τ β)

theorem seq_eq_inTurn : seq a b = inTurn Outcome.behind a b := by
  funext tokens i j
  exact seq_apply a b tokens i j

theorem followedBy_eq_inTurn : followedBy a b = inTurn Outcome.ahead a b := by
  funext tokens i j
  change (a tokens i j).bind _ = (a tokens i j).bind _
  congr 1
  funext ⟨o, j₁⟩
  cases o with
  | error e => rfl
  | ok x =>
    change (b tokens x.next j₁).bind _ = (b tokens x.next j₁).map _
    obtain _ | ⟨e | y, j₂⟩ := b tokens x.next j₁ <;> rfl

variable {a b}

/-- How outcomes are merged makes no difference to whether an attempt ends and to what it leaves in
the journal. -/
theorem map_snd_inTurn {δ : Type} (merge : Output α → Outcome β → Outcome γ)
    (merge' : Output α → Outcome β → Outcome δ) (tokens : Array τ) (i : Nat) (j : Journal σ) :
    (inTurn merge a b tokens i j).map Prod.snd = (inTurn merge' a b tokens i j).map Prod.snd := by
  rw [inTurn, inTurn, Option.map_bind, Option.map_bind]
  congr 1
  funext ⟨o, j₁⟩
  cases o with
  | error e => rfl
  | ok x =>
    change ((b tokens x.next j₁).map _).map _ = ((b tokens x.next j₁).map _).map _
    rw [Option.map_map, Option.map_map]
    rfl

theorem inTurn_eq_some_iff {merge : Output α → Outcome β → Outcome γ} {tokens : Array τ} {i : Nat}
    {j j' : Journal σ} {o : Outcome γ} :
    inTurn merge a b tokens i j = some (o, j') ↔
      (∃ e, a tokens i j = some (.error e, j') ∧ o = .error e) ∨
      ∃ x j₁ o₂, a tokens i j = some (.ok x, j₁) ∧ b tokens x.next j₁ = some (o₂, j') ∧
        merge x o₂ = o := by
  rw [inTurn, Option.bind_eq_some_iff]
  constructor
  · rintro ⟨⟨e | x, j₁⟩, ha, h⟩
    · cases h
      exact .inl ⟨e, ha, rfl⟩
    · obtain ⟨⟨o₂, j₂⟩, hb, h⟩ := Option.map_eq_some_iff.1 h
      cases h
      exact .inr ⟨x, j₁, o₂, ha, hb, rfl⟩
  · rintro (⟨e, ha, rfl⟩ | ⟨x, j₁, o₂, ha, hb, rfl⟩)
    · exact ⟨_, ha, rfl⟩
    · exact ⟨_, ha, Option.map_eq_some_iff.2 ⟨_, hb, rfl⟩⟩

end Attempt

/-! ### Parsers in a row -/

namespace Parser

variable {n : Nat} {ty : Fin n → Type} {rules : (r : Fin n) → Parser σ τ ty (ty r)}
variable {p : Parser σ τ ty α} {q : Parser σ τ ty β} {tokens : Array τ} {i : Nat} {s s' : σ}

theorem EndsWith.of_evalAt {depth : Nat} {place : Place} {o : Outcome α} {j j' : Journal σ}
    (h : p.evalWith (ruleAttempt rules depth) place tokens i j = some (o, j')) :
    p.EndsWith rules tokens i j.state o j'.state := by
  have hnew : j.state = (Journal.new j.state).state := rfl
  obtain ⟨j₁, h₁, hs₁⟩ := evalAt_mono (Nat.le_refl depth) place [] h hnew
  exact ⟨depth, j₁, h₁, hs₁⟩

/-- **What two parsers in a row come to.** The parsers stand at places of their own and are unfolded
to one depth, neither of which makes a difference to their outcomes. -/
theorem inTurn_iff {merge : Output α → Outcome β → Outcome γ} {o : Outcome γ} :
    (∃ depth j', Attempt.inTurn merge (p.evalWith (ruleAttempt rules depth) [.left])
        (q.evalWith (ruleAttempt rules depth) [.right]) tokens i (.new s) = some (o, j') ∧
        j'.state = s') ↔
      (∃ e, p.EndsWith rules tokens i s (.error e) s' ∧ o = .error e) ∨
      ∃ x s₁ o₂, p.EndsWith rules tokens i s (.ok x) s₁ ∧ q.EndsWith rules tokens x.next s₁ o₂ s' ∧
        merge x o₂ = o := by
  constructor
  · rintro ⟨depth, j', h, rfl⟩
    obtain ⟨e, hp, rfl⟩ | ⟨x, j₁, o₂, hp, hq, rfl⟩ := Attempt.inTurn_eq_some_iff.1 h
    · exact .inl ⟨e, .of_evalAt hp, rfl⟩
    · exact .inr ⟨x, j₁.state, o₂, .of_evalAt hp, .of_evalAt hq, rfl⟩
  · rintro (⟨e, ⟨depth, j', hp, rfl⟩, rfl⟩ | ⟨x, s₁, o₂, hp, hq, rfl⟩)
    · obtain ⟨j₁, hp, hs⟩ := evalAt_mono (Nat.le_refl depth) [] [.left] hp rfl
      exact ⟨depth, j₁, Attempt.inTurn_eq_some_iff.2 (.inl ⟨e, hp, rfl⟩), hs⟩
    · obtain ⟨depth, j₁, j', hfirst, hsecond, rfl⟩ := hp.chain hq
      obtain ⟨j₂, hleft, hs₂⟩ := evalAt_mono (Nat.le_refl depth) [] [.left] hfirst rfl
      obtain ⟨j₃, hright, hs₃⟩ := evalAt_mono (Nat.le_refl depth) [] [.right] hsecond hs₂.symm
      exact ⟨depth, j₃, Attempt.inTurn_eq_some_iff.2 (.inr ⟨x, j₂, o₂, hleft, hright, rfl⟩), hs₃⟩

theorem eval_seq (depth : Nat) : (p.seq q).eval rules depth =
    Attempt.inTurn Outcome.behind (p.evalWith (ruleAttempt rules depth) [.left])
      (q.evalWith (ruleAttempt rules depth) [.right]) :=
  Attempt.seq_eq_inTurn _ _

theorem eval_followedBy (depth : Nat) : (p.followedBy q).eval rules depth =
    Attempt.inTurn Outcome.ahead (p.evalWith (ruleAttempt rules depth) [.left])
      (q.evalWith (ruleAttempt rules depth) [.right]) :=
  Attempt.followedBy_eq_inTurn _ _

theorem seq_endsWith_iff {o : Outcome (α × β)} :
    (p.seq q).EndsWith rules tokens i s o s' ↔
      (∃ e, p.EndsWith rules tokens i s (.error e) s' ∧ o = .error e) ∨
      ∃ x s₁ o₂, p.EndsWith rules tokens i s (.ok x) s₁ ∧ q.EndsWith rules tokens x.next s₁ o₂ s' ∧
        Outcome.behind x o₂ = o := by
  simp only [EndsWith, eval_seq]
  exact inTurn_iff

theorem followedBy_endsWith_iff {o : Outcome α} :
    (p.followedBy q).EndsWith rules tokens i s o s' ↔
      (∃ e, p.EndsWith rules tokens i s (.error e) s' ∧ o = .error e) ∨
      ∃ x s₁ o₂, p.EndsWith rules tokens i s (.ok x) s₁ ∧ q.EndsWith rules tokens x.next s₁ o₂ s' ∧
        Outcome.ahead x o₂ = o := by
  simp only [EndsWith, eval_followedBy]
  exact inTurn_iff

/-! ### Matches and failures -/

/-- A look-ahead matches if both parts do, and the match is that of the first part. -/
theorem followedBy_endsWith_ok_iff {x : Output α} :
    (p.followedBy q).EndsWith rules tokens i s (.ok x) s' ↔
      ∃ s₁ y, p.EndsWith rules tokens i s (.ok x) s₁ ∧
        q.EndsWith rules tokens x.next s₁ (.ok y) s' := by
  rw [followedBy_endsWith_iff]
  constructor
  · rintro (⟨e, -, h⟩ | ⟨x', s₁, o₂, hp, hq, h⟩)
    · cases h
    · obtain ⟨rfl, y, rfl⟩ := Outcome.ahead_eq_ok_iff.1 h
      exact ⟨s₁, y, hp, hq⟩
  · rintro ⟨s₁, y, hp, hq⟩
    exact .inr ⟨x, s₁, .ok y, hp, hq, rfl⟩

theorem exists_seq_endsWith_ok_iff :
    (∃ z, (p.seq q).EndsWith rules tokens i s (.ok z) s') ↔
      ∃ x s₁ y, p.EndsWith rules tokens i s (.ok x) s₁ ∧
        q.EndsWith rules tokens x.next s₁ (.ok y) s' := by
  constructor
  · rintro ⟨z, h⟩
    obtain ⟨e, -, h⟩ | ⟨x, s₁, o₂, hp, hq, h⟩ := seq_endsWith_iff.1 h
    · cases h
    · obtain ⟨y, rfl⟩ := Outcome.exists_behind_eq_ok_iff.1 ⟨z, h⟩
      exact ⟨x, s₁, y, hp, hq⟩
  · rintro ⟨x, s₁, y, hp, hq⟩
    exact ⟨_, seq_endsWith_iff.2 (.inr ⟨x, s₁, .ok y, hp, hq, rfl⟩)⟩

/-- A look-ahead fails with the failure of one of its parts. -/
theorem followedBy_endsWith_error_iff {e : NoMatch} :
    (p.followedBy q).EndsWith rules tokens i s (.error e) s' ↔
      p.EndsWith rules tokens i s (.error e) s' ∨
      ∃ x s₁, p.EndsWith rules tokens i s (.ok x) s₁ ∧
        q.EndsWith rules tokens x.next s₁ (.error e) s' := by
  rw [followedBy_endsWith_iff]
  constructor
  · rintro (⟨e', hp, h⟩ | ⟨x, s₁, o₂, hp, hq, h⟩)
    · cases h
      exact .inl hp
    · obtain rfl := Outcome.ahead_eq_error_iff.1 h
      exact .inr ⟨x, s₁, hp, hq⟩
  · rintro (hp | ⟨x, s₁, hp, hq⟩)
    · exact .inl ⟨e, hp, rfl⟩
    · exact .inr ⟨x, s₁, .error e, hp, hq, rfl⟩

/-- A sequence fails with the failure of its first part, or with that of its second part or
further on, if the first part got further. -/
theorem seq_endsWith_error_iff {f : NoMatch} :
    (p.seq q).EndsWith rules tokens i s (.error f) s' ↔
      p.EndsWith rules tokens i s (.error f) s' ∨
      ∃ x s₁ e, p.EndsWith rules tokens i s (.ok x) s₁ ∧
        q.EndsWith rules tokens x.next s₁ (.error e) s' ∧ f = ⟨max e.index x.furthest⟩ := by
  rw [seq_endsWith_iff]
  constructor
  · rintro (⟨e', hp, h⟩ | ⟨x, s₁, o₂, hp, hq, h⟩)
    · cases h
      exact .inl hp
    · obtain ⟨e, rfl, rfl⟩ := Outcome.behind_eq_error_iff.1 h
      exact .inr ⟨x, s₁, e, hp, hq, rfl⟩
  · rintro (hp | ⟨x, s₁, e, hp, hq, rfl⟩)
    · exact .inl ⟨f, hp, rfl⟩
    · exact .inr ⟨x, s₁, .error e, hp, hq, Outcome.behind_eq_error_iff.2 ⟨e, rfl, rfl⟩⟩

/-- The sequence fails further on than the look-ahead, if the first part got further. -/
theorem index_seq_eq_max {o : Outcome α} {e f : NoMatch} {s₁ s₂ s₃ : σ}
    (hp : p.EndsWith rules tokens i s o s₁)
    (he : (p.followedBy q).EndsWith rules tokens i s (.error e) s₂)
    (hf : (p.seq q).EndsWith rules tokens i s (.error f) s₃) : f.index = max e.index o.reach := by
  obtain he | ⟨x, s₄, hx, he⟩ := followedBy_endsWith_error_iff.1 he
  · -- the first part fails, and both with it
    obtain ⟨rfl, -⟩ := hp.unique he
    have hf := hf.unique (seq_endsWith_error_iff.2 (.inl he))
    cases hf.1
    exact (Nat.max_self _).symm
  · obtain ⟨rfl, -⟩ := hp.unique hx
    have hf := hf.unique (seq_endsWith_error_iff.2 (.inr ⟨x, s₄, e, hx, he, rfl⟩))
    cases hf.1
    rfl

/-- **A look-ahead and a sequence.** However deep references are unfolded, both end or neither does,
and they leave the same in the journal. They match in the same cases, and the match of a look-ahead
is that of its first part. They fail in the same cases as well; both fail like the first part if
that fails, and otherwise the index of the sequence is the greater one of that of the look-ahead and
of the furthest index of the first part. So the indices are the same exactly if the first part did
not get further than the failure of the look-ahead. -/
theorem followedBy_compared_with_seq (rules : (r : Fin n) → Parser σ τ ty (ty r))
    (p : Parser σ τ ty α) (q : Parser σ τ ty β) (tokens : Array τ) (i : Nat) (s : σ) :
    (∀ depth j, ((p.followedBy q).eval rules depth tokens i j).map Prod.snd =
      ((p.seq q).eval rules depth tokens i j).map Prod.snd) ∧
    (∀ s', (∃ x, (p.followedBy q).EndsWith rules tokens i s (.ok x) s') ↔
      ∃ z, (p.seq q).EndsWith rules tokens i s (.ok z) s') ∧
    (∀ x s', (p.followedBy q).EndsWith rules tokens i s (.ok x) s' →
      ∃ s₁, p.EndsWith rules tokens i s (.ok x) s₁) ∧
    (∀ s', (∃ e, (p.followedBy q).EndsWith rules tokens i s (.error e) s') ↔
      ∃ f, (p.seq q).EndsWith rules tokens i s (.error f) s') ∧
    (∀ e s', p.EndsWith rules tokens i s (.error e) s' →
      (p.followedBy q).EndsWith rules tokens i s (.error e) s' ∧
        (p.seq q).EndsWith rules tokens i s (.error e) s') ∧
    (∀ o s₁ e s₂ f s₃, p.EndsWith rules tokens i s o s₁ →
      (p.followedBy q).EndsWith rules tokens i s (.error e) s₂ →
      (p.seq q).EndsWith rules tokens i s (.error f) s₃ →
      f.index = max e.index o.reach ∧ (e.index = f.index ↔ o.reach ≤ e.index)) := by
  refine ⟨fun depth j => ?_, fun s' => ?_, fun x s' h => ?_, fun s' => ?_, fun e s' h => ?_, ?_⟩
  · rw [eval_followedBy, eval_seq]
    exact Attempt.map_snd_inTurn _ _ tokens i j
  · simp only [followedBy_endsWith_ok_iff, exists_seq_endsWith_ok_iff]
  · obtain ⟨s₁, y, hp, -⟩ := followedBy_endsWith_ok_iff.1 h
    exact ⟨s₁, hp⟩
  · constructor
    · rintro ⟨e, h⟩
      obtain hp | ⟨x, s₁, hp, hq⟩ := followedBy_endsWith_error_iff.1 h
      · exact ⟨e, seq_endsWith_error_iff.2 (.inl hp)⟩
      · exact ⟨_, seq_endsWith_error_iff.2 (.inr ⟨x, s₁, e, hp, hq, rfl⟩)⟩
    · rintro ⟨f, h⟩
      obtain hp | ⟨x, s₁, e, hp, hq, -⟩ := seq_endsWith_error_iff.1 h
      · exact ⟨f, followedBy_endsWith_error_iff.2 (.inl hp)⟩
      · exact ⟨e, followedBy_endsWith_error_iff.2 (.inr ⟨x, s₁, hp, hq⟩)⟩
  · exact ⟨followedBy_endsWith_error_iff.2 (.inl h), seq_endsWith_error_iff.2 (.inl h)⟩
  · intro o s₁ e s₂ f s₃ hp he hf
    have hindex := index_seq_eq_max hp he hf
    exact ⟨hindex, by omega⟩

/-- Bracketed groups with an `x` behind them. The group in `()y` is closed, so that nothing is known
of a failure further on than the `y`, and both ways to ask for an `x` fail there. -/
theorem followedBy_compared_with_seq_bracket_groups :
    (rule 0).EndsWith bracketGroups #['(', ')', 'y'] 0 () (.ok ⟨1, 2, 2⟩) () ∧
    ((rule 0).followedBy (single 'x')).EndsWith bracketGroups #['(', ')', 'y'] 0 ()
      (.error ⟨2⟩) () ∧
    ((rule 0).seq (single 'x')).EndsWith bracketGroups #['(', ')', 'y'] 0 () (.error ⟨2⟩) () := by
  have hgroups : (rule 0).EndsWith bracketGroups #['(', ')', 'y'] 0 () (.ok ⟨1, 2, 2⟩) () :=
    .of_run 3 (by decide +kernel)
  have hlook : ((rule 0).followedBy (single 'x')).EndsWith bracketGroups #['(', ')', 'y'] 0 ()
      (.error ⟨2⟩) () := .of_run 3 (by decide +kernel)
  obtain ⟨-, -, -, hfail, -, hindex⟩ := followedBy_compared_with_seq bracketGroups (rule 0)
    (single 'x') #['(', ')', 'y'] 0 ()
  obtain ⟨f, hseq⟩ := (hfail ()).1 ⟨_, hlook⟩
  obtain ⟨hf, -⟩ := hindex _ _ _ _ _ _ hgroups hlook hseq
  cases f
  cases hf
  exact ⟨hgroups, hlook, hseq⟩

/-- Pairs `ab`, as many as there are, and a `c` behind them. In `ax` the first pair breaks off at
the `x`. That is where the sequence fails; the look-ahead fails in front of the `a`, as if no pair
had been begun. -/
theorem followedBy_forgets_broken_pair :
    ∃ pairs : Parser Unit Char NoRules (List (Char × Char)),
      pairs = ((single 'a').seq (single 'b')).star ∧
      (pairs.followedBy (single 'c')).EndsWith (fun r => r.elim0) #['a', 'x'] 0 () (.error ⟨0⟩) () ∧
      (pairs.seq (single 'c')).EndsWith (fun r => r.elim0) #['a', 'x'] 0 () (.error ⟨1⟩) () :=
  ⟨_, rfl, .of_run 0 (by decide +kernel),
    .of_run 0 (by decide +kernel)⟩

end Parser

end RegArith
