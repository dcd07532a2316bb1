import RegArith.Parsing.Total

/-!
# What the outcome of an attempt tells about its parts

Every operation on attempts runs its parts in the state monad. The lemmas here turn an operation
inside out: the operation ends with a given outcome and journal exactly if its parts end in one of
the listed ways. Everything said about attempts elsewhere is read off these equivalences, and no
later proof opens the definition of an operation.

A parser without rules does not depend on the place it is evaluated at, so that its meaning is
assembled from the meanings of its parts.

## Main results

* `Attempt.seq_eq_some_iff`, `alt_eq_some_iff`, `transform_eq_some_iff` — the regular operations
* `Attempt.starFrom_append`, `star_eq_map` — repetition with the values so far taken out
* `Parser.closed_seq` and its companions — the meaning of a parser without rules
-/

namespace RegArith

namespace Attempt

variable {σ τ α β γ : Type}

/-! ### Sequencing of effects -/

theorem bind_eq_some_iff {x : StateT (Journal σ) Option β} {f : β → StateT (Journal σ) Option γ}
    {j : Journal σ} {r : γ × Journal σ} :
    (x >>= f) j = some r ↔ ∃ b j₁, x j = some (b, j₁) ∧ f b j₁ = some r := by
  change (x j).bind (fun p => f p.1 p.2) = some r ↔ _
  rw [Option.bind_eq_some_iff]
  constructor
  · rintro ⟨⟨b, j₁⟩, hx, hf⟩
    exact ⟨b, j₁, hx, hf⟩
  · rintro ⟨b, j₁, hx, hf⟩
    exact ⟨(b, j₁), hx, hf⟩

theorem pure_eq_some_iff {o o' : β} {j j' : Journal σ} :
    (pure o : StateT (Journal σ) Option β) j = some (o', j') ↔ o' = o ∧ j' = j := by
  change some (o, j) = some (o', j') ↔ _
  simp [eq_comm]

/-! ### Regular operations -/

theorem seq_eq_some_iff {a : Attempt σ τ α} {b : Attempt σ τ β} {tokens : Array τ} {i : Nat}
    {j j' : Journal σ} {r : Outcome (α × β)} :
    seq a b tokens i j = some (r, j') ↔
      (∃ e, a tokens i j = some (.error e, j') ∧ r = .error e) ∨
      (∃ x j₁ e, a tokens i j = some (.ok x, j₁) ∧ b tokens x.next j₁ = some (.error e, j') ∧
        r = .error (e.furthest ⟨x.furthest⟩)) ∨
      (∃ x j₁ y, a tokens i j = some (.ok x, j₁) ∧ b tokens x.next j₁ = some (.ok y, j') ∧
        r = .ok (((Output.new (x.value, y.value) y.next).reached x.furthest).reached
          y.furthest)) := by
  rw [seq, bind_eq_some_iff]
  constructor
  · rintro ⟨o, j₁, ha, h⟩
    cases o with
    | error e =>
      obtain ⟨rfl, rfl⟩ := pure_eq_some_iff.1 h
      exact .inl ⟨e, ha, rfl⟩
    | ok x =>
      obtain ⟨o, j₂, hb, h⟩ := bind_eq_some_iff.1 h
      cases o with
      | error e =>
        obtain ⟨rfl, rfl⟩ := pure_eq_some_iff.1 h
        exact .inr (.inl ⟨x, j₁, e, ha, hb, rfl⟩)
      | ok y =>
        obtain ⟨rfl, rfl⟩ := pure_eq_some_iff.1 h
        exact .inr (.inr ⟨x, j₁, y, ha, hb, rfl⟩)
  · rintro (⟨e, ha, rfl⟩ | ⟨x, j₁, e, ha, hb, rfl⟩ | ⟨x, j₁, y, ha, hb, rfl⟩)
    · exact ⟨.error e, j', ha, rfl⟩
    · exact ⟨.ok x, j₁, ha, bind_eq_some_iff.2 ⟨.error e, j', hb, rfl⟩⟩
    · exact ⟨.ok x, j₁, ha, bind_eq_some_iff.2 ⟨.ok y, j', hb, rfl⟩⟩

theorem alt_eq_some_iff {a b : Attempt σ τ α} {tokens : Array τ} {i : Nat} {j j' : Journal σ}
    {r : Outcome α} :
    alt a b tokens i j = some (r, j') ↔
      (∃ x, a tokens i j = some (.ok x, j') ∧ r = .ok x) ∨
      (∃ e j₁ y, a tokens i j = some (.error e, j₁) ∧ b tokens i j₁ = some (.ok y, j') ∧
        r = .ok (y.reached e.index)) ∨
      (∃ e j₁ f, a tokens i j = some (.error e, j₁) ∧ b tokens i j₁ = some (.error f, j') ∧
        r = .error (e.furthest f)) := by
  rw [alt, bind_eq_some_iff]
  constructor
  · rintro ⟨o, j₁, ha, h⟩
    cases o with
    | ok x =>
      obtain ⟨rfl, rfl⟩ := pure_eq_some_iff.1 h
      exact .inl ⟨x, ha, rfl⟩
    | error e =>
      obtain ⟨o, j₂, hb, h⟩ := bind_eq_some_iff.1 h
      cases o with
      | ok y =>
        obtain ⟨rfl, rfl⟩ := pure_eq_some_iff.1 h
        exact .inr (.inl ⟨e, j₁, y, ha, hb, rfl⟩)
      | error f =>
        obtain ⟨rfl, rfl⟩ := pure_eq_some_iff.1 h
        exact .inr (.inr ⟨e, j₁, f, ha, hb, rfl⟩)
  · rintro (⟨x, ha, rfl⟩ | ⟨e, j₁, y, ha, hb, rfl⟩ | ⟨e, j₁, f, ha, hb, rfl⟩)
    · exact ⟨.ok x, j', ha, rfl⟩
    · exact ⟨.error e, j₁, ha, bind_eq_some_iff.2 ⟨.ok y, j', hb, rfl⟩⟩
    · exact ⟨.error e, j₁, ha, bind_eq_some_iff.2 ⟨.error f, j', hb, rfl⟩⟩

/-- What an action does to an outcome: it runs on the value of a match, in the state that the
journal holds, and a failure passes it by. -/
def finish (action : α → StateM σ β) (o : Outcome α) (j : Journal σ) : Outcome β × Journal σ :=
  match o with
  | .error e => (.error e, j)
  | .ok x =>
    (.ok (x.map fun _ => ((action x.value).run j.state).1),
      { j with state := ((action x.value).run j.state).2 })

@[simp] theorem finish_error (action : α → StateM σ β) (e : NoMatch) (j : Journal σ) :
    finish action (.error e) j = (.error e, j) := rfl

/-- An action that only computes leaves the journal alone. -/
@[simp] theorem finish_pure (f : α → β) (o : Outcome α) (j : Journal σ) :
    finish (fun x => pure (f x)) o j = (o.map (Output.map f), j) := by
  cases o <;> rfl

theorem transform_eq_some_iff {a : Attempt σ τ α} {action : α → StateM σ β} {tokens : Array τ}
    {i : Nat} {j : Journal σ} {r : Outcome β × Journal σ} :
    transform a action tokens i j = some r ↔
      ∃ o j₁, a tokens i j = some (o, j₁) ∧ r = finish action o j₁ := by
  rw [transform, bind_eq_some_iff]
  refine exists_congr fun o => exists_congr fun j₁ => and_congr_right fun _ => ?_
  cases o with
  | error e => exact pure_eq_some_iff.trans (by rw [finish_error, Prod.mk.injEq])
  | ok x => exact (Option.some.injEq _ _).to_iff.trans eq_comm

/-! ### Repetition -/

/-- What the loop of `star` gathered earlier stands in front of what it still finds. -/
theorem starFrom_append (a : Attempt σ τ α) (tokens : Array τ) (i furthest : Nat)
    (values : List α) (j : Journal σ) (earlier : Nat) (first : List α) :
    starFrom a tokens i (max furthest earlier) (values ++ first) j =
      (starFrom a tokens i furthest values j).map fun r =>
        (⟨first.reverse ++ r.1.value, r.1.next, max r.1.furthest earlier⟩, r.2) := by
  fun_induction starFrom a tokens i furthest values j with
  | case1 i furthest values j ha => rw [starFrom, ha]; rfl
  | case2 i furthest values j e j' ha =>
    rw [starFrom, ha]
    simp only [Output.new, Output.reached, Option.map_some, List.reverse_append]
    congr 3
    omega
  | case3 i furthest values j x j' ha hx ih =>
    rw [← ih, starFrom, ha]
    simp only [hx, and_self, ↓reduceIte, List.cons_append]
    rw [show max (max furthest earlier) x.furthest = max (max furthest x.furthest) earlier by
      omega]
  | case4 i furthest values j x j' ha hx =>
    rw [starFrom, ha]
    simp only [hx, ↓reduceIte, Output.new, Output.reached, Option.map_some, List.reverse_cons,
      List.reverse_append, List.append_assoc]
    congr 3
    omega

/-- A repetition always succeeds, with what its loop finds. -/
theorem star_eq_map (a : Attempt σ τ α) (tokens : Array τ) (i : Nat) (j : Journal σ) :
    star a tokens i j = (starFrom a tokens i i [] j).map fun r => (.ok r.1, r.2) := by
  change (starFrom a tokens i i [] j).bind _ = _
  cases starFrom a tokens i i [] j <;> rfl

end Attempt

/-! ### Parsers without rules -/

namespace Parser

variable {σ τ α β : Type}

/-- Without rules there is nothing that the place of a parser could tell apart. -/
theorem evalWith_elim0_congr (p : Parser σ τ NoRules α) (place place' : Place) :
    p.evalWith (fun r => r.elim0) place = p.evalWith (fun r => r.elim0) place' := by
  induction p generalizing place place' with
  | satisfy | nothing | never | endOfInput => rfl
  | seq p q hp hq | alt p q hp hq | diff p q hp hq | followedBy p q hp hq
  | notFollowedBy p q hp hq =>
    rw [evalWith, evalWith, hp _ (.left :: place'), hq _ (.right :: place')]
  | transform p action hp | star p hp | plus p hp | guard p pred hp | trace p name description hp =>
    rw [evalWith, evalWith, hp _ place']
  | rule r => exact r.elim0

theorem evalWith_elim0 (p : Parser σ τ NoRules α) (place : Place) :
    p.evalWith (fun r => r.elim0) place = p.closed := p.evalWith_elim0_congr place []

theorem closed_nothing : (nothing : Parser σ τ NoRules (Match α)).closed = Attempt.nothing := rfl

theorem closed_seq (p : Parser σ τ NoRules α) (q : Parser σ τ NoRules β) :
    (p.seq q).closed = Attempt.seq p.closed q.closed := by
  rw [closed, evalWith, evalWith_elim0, evalWith_elim0]

theorem closed_alt (p q : Parser σ τ NoRules α) :
    (p.alt q).closed = Attempt.alt p.closed q.closed := by
  rw [closed, evalWith, evalWith_elim0, evalWith_elim0]

theorem closed_map (p : Parser σ τ NoRules α) (f : α → β) :
    (p.map f).closed = Attempt.transform p.closed fun x => pure (f x) := rfl

theorem closed_star (p : Parser σ τ NoRules α) : p.star.closed = Attempt.star p.closed := rfl

theorem closed_plus (p : Parser σ τ NoRules α) :
    p.plus.closed = Attempt.transform (Attempt.seq p.closed (Attempt.star p.closed))
      fun x => pure (x.1 :: x.2) := rfl

end Parser

end RegArith
