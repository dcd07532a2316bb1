import RegArith.Proofs.Parsing.Depth
import RegArith.Proofs.Parsing.Silent

/-!
# The algebra of parsers

Sequences and alternatives obey the laws one expects of them, and not only for the values: the
furthest index of a match and the index of a failure are the same on both sides, although the sides
merge the failures of their parts in different orders and at different points.

The laws are proved in three layers. Merging two outcomes is a function of its own, `behind` for
a sequence and `instead` for an alternative, and the laws begin as laws of merging. For attempts
most of them are then equations, which hold with everything that is left in the journal. Only
distributivity tries an attempt again that has been tried before, so that it asks for one that
does not act on the state. On the two sides of a law for parsers the parts stand at different
places, which makes no difference to their results.

## Main definitions

* `Outcome.behind`, `Outcome.instead` — the outcome of a second part merged with the first
* `Attempt.Similar` — the same results, whatever is left in the journal
* `Parser.SameResults` — two parsers that cannot be told apart by their results
* `Parser.inOnePass` — a list of parsers as a loop

## Main results

* `Attempt.alt_assoc`, `seq_assoc`, `seq_map`, `map_seq` — equations between attempts
* `Attempt.seq_alt` — distributivity
* `Parser.evalWith_seqList` — a list of parsers in order is one pass over it
* `Parser.combinator_laws` — the laws for parsers
-/

namespace RegArith

variable {σ τ α β γ δ : Type}

/-! ### Merging outcomes -/

namespace Outcome

/-- The outcome of a sequence whose first part matched, from that of the second part. -/
def behind (x : Output α) : Outcome β → Outcome (α × β)
  | .error e => .error (e.furthest ⟨x.furthest⟩)
  | .ok y => .ok (((Output.new (x.value, y.value) y.next).reached x.furthest).reached y.furthest)

/-- The outcome of an alternative whose first part failed, from that of the second part. -/
def instead (e : NoMatch) : Outcome α → Outcome α
  | .ok y => .ok (y.reached e.index)
  | .error f => .error (e.furthest f)

theorem instead_instead (e f : NoMatch) (o : Outcome α) :
    instead e (instead f o) = instead (e.furthest f) o := by
  cases o with
  | ok y =>
    simp only [instead, Output.reached, NoMatch.index_furthest]
    rw [Nat.max_assoc, Nat.max_comm f.index]
  | error g =>
    simp only [instead, NoMatch.furthest_eq_mk]
    rw [Nat.max_assoc]

theorem le_reach_of_within {i size : Nat} {o : Outcome α} (h : Within i size o) : i ≤ reach o := by
  cases o with
  | ok x => exact Nat.le_trans h.1 h.2.1
  | error e => exact h.1

/-- A failure that the outcome reaches anyway adds nothing. -/
theorem instead_of_le {e : NoMatch} {o : Outcome α} (h : e.index ≤ reach o) : instead e o = o := by
  cases o with
  | ok y =>
    rw [reach_ok] at h
    simp only [instead, Output.reached]
    rw [Nat.max_eq_left h]
  | error f =>
    rw [reach_error] at h
    simp only [instead, NoMatch.furthest_eq_mk]
    rw [Nat.max_eq_right h]

theorem behind_instead (x : Output α) (f : NoMatch) (o : Outcome β) :
    behind x (instead f o) = instead (f.furthest ⟨x.furthest⟩) (behind x o) := by
  cases o with
  | ok y =>
    simp only [instead, behind, Output.reached, Output.new, NoMatch.index_furthest]
    congr 2
    omega
  | error g =>
    simp only [instead, behind, NoMatch.furthest_eq_mk]
    congr 2
    omega

/-- Three parts in a row. The furthest index of the middle one covers where it stopped. -/
theorem behind_behind (x : Output α) {y : Output β} (hy : y.next ≤ y.furthest) (o : Outcome γ) :
    (behind (((Output.new (x.value, y.value) y.next).reached x.furthest).reached y.furthest) o).map
      (Output.map fun v => (v.1.1, v.1.2, v.2)) = behind x (behind y o) := by
  cases o with
  | ok z =>
    simp only [behind, Except.map, Output.map, Output.reached, Output.new]
    congr 2
    omega
  | error e =>
    simp only [behind, Except.map, NoMatch.furthest_eq_mk, Output.reached, Output.new]
    congr 2
    omega

theorem behind_map (x : Output α) (f : β → γ) (o : Outcome β) :
    behind x (o.map (Output.map f)) = (behind x o).map (Output.map (Prod.map id f)) := by
  cases o <;> rfl

theorem map_behind (x : Output α) (f : α → γ) (o : Outcome β) :
    behind (x.map f) o = (behind x o).map (Output.map (Prod.map f id)) := by
  cases o <;> rfl

/-- Behind a match that read nothing, an outcome keeps its indices. -/
theorem behind_new {i size : Nat} {o : Outcome β} (h : Within i size o) (v : α) :
    behind (.new v i) o = o.map (Output.map (Prod.mk v)) := by
  cases o with
  | ok y =>
    simp only [within_ok] at h
    simp only [behind, Except.map, Output.map, Output.reached, Output.new]
    congr 2
    omega
  | error e =>
    simp only [within_error] at h
    simp only [behind, Except.map, NoMatch.furthest_eq_mk, Output.new]
    congr 2
    omega

theorem map_map_output (f : α → β) (g : β → γ) (o : Outcome α) :
    (o.map (Output.map f)).map (Output.map g) = o.map (Output.map (g ∘ f)) := by
  cases o <;> rfl

end Outcome

/-! ### Equations between attempts -/

namespace Attempt

/-- A match with a function on its value. -/
abbrev map (a : Attempt σ τ α) (f : α → β) : Attempt σ τ β := transform a fun v => pure (f v)

/-- What a sequence does with the result of its first part. -/
def andThen (b : Attempt σ τ β) (tokens : Array τ) :
    Outcome α × Journal σ → Option (Outcome (α × β) × Journal σ)
  | (.error e, j) => some (.error e, j)
  | (.ok x, j) => (b tokens x.next j).map fun r => (Outcome.behind x r.1, r.2)

/-- What an alternative does with the result of its first part. -/
def orElse (b : Attempt σ τ α) (tokens : Array τ) (i : Nat) :
    Outcome α × Journal σ → Option (Outcome α × Journal σ)
  | (.ok x, j) => some (.ok x, j)
  | (.error e, j) => (b tokens i j).map fun r => (Outcome.instead e r.1, r.2)

variable (a : Attempt σ τ α) (b : Attempt σ τ β) (c : Attempt σ τ γ)

theorem seq_apply (tokens : Array τ) (i : Nat) (j : Journal σ) :
    seq a b tokens i j = (a tokens i j).bind (andThen b tokens) := by
  change (a tokens i j).bind _ = _
  congr 1
  funext ⟨o, j₁⟩
  cases o with
  | error e => rfl
  | ok x =>
    change (b tokens x.next j₁).bind _ = (b tokens x.next j₁).map _
    obtain _ | ⟨e | y, j₂⟩ := b tokens x.next j₁ <;> rfl

theorem alt_apply (b : Attempt σ τ α) (tokens : Array τ) (i : Nat) (j : Journal σ) :
    alt a b tokens i j = (a tokens i j).bind (orElse b tokens i) := by
  change (a tokens i j).bind _ = _
  congr 1
  funext ⟨o, j₁⟩
  cases o with
  | ok x => rfl
  | error e =>
    change (b tokens i j₁).bind _ = (b tokens i j₁).map _
    obtain _ | ⟨f | y, j₂⟩ := b tokens i j₁ <;> rfl

theorem map_apply (f : α → β) (tokens : Array τ) (i : Nat) (j : Journal σ) :
    a.map f tokens i j = (a tokens i j).map fun r => (r.1.map (Output.map f), r.2) := by
  change (a tokens i j).bind _ = _
  obtain _ | ⟨e | x, j₁⟩ := a tokens i j <;> rfl

theorem map_map (f : α → β) (g : β → γ) : (a.map f).map g = a.map (g ∘ f) := by
  funext tokens i j
  rw [map_apply, map_apply, map_apply, Option.map_map]
  simp only [Function.comp_def, Outcome.map_map_output]

theorem map_id : a.map id = a := by
  funext tokens i j
  rw [map_apply]
  obtain _ | ⟨e | x, j₁⟩ := a tokens i j <;> rfl

theorem seq_map (f : β → γ) : seq a (b.map f) = (seq a b).map (Prod.map id f) := by
  funext tokens i j
  rw [seq_apply, map_apply, seq_apply, Option.map_bind]
  congr 1
  funext ⟨o, j₁⟩
  cases o with
  | error e => rfl
  | ok x =>
    simp only [andThen, map_apply, Function.comp_apply, Option.map_map, Function.comp_def,
      Outcome.behind_map]

theorem map_seq (f : α → γ) : seq (a.map f) b = (seq a b).map (Prod.map f id) := by
  funext tokens i j
  rw [seq_apply, map_apply, map_apply, seq_apply, Option.map_bind, Option.bind_map]
  congr 1
  funext ⟨o, j₁⟩
  cases o with
  | error e => rfl
  | ok x =>
    change (b tokens x.next j₁).map _ = ((b tokens x.next j₁).map _).map _
    rw [Option.map_map]
    simp only [Function.comp_def, Outcome.map_behind]

/-- A sequence of three parts may be grouped either way. -/
theorem seq_assoc {b : Attempt σ τ β} (hb : b.Advances) :
    (seq (seq a b) c).map (fun v => (v.1.1, v.1.2, v.2)) = seq a (seq b c) := by
  funext tokens i j
  rw [map_apply, seq_apply, seq_apply, seq_apply, Option.bind_assoc, Option.map_bind]
  congr 1
  funext ⟨o, j₁⟩
  cases o with
  | error e => rfl
  | ok x =>
    simp only [Function.comp_apply, andThen, seq_apply]
    cases h : b tokens x.next j₁ with
    | none => rfl
    | some r =>
      obtain ⟨e | y, j₂⟩ := r
      · rfl
      · have hy : y.next ≤ y.furthest := (hb h).2.1
        change ((c tokens y.next j₂).map _).map _ = ((c tokens y.next j₂).map _).map _
        rw [Option.map_map, Option.map_map]
        simp only [Function.comp_def, Outcome.behind_behind x hy]

/-- A first part that reads nothing and cannot fail may be left out. -/
theorem nothing_seq {a : Attempt σ τ α} (ha : a.Advances) (v : β) :
    seq ((nothing : Attempt σ τ (Match γ)).map fun _ => v) a = a.map (Prod.mk v) := by
  funext tokens i j
  rw [seq_apply, map_apply, map_apply]
  change (a tokens i j).map _ = _
  cases h : a tokens i j with
  | none => rfl
  | some r =>
    obtain ⟨o, j₁⟩ := r
    rw [Option.map_some, Option.map_some]
    exact congrArg (fun o => some (o, j₁)) (Outcome.behind_new (ha h) v)

/-- A payload in front of two lists, which are appended before or after. -/
theorem seq_gather (a : Attempt σ τ (Match α)) {b : Attempt σ τ (List α)} (hb : b.Advances)
    (c : Attempt σ τ (List α)) :
    (seq a ((seq b c).map fun v => v.1 ++ v.2)).map Parser.consMatch =
      (seq ((seq a b).map Parser.consMatch) c).map fun v => v.1 ++ v.2 := by
  rw [seq_map, map_map, ← seq_assoc a c hb, map_map, map_seq, map_map]
  congr 1
  funext ⟨⟨m, xs⟩, ys⟩
  cases m <;> rfl

/-- Alternatives may be grouped either way. -/
theorem alt_assoc (b c : Attempt σ τ α) : alt (alt a b) c = alt a (alt b c) := by
  funext tokens i j
  rw [alt_apply, alt_apply, alt_apply, Option.bind_assoc]
  congr 1
  funext ⟨o, j₁⟩
  cases o with
  | ok x => rfl
  | error e =>
    simp only [orElse, alt_apply]
    cases b tokens i j₁ with
    | none => rfl
    | some r =>
      obtain ⟨f | y, j₂⟩ := r
      · change (c tokens i j₂).map _ = ((c tokens i j₂).map _).map _
        rw [Option.map_map]
        simp only [Function.comp_def, Outcome.instead_instead]
      · rfl

theorem never_alt {a : Attempt σ τ α} (ha : a.Advances) : alt never a = a := by
  funext tokens i j
  rw [alt_apply]
  change (a tokens i j).map _ = _
  cases h : a tokens i j with
  | none => rfl
  | some r =>
    have hi : i ≤ Outcome.reach r.1 := Outcome.le_reach_of_within (ha h)
    rw [Option.map_some, Outcome.instead_of_le hi]

theorem alt_never {a : Attempt σ τ α} (ha : a.Advances) : alt a never = a := by
  funext tokens i j
  rw [alt_apply]
  cases h : a tokens i j with
  | none => rfl
  | some r =>
    obtain ⟨e | x, j₁⟩ := r
    · have hi : i ≤ e.index := (ha h).1
      change some (Outcome.instead e (.error ⟨i⟩), j₁) = _
      rw [Outcome.instead, NoMatch.furthest_eq_mk, Nat.max_eq_left hi]
    · rfl

/-! ### Attempts with the same results -/

/-- Both end or neither does, and they have the same outcome and state, wherever they are tried and
whatever else is in their journals. -/
def Similar (a b : Attempt σ τ α) : Prop :=
  ∀ tokens i (j j' : Journal σ), j.state = j'.state →
    (a tokens i j).map (fun r => (r.1, r.2.state)) = (b tokens i j').map fun r => (r.1, r.2.state)

theorem similar_of_mirrors {a b : Attempt σ τ α} (hab : ∀ tokens, Mirrors Eq Eq tokens tokens a b)
    (hba : ∀ tokens, Mirrors Eq Eq tokens tokens b a) : Similar a b := by
  intro tokens i j j' hj
  have hto := (hab tokens (rfl : i = i)).mono fun _ _ h => (Outcome.aligned_eq_iff.1 h).symm
  exact (hto.map_eq (f := id) (hba tokens rfl) hj).symm

namespace Similar

variable {a b c : Attempt σ τ α}

theorem trans (hab : Similar a b) (hbc : Similar b c) : Similar a c := fun tokens i j _ hj =>
  (hab tokens i j j rfl).trans (hbc tokens i j _ hj)

theorem mirrors (h : Similar a b) (tokens : Array τ) : Mirrors Eq Eq tokens tokens a b := by
  rintro i _ rfl j j' hj o j₁ ho
  have hview := h tokens i j j' hj
  rw [ho, Option.map_some, eq_comm, Option.map_eq_some_iff] at hview
  obtain ⟨⟨o', j₁'⟩, hb, heq⟩ := hview
  obtain ⟨rfl, hstate⟩ := Prod.mk.inj heq
  exact ⟨o', j₁', hb, Outcome.aligned_eq_iff.2 rfl, hstate.symm⟩

theorem symm (h : Similar a b) : Similar b a := fun tokens i j j' hj =>
  (h tokens i j' j hj.symm).symm

theorem seq {a a' : Attempt σ τ α} {b b' : Attempt σ τ β} (ha : Similar a a') (hb : Similar b b') :
    Similar (seq a b) (seq a' b') :=
  similar_of_mirrors
    (fun tokens => (ha.mirrors tokens).seq (.refl tokens) (hb.mirrors tokens))
    fun tokens => (ha.symm.mirrors tokens).seq (.refl tokens) (hb.symm.mirrors tokens)

theorem alt {a' b' : Attempt σ τ α} (ha : Similar a a') (hb : Similar b b') :
    Similar (alt a b) (alt a' b') :=
  similar_of_mirrors
    (fun tokens => (ha.mirrors tokens).alt (.refl tokens) (hb.mirrors tokens))
    fun tokens => (ha.symm.mirrors tokens).alt (.refl tokens) (hb.symm.mirrors tokens)

theorem map {a' : Attempt σ τ α} (ha : Similar a a') (f : α → β) : Similar (a.map f) (a'.map f) :=
  similar_of_mirrors
    (fun tokens => (ha.mirrors tokens).transform fun _ _ _ hs => ⟨rfl, hs⟩)
    fun tokens => (ha.symm.mirrors tokens).transform fun _ _ _ hs => ⟨rfl, hs⟩

end Similar

/-- The attempt ends with the same outcome in every state, and leaves the state alone. -/
def ReadsOnly (a : Attempt σ τ α) : Prop :=
  ∀ ⦃tokens i j o j₁⦄, a tokens i j = some (o, j₁) →
    ∀ j', ∃ j₁', a tokens i j' = some (o, j₁') ∧ j₁'.state = j'.state

theorem ReadsOnly.similar {a : Attempt σ τ α} (ha : a.ReadsOnly) : Similar a a := by
  have hmirrors (tokens : Array τ) : Mirrors Eq Eq tokens tokens a a := by
    rintro i _ rfl j j' hj o j₁ ho
    obtain ⟨j₂, ho', hstate⟩ := ha ho j
    obtain ⟨j₁', ho'', hstate'⟩ := ha ho j'
    rw [ho] at ho'
    cases ho'
    exact ⟨o, j₁', ho'', Outcome.aligned_eq_iff.2 rfl, by rw [hstate, hstate', hj]⟩
  exact similar_of_mirrors hmirrors hmirrors

/-- **Distributivity.** The first part may be tried once for both alternatives, or once for each. -/
theorem seq_alt {a : Attempt σ τ α} (ha : a.ReadsOnly) {b c : Attempt σ τ β} (hb : Similar b b)
    (hc : Similar c c) : Similar (seq a (alt b c)) (alt (seq a b) (seq a c)) := by
  intro tokens i j j' hj
  have hself := (ha.similar.seq hb).alt (ha.similar.seq hc)
  rw [← hself tokens i j j' hj, seq_apply, alt_apply, seq_apply a b]
  cases h : a tokens i j with
  | none => rfl
  | some r =>
    obtain ⟨e | x, j₁⟩ := r
    · -- the second try fails where the first did
      obtain ⟨j₂, h₂, hstate⟩ := ha h j₁
      change some (Except.error e, j₁.state) = ((seq a c tokens i j₁).map _).map _
      rw [seq_apply, h₂]
      change _ = some (Outcome.instead e (Except.error e), j₂.state)
      rw [Outcome.instead_of_le (Nat.le_refl e.index), hstate]
    · change ((alt b c tokens x.next j₁).map _).map _ =
        (((b tokens x.next j₁).map _).bind _).map _
      rw [alt_apply]
      cases b tokens x.next j₁ with
      | none => rfl
      | some r =>
        obtain ⟨f | y, j₂⟩ := r
        · -- the second try finds the same match and hands on the same state
          obtain ⟨j₃, h₃, hstate⟩ := ha h j₂
          change (((c tokens x.next j₂).map _).map _).map _ = ((seq a c tokens i j₂).map _).map _
          rw [seq_apply, h₃]
          change _ = (((c tokens x.next j₃).map _).map _).map _
          have hview := congrArg
            (Option.map fun u => (Outcome.behind x (Outcome.instead f u.1), u.2))
            (hc tokens x.next j₂ j₃ hstate.symm)
          simpa only [Option.map_map, Function.comp_def, Outcome.behind_instead] using hview
        · rfl

end Attempt

/-! ### Parsers -/

namespace Parser

variable {n : Nat} {ty : Fin n → Type} (rules : (r : Fin n) → Parser σ τ ty (ty r))

/-- However deep references are unfolded, both parsers end or neither does, with the same outcome
and in the same state. -/
def SameResults (p q : Parser σ τ ty α) : Prop :=
  ∀ depth tokens i j,
    (p.eval rules depth tokens i j).map (fun r => (r.1, r.2.state)) =
      (q.eval rules depth tokens i j).map fun r => (r.1, r.2.state)

variable {rules}

/-- Such parsers agree as whole parses, for which the depth is chosen. -/
theorem SameResults.attempt {p q : Parser σ τ ty α} (h : SameResults rules p q) (tokens : Array τ)
    (i : Nat) (j : Journal σ) :
    (p.attempt rules tokens i j).map (fun r => (r.1, r.2.state)) =
      (q.attempt rules tokens i j).map fun r => (r.1, r.2.state) :=
  h _ tokens i j

theorem sameResults_of_similar {p q : Parser σ τ ty α}
    (h : ∀ depth, Attempt.Similar (p.eval rules depth) (q.eval rules depth)) :
    SameResults rules p q := fun depth tokens i j => h depth tokens i j j rfl

/-- The results of a parser do not depend on its place. -/
theorem similar_evalAt (depth : Nat) (p : Parser σ τ ty α) (place place' : Place) :
    Attempt.Similar (p.evalWith (ruleAttempt rules depth) place)
      (p.evalWith (ruleAttempt rules depth) place') := by
  have h (place place' : Place) (tokens : Array τ) := mirrors_evalAt (Alignment.refl tokens)
    (fun r => (rules r).carries_eq) (Nat.le_refl depth) p p.carries_eq place place'
  exact Attempt.similar_of_mirrors (h place place') (h place' place)

theorem readsOnly_evalAt (hrules : ∀ r, (rules r).IsPure) (depth : Nat) {p : Parser σ τ ty α}
    (hp : p.IsPure) (place : Place) :
    (p.evalWith (ruleAttempt rules depth) place).ReadsOnly := by
  intro tokens i j o j₁ ho j'
  let T : σ → σ → Prop := fun s s' => s = j.state ∧ s' = j'.state
  have hj : T j.state j'.state := ⟨rfl, rfl⟩
  obtain ⟨o', j₁', ho', haligned, -, hstate⟩ := mirrors_evalAt (Alignment.refl tokens)
    (fun r => (hrules r).carries T) (Nat.le_refl depth) p (hp.carries T) place place rfl hj ho
  obtain rfl := Outcome.aligned_eq_iff.1 haligned
  exact ⟨j₁', ho', hstate⟩

theorem advances_evalAt (depth : Nat) (p : Parser σ τ ty α) (place : Place) :
    (p.evalWith (ruleAttempt rules depth) place).Advances :=
  advances_evalWith (advances_ruleAttempt rules depth) p place

theorem similar_altList_append (depth : Nat) (ps qs : List (Parser σ τ ty α))
    (place place' : Place) :
    Attempt.Similar ((altList (ps ++ qs)).evalWith (ruleAttempt rules depth) place)
      (((altList ps).alt (altList qs)).evalWith (ruleAttempt rules depth) place') := by
  induction ps generalizing place place' with
  | nil =>
    change Attempt.Similar _ (Attempt.alt Attempt.never _)
    rw [Attempt.never_alt (advances_evalAt depth _ _)]
    exact similar_evalAt depth _ _ _
  | cons p ps ih =>
    change Attempt.Similar (Attempt.alt _ _) (Attempt.alt (Attempt.alt _ _) _)
    rw [Attempt.alt_assoc]
    refine (similar_evalAt depth p _ _).alt ((ih (.right :: place) place').trans ?_)
    exact (similar_evalAt depth _ _ _).alt (similar_evalAt depth _ _ _)

theorem similar_seqList_append (depth : Nat) (ps qs : List (Parser σ τ ty (Match α)))
    (place place' : Place) :
    Attempt.Similar ((seqList (ps ++ qs)).evalWith (ruleAttempt rules depth) place)
      ((((seqList ps).seq (seqList qs)).map fun v => v.1 ++ v.2).evalWith
        (ruleAttempt rules depth) place') := by
  induction ps generalizing place place' with
  | nil =>
    change Attempt.Similar _
      (Attempt.map (Attempt.seq (Attempt.map Attempt.nothing fun _ => []) _) _)
    rw [Attempt.nothing_seq (advances_evalAt depth _ _), Attempt.map_map]
    change Attempt.Similar _ (Attempt.map _ id)
    rw [Attempt.map_id]
    exact similar_evalAt depth _ _ _
  | cons p ps ih =>
    change Attempt.Similar (Attempt.map (Attempt.seq _ _) consMatch)
      (Attempt.map (Attempt.seq (Attempt.map (Attempt.seq _ _) consMatch) _) _)
    rw [← Attempt.seq_gather _ (advances_evalAt depth _ _)]
    refine ((similar_evalAt depth p _ _).seq ((ih (.right :: place) place').trans ?_)).map _
    exact ((similar_evalAt depth _ _ _).seq (similar_evalAt depth _ _ _)).map _

/-! ### Lists in one pass -/

/-- One pass over a list of parsers: the index it has come to, the furthest failure so far, and the
values so far, latest first. -/
def inOnePass (rules : (r : Fin n) → Place → Attempt σ τ (ty r)) (tokens : Array τ) :
    List (Parser σ τ ty (Match α)) → Place → Nat → Nat → List α →
      StateT (Journal σ) Option (Outcome (List α))
  | [], _, i, far, values => return .ok ((Output.new values.reverse i).reached far)
  | p :: ps, place, i, far, values => do
    match ← p.evalWith rules (.left :: place) tokens i with
    | .error e => return .error (e.furthest ⟨far⟩)
    | .ok x =>
      inOnePass rules tokens ps (.right :: place) x.next (max far x.furthest)
        (consMatch (x.value, values))

theorem reverse_append_consMatch (values : List α) (m : Match α) (vs : List α) :
    (consMatch (m, values)).reverse ++ vs = values.reverse ++ consMatch (m, vs) := by
  cases m with
  | empty => rfl
  | value v => simp only [consMatch, List.reverse_cons, List.append_assoc, List.singleton_append]

/-- What a pass has gathered stands in front of the rest of the list as a match of its own. -/
theorem inOnePass_eq_behind (rules : (r : Fin n) → Place → Attempt σ τ (ty r)) (tokens : Array τ)
    (ps : List (Parser σ τ ty (Match α))) (place : Place) (i far : Nat) (values : List α)
    (j : Journal σ) :
    inOnePass rules tokens ps place i far values j =
      ((seqList ps).evalWith rules place tokens i j).map fun r =>
        ((Outcome.behind ⟨values, i, far⟩ r.1).map (Output.map fun v => v.1.reverse ++ v.2),
          r.2) := by
  induction ps generalizing place i far values j with
  | nil =>
    change some (Except.ok (Output.mk values.reverse i (max i far)), j) =
      some (Except.ok (Output.mk (values.reverse ++ []) i (max (max i far) i)), j)
    rw [List.append_nil, Nat.max_comm (max i far), ← Nat.max_assoc, Nat.max_self]
  | cons p ps ih =>
    change (p.evalWith rules (.left :: place) tokens i j).bind _ =
      (Attempt.map (Attempt.seq _ _) consMatch tokens i j).map _
    rw [Attempt.map_apply, Attempt.seq_apply]
    obtain _ | ⟨e | x, j₁⟩ := p.evalWith rules (.left :: place) tokens i j
    · rfl
    · rfl
    · change inOnePass rules tokens ps _ x.next _ _ j₁ =
        ((((seqList ps).evalWith rules (.right :: place) tokens x.next j₁).map _).map _).map _
      rw [ih, Option.map_map, Option.map_map]
      congr 1
      funext ⟨o, j₂⟩
      cases o with
      | ok y =>
        simp only [Outcome.behind, Except.map, Output.map, Output.reached, Output.new,
          Function.comp_apply, reverse_append_consMatch, Prod.mk.injEq, Except.ok.injEq,
          Output.mk.injEq, true_and, and_true]
        omega
      | error f =>
        simp only [Outcome.behind, Except.map, NoMatch.furthest_eq_mk, Function.comp_apply,
          Prod.mk.injEq, Except.error.injEq, NoMatch.mk.injEq, and_true]
        omega

/-- **A list of parsers in order is one pass over it.** The pass starts without values and with its
own start as the furthest index, which no part falls short of. -/
theorem evalWith_seqList {rules : (r : Fin n) → Place → Attempt σ τ (ty r)}
    (hadv : ∀ r place, (rules r place).Advances) (ps : List (Parser σ τ ty (Match α)))
    (place : Place) (tokens : Array τ) (i : Nat) (j : Journal σ) :
    (seqList ps).evalWith rules place tokens i j = inOnePass rules tokens ps place i i [] j := by
  rw [inOnePass_eq_behind]
  cases h : (seqList ps).evalWith rules place tokens i j with
  | none => rfl
  | some r =>
    obtain ⟨o, j₁⟩ := r
    have hbehind := Outcome.behind_new (advances_evalWith hadv _ place h) ([] : List α)
    rw [Option.map_some, show (⟨[], i, i⟩ : Output (List α)) = .new [] i from rfl, hbehind,
      Outcome.map_map_output]
    cases o <;> rfl

/-! ### The laws -/

theorem alt_assoc (p q r : Parser σ τ ty α) :
    SameResults rules ((p.alt q).alt r) (p.alt (q.alt r)) := by
  refine sameResults_of_similar fun depth => ?_
  change Attempt.Similar (Attempt.alt (Attempt.alt _ _) _) (Attempt.alt _ (Attempt.alt _ _))
  rw [Attempt.alt_assoc]
  exact (similar_evalAt depth p _ _).alt
    ((similar_evalAt depth q _ _).alt (similar_evalAt depth r _ _))

theorem never_alt (p : Parser σ τ ty α) : SameResults rules (never.alt p) p := by
  refine sameResults_of_similar fun depth => ?_
  change Attempt.Similar (Attempt.alt Attempt.never _) _
  rw [Attempt.never_alt (advances_evalAt depth p _)]
  exact similar_evalAt depth p _ _

theorem alt_never (p : Parser σ τ ty α) : SameResults rules (p.alt never) p := by
  refine sameResults_of_similar fun depth => ?_
  change Attempt.Similar (Attempt.alt _ Attempt.never) _
  rw [Attempt.alt_never (advances_evalAt depth p _)]
  exact similar_evalAt depth p _ _

theorem seq_assoc (p : Parser σ τ ty α) (q : Parser σ τ ty β) (r : Parser σ τ ty γ) :
    SameResults rules (((p.seq q).seq r).map fun v => (v.1.1, v.1.2, v.2)) (p.seq (q.seq r)) := by
  refine sameResults_of_similar fun depth => ?_
  change Attempt.Similar
    (Attempt.map (Attempt.seq (Attempt.seq _ _) _) fun v => (v.1.1, v.1.2, v.2)) _
  rw [Attempt.seq_assoc _ _ (advances_evalAt depth q _)]
  exact (similar_evalAt depth p _ _).seq
    ((similar_evalAt depth q _ _).seq (similar_evalAt depth r _ _))

theorem seq_alt (hrules : ∀ r, (rules r).IsPure) {p : Parser σ τ ty α} (hp : p.IsPure)
    (q r : Parser σ τ ty β) :
    SameResults rules (p.seq (q.alt r)) ((p.seq q).alt (p.seq r)) := by
  refine sameResults_of_similar fun depth => ?_
  refine (Attempt.seq_alt (readsOnly_evalAt hrules depth hp [.left])
    (similar_evalAt depth q _ _) (similar_evalAt depth r _ _)).trans ?_
  exact ((similar_evalAt depth p _ _).seq (similar_evalAt depth q _ _)).alt
    ((similar_evalAt depth p _ _).seq (similar_evalAt depth r _ _))

/-- **Laws of sequence and choice.** With indices and states compared as well as values:
alternatives may be regrouped, and a parser that never matches may be left out on either side; a
list of alternatives may be cut anywhere; sequences may be regrouped up to the pairing of their
values; a list of parsers in order may be cut anywhere, with the two lists of values appended; and a
first part with pure actions may be shared by two alternatives or repeated in both. -/
theorem combinator_laws (rules : (r : Fin n) → Parser σ τ ty (ty r)) (p q r : Parser σ τ ty α)
    (s : Parser σ τ ty β) (t : Parser σ τ ty γ) (ps qs : List (Parser σ τ ty α))
    (ms ns : List (Parser σ τ ty (Match α))) :
    SameResults rules ((p.alt q).alt r) (p.alt (q.alt r)) ∧
    SameResults rules (never.alt p) p ∧
    SameResults rules (p.alt never) p ∧
    SameResults rules (altList (ps ++ qs)) ((altList ps).alt (altList qs)) ∧
    SameResults rules (((p.seq s).seq t).map fun v => (v.1.1, v.1.2, v.2)) (p.seq (s.seq t)) ∧
    SameResults rules (seqList (ms ++ ns))
      (((seqList ms).seq (seqList ns)).map fun v => v.1 ++ v.2) ∧
    ((∀ r, (rules r).IsPure) → s.IsPure →
      SameResults rules (s.seq (p.alt q)) ((s.seq p).alt (s.seq q))) :=
  ⟨alt_assoc p q r, never_alt p, alt_never p,
    sameResults_of_similar fun depth => similar_altList_append depth ps qs [] [],
    seq_assoc p s t,
    sameResults_of_similar fun depth => similar_seqList_append depth ms ns [] [],
    fun hrules hs => seq_alt hrules hs p q⟩

/-- Bracketed groups in front of an `x` or a `y`. On `(()y` there are no groups, and nothing else is
at the start either; but both ways of writing it fail at index 3, where a bracket is missing. -/
theorem combinator_laws_unclosed_group :
    (((rule 0).seq ((single 'x').alt (single 'y'))).attempt bracketGroups
      #['(', '(', ')', 'y'] 0 (.new ())).map (fun r => (r.1, r.2.state)) =
        some (.error ⟨3⟩, ()) ∧
    ((((rule 0).seq (single 'x')).alt ((rule 0).seq (single 'y'))).attempt bracketGroups
      #['(', '(', ')', 'y'] 0 (.new ())).map (fun r => (r.1, r.2.state)) =
        some (.error ⟨3⟩, ()) := by
  have hrun : (((rule 0).seq ((single 'x').alt (single 'y'))).attempt bracketGroups
      #['(', '(', ')', 'y'] 0 (.new ())).map (fun r => (r.1, r.2.state)) =
        some (.error ⟨3⟩, ()) := by decide +kernel
  have hlaw := (combinator_laws bracketGroups (single 'x') (single 'y') never (rule 0) (rule 0)
    [] [] [] []).2.2.2.2.2.2 isPure_bracketGroups (isPure_rule 0)
  exact ⟨hrun, (hlaw.attempt _ 0 _).symm.trans hrun⟩

end Parser

end RegArith
