import RegArith.Proofs.Parsing.Cells
import RegArith.Proofs.Parsing.Depth

/-!
# One parser, many runs

A parser can be used again and again, and its references keep what was built for them. Nothing of
that shows in a result: a run gives what it would give if the parser had just been made, and its
actions find the same state. Neither do traces show, wherever they stand. What is left of the
earlier runs is that references which have been used are not built again. If actions only compute,
so that a run which repeats an earlier one finds what that one found, it builds nothing.

The reason is that a run visits places, and which places it visits is decided by the parser, the
tokens and the state of the actions. The journal that a run leaves is the one it got, after visits
to these places, with the state that the actions leave and with some more text in the log.

## Main definitions

* `Journal.after` — a journal after visits to places
* `Parser.withoutTraces` — a parser that prints nothing
* `Attempt.Uniform` — a run that ends with one result from all journals, and visits the same places

## Main results

* `Parser.find_eq_find_new` — a parser that was used, and one that has just been made
* `Parser.none_or_uniform` — a run of a parser with pure actions is uniform or never ends
* `Parser.findEach_transparent` — runs of one parser, with what was built for them
-/

namespace RegArith

variable {σ τ α : Type}

/-! ### Journals after visits -/

namespace Journal

/-- The journal after visits to the places, first place first, with the given state and log. -/
def after (j : Journal σ) (places : List Place) (s : σ) (text : String) : Journal σ :=
  { places.foldl visit j with state := s, log := text }

theorem after_visit (j : Journal σ) (places : List Place) (s : σ) (text : String) (place : Place) :
    (j.after places s text).visit place = j.after (places ++ [place]) s text := by
  rw [after, after, List.foldl_append, List.foldl_cons, List.foldl_nil]
  generalize places.foldl visit j = j'
  unfold visit
  split <;> rfl

theorem after_cons (j : Journal σ) (place : Place) (places : List Place) (s : σ) (text : String) :
    j.after (place :: places) s text = (j.visit place).after places s text := rfl

theorem mem_built_after {j : Journal σ} {places : List Place} {s : σ} {text : String} {q : Place} :
    q ∈ (j.after places s text).built ↔ q ∈ places ∨ q ∈ j.built := by
  induction places generalizing j with
  | nil => simp [after]
  | cons place places ih => rw [after_cons, ih, mem_built_visit_iff, List.mem_cons]; tauto

theorem builds_le_builds_after (j : Journal σ) (places : List Place) (s : σ) (text : String) :
    j.builds ≤ (j.after places s text).builds := by
  induction places generalizing j with
  | nil => exact Nat.le_refl _
  | cons place places ih => exact (j.builds_le_builds_visit place).trans (ih (j.visit place))

/-- Nothing is built at places that were built before. -/
theorem builds_after_of_subset {j : Journal σ} {places : List Place} {s : σ} {text : String}
    (h : ∀ q ∈ places, q ∈ j.built) : (j.after places s text).builds = j.builds := by
  induction places with
  | nil => rfl
  | cons place places ih =>
    rw [List.forall_mem_cons] at h
    rw [after_cons, visit, if_pos h.1, ih h.2]

/-- What is built has been constructed, and once. -/
structure Consistent (j : Journal σ) : Prop where
  mem_iff : ∀ place, place ∈ j.built ↔ place ∈ j.constructions
  nodup : j.constructions.Nodup

theorem consistent_new (s : σ) : (new s).Consistent where
  mem_iff _ := iff_of_false Std.HashSet.not_mem_empty List.not_mem_nil
  nodup := List.nodup_nil

theorem Consistent.visit {j : Journal σ} (h : j.Consistent) (place : Place) :
    (j.visit place).Consistent := by
  unfold Journal.visit
  split
  · exact h
  · next hplace =>
    refine ⟨fun q => ?_, List.nodup_cons.2 ⟨fun hmem => hplace ((h.mem_iff place).2 hmem), h.nodup⟩⟩
    rw [Std.HashSet.mem_insert, beq_iff_eq, List.mem_cons, h.mem_iff, eq_comm]

theorem Consistent.after {j : Journal σ} (h : j.Consistent) (places : List Place) (s : σ)
    (text : String) : (j.after places s text).Consistent := by
  induction places generalizing j with
  | nil => exact ⟨h.mem_iff, h.nodup⟩
  | cons place places ih => exact ih (h.visit place)

end Journal

/-- The action leads from states in `S` to states in `S`. -/
def StaysIn (S : Set σ) (α β : Type) (action : α → StateM σ β) : Prop :=
  ∀ v, ∀ s ∈ S, ((action v).run s).2 ∈ S

/-- Both journals come from the ones at the start by visits to the places, and they have the same
state, which is in `S`. -/
def Visited (S : Set σ) (start start' : Journal σ) (places : List Place) (j j' : Journal σ) :
    Prop :=
  ∃ s ∈ S, (∃ text, j = start.after places s text) ∧ ∃ text, j' = start'.after places s text

namespace Visited

variable {S : Set σ} {start start' j j' : Journal σ} {places : List Place}

theorem ignoresLog : IgnoresLog (Visited S start start') where
  left _ h := by
    obtain ⟨s, hs, ⟨text, rfl⟩, hright⟩ := h
    exact ⟨s, hs, ⟨_, rfl⟩, hright⟩
  right _ h := by
    obtain ⟨s, hs, hleft, text, rfl⟩ := h
    exact ⟨s, hs, hleft, _, rfl⟩

theorem actAlike {β : Type} {action : α → StateM σ β} (h : StaysIn S α β action) :
    ActAlike (Visited S start start') action action := by
  rintro v places j j' ⟨s, hs, ⟨text, rfl⟩, text', rfl⟩
  exact ⟨rfl, _, h v s hs, ⟨text, rfl⟩, text', rfl⟩

theorem nil (hmem : start.state ∈ S) (heq : start'.state = start.state) :
    Visited S start start' [] start start' :=
  ⟨start.state, hmem, ⟨start.log, rfl⟩, start'.log, by rw [← heq]; rfl⟩

theorem visit (h : Visited S start start' places j j') (place : Place) :
    Visited S start start' (places ++ [place]) (j.visit place) (j'.visit place) := by
  obtain ⟨s, hs, ⟨text, rfl⟩, text', rfl⟩ := h
  exact ⟨s, hs, ⟨text, start.after_visit places s text place⟩, text',
    start'.after_visit places s text' place⟩

theorem state_eq (h : Visited S start start' places j j') : j.state = j'.state := by
  obtain ⟨s, -, ⟨text, rfl⟩, text', rfl⟩ := h
  rfl

theorem builds_eq (h : Visited S start start places j j') : j.builds = j'.builds := by
  obtain ⟨s, -, ⟨text, rfl⟩, text', rfl⟩ := h
  rfl

end Visited

/-! ### Traces -/

namespace Parser

variable {n : Nat} {ty : Fin n → Type}

/-- The parser with all its traces taken away. -/
def withoutTraces : {α : Type} → Parser σ τ ty α → Parser σ τ ty α
  | _, satisfy pred => satisfy pred
  | _, nothing => nothing
  | _, never => never
  | _, endOfInput => endOfInput
  | _, seq p q => p.withoutTraces.seq q.withoutTraces
  | _, alt p q => p.withoutTraces.alt q.withoutTraces
  | _, transform p action => p.withoutTraces.transform action
  | _, star p => p.withoutTraces.star
  | _, plus p => p.withoutTraces.plus
  | _, rule r => rule r
  | _, guard p pred => p.withoutTraces.guard pred
  | _, diff p q => p.withoutTraces.diff q.withoutTraces
  | _, followedBy p q => p.withoutTraces.followedBy q.withoutTraces
  | _, notFollowedBy p q => p.withoutTraces.notFollowedBy q.withoutTraces
  | _, trace p _ _ => p.withoutTraces

section

variable {rules : (r : Fin n) → Parser σ τ ty (ty r)} {tokens : Array τ} {S : Set σ}
  {start start' : Journal σ}

/-- Without traces a parser visits the same places and finds the same, if its rules do. -/
theorem coupled_withoutTraces_evalWith {meaning meaning' : (r : Fin n) → Place → Attempt σ τ (ty r)}
    (hrules : ∀ r place, Attempt.Coupled (Visited S start start') [] tokens (meaning r place)
      (meaning' r place))
    (p : Parser σ τ ty α) (hp : p.AllActions (StaysIn S)) (place : Place) :
    Attempt.Coupled (Visited S start start') [] tokens (p.evalWith meaning place)
      (p.withoutTraces.evalWith meaning' place) := by
  induction p generalizing place with
  | satisfy pred => exact .satisfy pred
  | nothing => exact .nothing
  | never => exact .never
  | endOfInput => exact .endOfInput
  | seq p q ihp ihq => exact (ihp hp.1 _).seq (ihq hp.2 _)
  | alt p q ihp ihq => exact (ihp hp.1 _).alt (ihq hp.2 _)
  | transform p action ih => exact (ih hp.1 _).transform (Visited.actAlike hp.2)
  | star p ih => exact (ih hp _).star
  | plus p ih => exact (ih hp _).plus
  | rule r =>
    intro i v _ j j' hj
    exact ((hrules r (.inside :: place) i).mono (List.nil_prefix)).after (List.prefix_append v _)
      (hj.visit place)
  | guard p pred ih => exact (ih hp _).guard pred
  | diff p q ihp ihq => exact (ihp hp.1 _).diff (ihq hp.2 _)
  | followedBy p q ihp ihq => exact (ihp hp.1 _).followedBy (ihq hp.2 _)
  | notFollowedBy p q ihp ihq => exact (ihp hp.1 _).notFollowedBy (ihq hp.2 _)
  | trace p name description ih => exact (ih hp _).traced_left Visited.ignoresLog _

theorem coupled_withoutTraces_ruleAttempt (hrules : ∀ r, (rules r).AllActions (StaysIn S))
    (depth : Nat) (r : Fin n) (place : Place) :
    Attempt.Coupled (Visited S start start') [] tokens (ruleAttempt rules depth r place)
      (ruleAttempt (fun r => (rules r).withoutTraces) depth r place) := by
  induction depth generalizing r place with
  | zero => exact fun _ _ _ _ _ _ => .none
  | succ depth ih => exact coupled_withoutTraces_evalWith ih (rules r) (hrules r) place

theorem coupled_withoutTraces (hrules : ∀ r, (rules r).AllActions (StaysIn S))
    {p : Parser σ τ ty α} (hp : p.AllActions (StaysIn S)) (tokens : Array τ) :
    Attempt.Coupled (Visited S start start') [] tokens (p.attempt rules)
      (p.withoutTraces.attempt fun r => (rules r).withoutTraces) :=
  fun i => coupled_withoutTraces_evalWith (coupled_withoutTraces_ruleAttempt hrules _) p hp [] i

end

/-- Of all states nothing is asked. -/
theorem staysIn_univ (p : Parser σ τ ty α) : p.AllActions (StaysIn Set.univ) :=
  allActions_of_forall (fun _ _ _ _ _ _ => trivial) p

theorem IsPure.staysIn {p : Parser σ τ ty α} (hp : p.IsPure) (S : Set σ) :
    p.AllActions (StaysIn S) := by
  refine AllActions.mono ?_ hp
  rintro α β action ⟨f, hf⟩ v s hs
  rw [hf v]
  exact hs

variable {rules rules' : (r : Fin n) → Parser σ τ ty (ty r)} {p p' : Parser σ τ ty α}

/-- Whatever the actions do, runs with and without traces can be compared. -/
theorem coupled_withoutTraces_of_any (rules : (r : Fin n) → Parser σ τ ty (ty r))
    (p : Parser σ τ ty α) (start start' : Journal σ) (tokens : Array τ) :
    Attempt.Coupled (Visited Set.univ start start') [] tokens (p.attempt rules)
      (p.withoutTraces.attempt fun r => (rules r).withoutTraces) :=
  coupled_withoutTraces (fun r => (rules r).staysIn_univ) p.staysIn_univ tokens

/-- **A parser that has been used** does what it does when it has just been made. -/
theorem find_eq_find_new (rules : (r : Fin n) → Parser σ τ ty (ty r)) (p : Parser σ τ ty α)
    (mode : Mode) (tokens : Array τ) (j : Journal σ) :
    ((p.attempt rules).find mode tokens j).map (fun r => (r.1, r.2.state)) =
      ((p.attempt rules).find mode tokens (.new j.state)).map fun r => (r.1, r.2.state) := by
  have h (start : Journal σ) (hstart : start.state = j.state) :=
    ((coupled_withoutTraces_of_any rules p start (.new j.state) tokens).find mode).map_eq
      Visited.state_eq (Visited.nil trivial hstart.symm)
  exact (h j rfl).trans (h (.new j.state) rfl).symm

theorem findEach_withoutTraces (rules : (r : Fin n) → Parser σ τ ty (ty r)) (p : Parser σ τ ty α)
    (runs : List (Mode × Array τ)) (j : Journal σ) :
    ((p.attempt rules).findEach runs j).map (fun r => (r.1, r.2.state, r.2.builds)) =
      ((p.withoutTraces.attempt fun r => (rules r).withoutTraces).findEach runs j).map
        fun r => (r.1, r.2.state, r.2.builds) := by
  have hview {places : List Place} {x y : Journal σ} (h : Visited Set.univ j j places x y) :
      (x.state, x.builds) = (y.state, y.builds) := Prod.ext h.state_eq h.builds_eq
  have hruns := Attempt.Coupled.findEach (coupled_withoutTraces_of_any rules p j j) runs
  have hmap := hruns.map_eq hview (Visited.nil trivial rfl)
  exact hmap

/-- **Traces do not show** in the results of any runs, and they do not change how much is built:
parsers and rules may differ in them. -/
theorem findEach_eq_of_withoutTraces_eq
    (hrules : ∀ r, (rules' r).withoutTraces = (rules r).withoutTraces)
    (hp : p'.withoutTraces = p.withoutTraces) (runs : List (Mode × Array τ)) (j : Journal σ) :
    ((p'.attempt rules').findEach runs j).map (fun r => (r.1, r.2.state, r.2.builds)) =
      ((p.attempt rules).findEach runs j).map fun r => (r.1, r.2.state, r.2.builds) := by
  rw [findEach_withoutTraces rules' p', findEach_withoutTraces rules p, hp, funext hrules]

/-- The journal that one or more runs leave. -/
theorem exists_after {S : Set σ} {start start' j : Journal σ} {γ : Type}
    {x y : StateT (Journal σ) Option γ} {r : γ} (hxy : Coupled (Visited S start start') [] x y)
    (hstart : Visited S start start' [] start start') (hx : x start = some (r, j)) :
    ∃ places s text, j = start.after places s text := by
  have hends := hxy (List.prefix_refl []) hstart
  rw [hx] at hends
  generalize y start' = q at hends
  cases hends with
  | some h =>
    obtain ⟨-, places, -, s, -, ⟨text, hj⟩, -⟩ := h
    exact ⟨places, s, text, hj⟩

theorem builds_le_of_find {mode : Mode} {tokens : Array τ} {j j' : Journal σ}
    {result : Except NoMatch (List (Output α))}
    (h : (p.attempt rules).find mode tokens j = some (result, j')) : j.builds ≤ j'.builds := by
  obtain ⟨places, s, text, rfl⟩ := exists_after
    ((coupled_withoutTraces_of_any rules p j j tokens).find mode) (Visited.nil trivial rfl) h
  exact j.builds_le_builds_after places s text

theorem nodup_constructions_of_findEach {s : σ} {runs : List (Mode × Array τ)}
    {results : List (Except NoMatch (List (Output α)))} {j : Journal σ}
    (h : (p.attempt rules).findEach runs (.new s) = some (results, j)) : j.constructions.Nodup := by
  obtain ⟨places, s', text, rfl⟩ := exists_after (Attempt.Coupled.findEach
    (coupled_withoutTraces_of_any rules p (.new s) (.new s)) runs) (Visited.nil trivial rfl) h
  exact ((Journal.consistent_new s).after places s' text).nodup

/-- **In memory** runs end with the same results and states. No reference calls for its rule twice,
and there are as many calls as the journal counts. -/
theorem findEach_inMemory (rules : (r : Fin n) → Parser σ τ ty (ty r)) (p : Parser σ τ ty α) (s : σ)
    (runs : List (Mode × Array τ)) :
    Option.Rel (fun r c => r.1 = c.1 ∧ r.2.state = c.2.state.state ∧ c.2.state.calls.Nodup ∧
        c.2.state.calls.length = r.2.builds)
      ((p.attempt rules).findEach runs (.new s))
      ((p.inMemory rules).findEach runs (.new (.new s p.cellCount))) := by
  have hnodup {results j} (h : (p.attempt rules).findEach runs (.new s) = some (results, j)) :=
    nodup_constructions_of_findEach h
  have hmemory := Attempt.Coupled.findEach (coupled_inMemory rules p) runs
    (List.prefix_refl _) (Represents.new rules p s)
  generalize (p.attempt rules).findEach runs (.new s) = x at hnodup hmemory ⊢
  generalize (p.inMemory rules).findEach runs (.new (.new s p.cellCount)) = y at hmemory ⊢
  cases hmemory with
  | none => exact .none
  | some h =>
    obtain ⟨hresults, refs, -, hrep⟩ := h
    exact .some ⟨hresults, hrep.state_eq.symm, hrep.nodup_calls (hnodup rfl), hrep.length_calls⟩

end Parser

/-! ### Runs that do not depend on the journal -/

namespace Attempt

/-- From every journal with the state `s` the run ends with this result, after visits to these
places, and leaves the state as it is. -/
def Uniform (a : Attempt σ τ α) (s : σ) (run : Mode × Array τ)
    (result : Except NoMatch (List (Output α))) (used : Set Place) : Prop :=
  ∀ j, j.state = s → ∃ places text, (∀ q, q ∈ places ↔ q ∈ used) ∧
    a.find run.1 run.2 j = some (result, j.after places s text)

variable {a : Attempt σ τ α} {s : σ} {run : Mode × Array τ}
  {result : Except NoMatch (List (Output α))} {used : Set Place}

theorem Uniform.eq_of_find (h : a.Uniform s run result used) {j j' : Journal σ}
    (hj : j.state = s) {result' : Except NoMatch (List (Output α))}
    (hrun : a.find run.1 run.2 j = some (result', j')) :
    result' = result ∧
      ∃ places text, (∀ q, q ∈ places ↔ q ∈ used) ∧ j' = j.after places s text := by
  obtain ⟨places, text, hplaces, heq⟩ := h j hj
  rw [hrun] at heq
  cases heq
  exact ⟨rfl, places, text, hplaces, rfl⟩

/-- Where the places have been visited before, the run builds nothing. -/
theorem Uniform.exists_of_subset (h : a.Uniform s run result used) {j : Journal σ}
    (hj : j.state = s) (hused : ∀ q ∈ used, q ∈ j.built) :
    ∃ j', a.find run.1 run.2 j = some (result, j') ∧ j'.builds = j.builds := by
  obtain ⟨places, text, hplaces, heq⟩ := h j hj
  exact ⟨_, heq, Journal.builds_after_of_subset fun q hq => hused q ((hplaces q).1 hq)⟩

theorem findEach_cons {runs : List (Mode × Array τ)} {j j' : Journal σ}
    {results : List (Except NoMatch (List (Output α)))} :
    a.findEach (run :: runs) j = some (results, j') ↔
      ∃ result j₁ rest, a.find run.1 run.2 j = some (result, j₁) ∧
        a.findEach runs j₁ = some (rest, j') ∧ results = result :: rest := by
  rw [findEach, List.mapM_cons, bind_eq_some_iff]
  refine exists₂_congr fun result j₁ => ?_
  rw [bind_eq_some_iff]
  constructor
  · rintro ⟨hrun, rest, j₂, hrest, hpure⟩
    obtain ⟨rfl, rfl⟩ := pure_eq_some_iff.1 hpure
    exact ⟨rest, hrun, hrest, rfl⟩
  · rintro ⟨rest, hrun, hrest, rfl⟩
    exact ⟨hrun, rest, j', hrest, rfl⟩

variable (ha : ∀ run, (∀ j, j.state = s → a.find run.1 run.2 j = none) ∨
  ∃ result used, a.Uniform s run result used)

include ha in
theorem uniform_of_find (run : Mode × Array τ) {result : Except NoMatch (List (Output α))}
    {j j' : Journal σ} (hj : j.state = s) (h : a.find run.1 run.2 j = some (result, j')) :
    ∃ used, a.Uniform s run result used := by
  rcases ha run with hnone | ⟨result', used, hu⟩
  · rw [hnone j hj] at h
    cases h
  · rw [(hu.eq_of_find hj h).1]
    exact ⟨used, hu⟩

include ha in
/-- Runs in a row lead to the results that they have on their own. -/
theorem exists_findEach_iff {runs : List (Mode × Array τ)} {j : Journal σ} (hj : j.state = s)
    {results : List (Except NoMatch (List (Output α)))} :
    (∃ j', a.findEach runs j = some (results, j')) ↔
      List.Forall₂ (fun run result => ∃ used, a.Uniform s run result used) runs results := by
  induction runs generalizing j results with
  | nil =>
    rw [List.forall₂_nil_left_iff]
    constructor
    · rintro ⟨j', h⟩
      exact (pure_eq_some_iff.1 h).1
    · rintro rfl
      exact ⟨j, rfl⟩
  | cons run runs ih =>
    constructor
    · rintro ⟨j', h⟩
      obtain ⟨result, j₁, rest, hrun, hrest, rfl⟩ := findEach_cons.1 h
      obtain ⟨used, hu⟩ := uniform_of_find ha run hj hrun
      obtain ⟨-, places, text, -, rfl⟩ := hu.eq_of_find hj hrun
      exact .cons ⟨used, hu⟩ ((ih (j := j.after places s text) rfl).1 ⟨j', hrest⟩)
    · rintro (_ | ⟨⟨used, hu⟩, hrest⟩)
      obtain ⟨places, text, -, hrun⟩ := hu j hj
      obtain ⟨j', hrest⟩ := (ih (j := j.after places s text) rfl).2 hrest
      exact ⟨j', findEach_cons.2 ⟨_, _, _, hrun, hrest, rfl⟩⟩

include ha in
/-- Runs in a row visit what each of them visits, and leave the state as it is. -/
theorem used_of_findEach {runs : List (Mode × Array τ)} {j j' : Journal σ} (hj : j.state = s)
    {results : List (Except NoMatch (List (Output α)))}
    (h : a.findEach runs j = some (results, j')) :
    j'.state = s ∧ (∀ q ∈ j.built, q ∈ j'.built) ∧
      ∀ r ∈ runs.zip results, ∃ used, a.Uniform s r.1 r.2 used ∧ ∀ q ∈ used, q ∈ j'.built := by
  induction runs generalizing j results with
  | nil =>
    obtain ⟨-, rfl⟩ := pure_eq_some_iff.1 h
    exact ⟨hj, fun _ => id, fun r hr => by cases hr⟩
  | cons run runs ih =>
    obtain ⟨result, j₁, rest, hrun, hrest, rfl⟩ := findEach_cons.1 h
    obtain ⟨used, hu⟩ := uniform_of_find ha run hj hrun
    obtain ⟨-, places, text, hplaces, rfl⟩ := hu.eq_of_find hj hrun
    obtain ⟨hstate, hkept, hused⟩ := ih rfl hrest
    refine ⟨hstate, fun q hq => hkept q (Journal.mem_built_after.2 (.inr hq)),
      List.forall_mem_cons.2 ⟨⟨used, hu, fun q hq => hkept q ?_⟩, hused⟩⟩
    exact Journal.mem_built_after.2 (.inl ((hplaces q).2 hq))

end Attempt

namespace Parser

variable {n : Nat} {ty : Fin n → Type} {rules : (r : Fin n) → Parser σ τ ty (ty r)}
  {p : Parser σ τ ty α}

/-- **A run of a parser with pure actions** ends from no journal, or from all journals with the same
result and after visits to the same places. -/
theorem none_or_uniform (hrules : ∀ r, (rules r).IsPure) (hp : p.IsPure) (s : σ)
    (run : Mode × Array τ) :
    (∀ j, j.state = s → (p.attempt rules).find run.1 run.2 j = none) ∨
      ∃ result used, (p.attempt rules).Uniform s run result used := by
  -- every run is compared with one run without traces, from a journal that holds nothing
  have h (j : Journal σ) (hj : j.state = s) :=
    (coupled_withoutTraces (fun r => (hrules r).staysIn {s}) (hp.staysIn {s}) run.2).find run.1
      (List.prefix_refl []) (Visited.nil hj hj.symm : Visited {s} j (.new s) [] j (.new s))
  generalize (p.withoutTraces.attempt _).find run.1 run.2 (.new s) = fresh at h
  cases fresh with
  | none =>
    refine .inl fun j hj => ?_
    specialize h j hj
    generalize (p.attempt rules).find run.1 run.2 j = x at h ⊢
    cases h
    rfl
  | some r =>
    refine .inr ⟨r.1, {q | q ∈ r.2.built}, fun j hj => ?_⟩
    specialize h j hj
    generalize (p.attempt rules).find run.1 run.2 j = x at h ⊢
    cases h with
    | some h =>
      obtain ⟨hresult, places, -, _, rfl, ⟨text, hleft⟩, text', hright⟩ := h
      refine ⟨places, text, fun q => ?_, by rw [← hresult, ← hleft]⟩
      change q ∈ places ↔ q ∈ r.2.built
      rw [hright, Journal.mem_built_after]
      exact ⟨.inl, fun hq => hq.resolve_right Std.HashSet.not_mem_empty⟩

/-- Runs in a row end with the results that the parser gives when it has just been made. -/
theorem exists_findEach_new_iff (hrules : ∀ r, (rules r).IsPure) (hp : p.IsPure) (s : σ)
    (runs : List (Mode × Array τ)) (results : List (Except NoMatch (List (Output α)))) :
    (∃ j, (p.attempt rules).findEach runs (.new s) = some (results, j)) ↔
      List.Forall₂ (fun run result =>
        ∃ j, (p.attempt rules).find run.1 run.2 (.new s) = some (result, j)) runs results := by
  have hruns := none_or_uniform hrules hp s
  have hfresh (run : Mode × Array τ) (result : Except NoMatch (List (Output α))) :
      (∃ used, (p.attempt rules).Uniform s run result used) ↔
        ∃ j, (p.attempt rules).find run.1 run.2 (.new s) = some (result, j) := by
    constructor
    · rintro ⟨used, hu⟩
      obtain ⟨places, text, -, heq⟩ := hu (.new s) rfl
      exact ⟨_, heq⟩
    · rintro ⟨j, hrun⟩
      exact Attempt.uniform_of_find hruns _ rfl hrun
  simp only [Attempt.exists_findEach_iff hruns (j := .new s) rfl, hfresh]

/-- A run that was made before ends as it did then, and builds nothing. -/
theorem exists_find_of_mem_zip (hrules : ∀ r, (rules r).IsPure) (hp : p.IsPure) {s : σ}
    {runs : List (Mode × Array τ)} {results : List (Except NoMatch (List (Output α)))}
    {j : Journal σ} (h : (p.attempt rules).findEach runs (.new s) = some (results, j))
    {r : (Mode × Array τ) × Except NoMatch (List (Output α))} (hr : r ∈ runs.zip results) :
    ∃ j', (p.attempt rules).find r.1.1 r.1.2 j = some (r.2, j') ∧ j'.builds = j.builds := by
  obtain ⟨hstate, -, hused⟩ := Attempt.used_of_findEach (none_or_uniform hrules hp s) rfl h
  obtain ⟨used, hu, hbuilt⟩ := hused r hr
  exact hu.exists_of_subset hstate hbuilt

/-- **Runs of one parser.** Whatever was run before, a run ends as it does when the parser has just
been made, with the same result and the same state of the actions. Traces may be put in or taken out
anywhere, in the parser and in the rules; results and states stay, and so does the number of rules
that are built. Nothing is built before the first run, nothing twice, and the number of rules built
never falls. If actions only compute, runs in a row end with the results that they have on their
own, and a run that was made before ends as it did then, without building anything. The references
in memory agree: each calls for its rule once at most, and there are as many calls as rules were
built. -/
theorem findEach_transparent (rules : (r : Fin n) → Parser σ τ ty (ty r)) (p : Parser σ τ ty α)
    (s : σ) (runs : List (Mode × Array τ)) :
    (∀ mode tokens j, ((p.attempt rules).find mode tokens j).map (fun r => (r.1, r.2.state)) =
      ((p.attempt rules).find mode tokens (.new j.state)).map fun r => (r.1, r.2.state)) ∧
    (∀ (rules' : (r : Fin n) → Parser σ τ ty (ty r)) (p' : Parser σ τ ty α),
      (∀ r, (rules' r).withoutTraces = (rules r).withoutTraces) →
      p'.withoutTraces = p.withoutTraces →
      ((p'.attempt rules').findEach runs (.new s)).map (fun r => (r.1, r.2.state, r.2.builds)) =
        ((p.attempt rules).findEach runs (.new s)).map fun r => (r.1, r.2.state, r.2.builds)) ∧
    (Journal.new s).builds = 0 ∧
    (∀ results j, (p.attempt rules).findEach runs (.new s) = some (results, j) →
      j.constructions.Nodup ∧
      ∀ mode tokens result j', (p.attempt rules).find mode tokens j = some (result, j') →
        j.builds ≤ j'.builds) ∧
    ((∀ r, (rules r).IsPure) → p.IsPure →
      (∀ results, (∃ j, (p.attempt rules).findEach runs (.new s) = some (results, j)) ↔
        List.Forall₂ (fun run result =>
          ∃ j, (p.attempt rules).find run.1 run.2 (.new s) = some (result, j)) runs results) ∧
      ∀ results j, (p.attempt rules).findEach runs (.new s) = some (results, j) →
        ∀ run result, (run, result) ∈ runs.zip results →
          ∃ j', (p.attempt rules).find run.1 run.2 j = some (result, j') ∧ j'.builds = j.builds) ∧
    Option.Rel (fun r c => r.1 = c.1 ∧ r.2.state = c.2.state.state ∧ c.2.state.calls.Nodup ∧
        c.2.state.calls.length = r.2.builds)
      ((p.attempt rules).findEach runs (.new s))
      ((p.inMemory rules).findEach runs (.new (.new s p.cellCount))) := by
  refine ⟨find_eq_find_new rules p, fun rules' p' hrules hp => ?_, rfl, fun results j h => ?_,
    fun hrules hp => ⟨fun results => ?_, fun results j h run result hr => ?_⟩, ?_⟩
  · exact findEach_eq_of_withoutTraces_eq hrules hp runs (.new s)
  · exact ⟨nodup_constructions_of_findEach h, fun _ _ _ _ hrun => builds_le_of_find hrun⟩
  · exact exists_findEach_new_iff hrules hp s runs results
  · exact exists_find_of_mem_zip hrules hp h hr
  · exact findEach_inMemory rules p s runs

/-- Bracketed groups in a row. After runs on `(())` and `x` the first run is repeated, and the
groups are found again without building anything. -/
theorem findEach_transparent_groups :
    ∃ j j' : Journal Unit,
      ((rule 0).attempt bracketGroups).findEach
        [(.parse 0, #['(', '(', ')', ')']), (.searchAll, #['x'])] (.new ()) =
          some ([.ok [⟨1, 4, 4⟩], .ok [⟨0, 0, 0⟩]], j) ∧
      ((rule 0).attempt bracketGroups).find (.parse 0) #['(', '(', ')', ')'] j =
        some (.ok [⟨1, 4, 4⟩], j') ∧ j'.builds = j.builds := by
  have hruns : (((rule 0).attempt bracketGroups).findEach
      [(.parse 0, #['(', '(', ')', ')']), (.searchAll, #['x'])] (.new ())).map Prod.fst =
        some [.ok [⟨1, 4, 4⟩], .ok [⟨0, 0, 0⟩]] := by decide +kernel
  obtain ⟨⟨results, j⟩, h, rfl⟩ := Option.map_eq_some_iff.1 hruns
  obtain ⟨-, -, -, -, hpure, -⟩ := findEach_transparent bracketGroups (rule 0) ()
    [(.parse 0, #['(', '(', ')', ')']), (.searchAll, #['x'])]
  obtain ⟨j', hrun, hj'⟩ := (hpure isPure_bracketGroups (isPure_rule 0)).2 _ j h _ _
    (List.mem_cons_self ..)
  exact ⟨j, j', h, hrun, hj'⟩

end Parser

end RegArith
