import Mathlib.Data.List.Nodup
import RegArith.Proofs.Parsing.Alignment
import RegArith.Proofs.Parsing.Coupling

/-!
# References that hold their rule

A parser in memory is not the tree that it unfolds to. Every reference has a cell. The cell is empty
until an attempt comes to the reference for the first time; then the rule is built, with a new cell
for each reference in it, and from then on the cell says where that copy is. An attempt goes on with
whatever the cell says. So the parser that is run is another one after every run.

The evaluator here works on such a memory. It is compared with the evaluator that unfolds references
and only notes the places of those it came to. A memory stands for the set of places noted if the
cells that hold something are those of the places in the set, and hold a copy of the right rule
whose own cells are laid out in order. Resolving a reference keeps this up: a place that is noted
for the first time leads to new cells, and no cell that was there before belongs to any of the
places behind it.

## Main definitions

* `Cells`, `Cells.resolve` — memory, and the use of a reference
* `Parser.references` — the references in a parser with their places
* `Parser.inMemory` — the meaning of a parser in memory
* `Represents` — a memory stands for what a journal noted

## Main results

* `Represents.resolve` — using a reference
* `Parser.coupled_inMemory` — a parser in memory does what its unfolding does
-/

namespace RegArith

variable {σ τ α β : Type}

/-! ### Memory -/

/-- The memory of a parser, and the state of its actions. -/
structure Cells (σ : Type) where
  /-- The state that actions read and write. -/
  state : σ
  /-- What each reference holds: nothing, or the address of the first cell of its copy. -/
  held : List (Option Nat)
  /-- The references that have had their rule built, latest first. -/
  calls : List Nat

namespace Cells

/-- The memory of a parser with so many references, none of which has been used. -/
def new (s : σ) (size : Nat) : Cells σ := ⟨s, List.replicate size none, []⟩

/-- Where the copy of the reference at `address` is. If the reference holds none, its rule is built
at the end of the memory, with `size` empty cells. -/
def resolve (c : Cells σ) (address size : Nat) : Nat × Cells σ :=
  match c.held[address]? with
  | some (some copy) => (copy, c)
  | _ =>
    (c.held.length,
      { c with
        held := c.held.set address (some c.held.length) ++ List.replicate size none
        calls := address :: c.calls })

section

variable {c : Cells σ} {address b : Nat} (h : c.held[address]? = some none) (size : Nat)

include h

theorem resolve_of_empty :
    c.resolve address size = (c.held.length,
      { c with
        held := c.held.set address (some c.held.length) ++ List.replicate size none
        calls := address :: c.calls }) := by
  rw [resolve, h]

/-- Of the cells that were there, one is filled. -/
theorem held_resolve_of_lt (hb : b < c.held.length) :
    (c.resolve address size).2.held[b]? =
      if address = b then some (some c.held.length) else c.held[b]? := by
  rw [resolve_of_empty h, List.getElem?_append_left (by rwa [List.length_set]),
    List.getElem?_set, if_pos (List.getElem?_eq_some_iff.1 h).1]

/-- The cells of the copy are empty. -/
theorem held_resolve_of_ge {size : Nat} (hb : c.held.length ≤ b)
    (hb' : b - c.held.length < size) :
    (c.resolve address size).2.held[b]? = some none := by
  rw [resolve_of_empty h, List.getElem?_append_right (by rwa [List.length_set]), List.length_set,
    List.getElem?_replicate, if_pos hb']

end

/-- The action beside a memory. -/
def lift (action : α → StateM σ β) : α → StateM (Cells σ) β := fun v c =>
  let (r, s) := (action v).run c.state
  (r, { c with state := s })

end Cells

/-! ### Parsers in memory -/

namespace Parser

variable {n : Nat} {ty : Fin n → Type}

/-- How many references are in the parser. -/
def cellCount : {α : Type} → Parser σ τ ty α → Nat
  | _, satisfy _ | _, nothing | _, never | _, endOfInput => 0
  | _, seq p q => p.cellCount + q.cellCount
  | _, alt p q => p.cellCount + q.cellCount
  | _, transform p _ => p.cellCount
  | _, star p => p.cellCount
  | _, plus p => p.cellCount
  | _, rule _ => 1
  | _, guard p _ => p.cellCount
  | _, diff p q => p.cellCount + q.cellCount
  | _, followedBy p q => p.cellCount + q.cellCount
  | _, notFollowedBy p q => p.cellCount + q.cellCount
  | _, trace p _ _ => p.cellCount

/-- The meaning of a parser whose cells start at `base`, from a meaning of the rules whose cells
start anywhere and from the number of their cells. -/
def inMemoryWith (rules : (r : Fin n) → Nat → Attempt (Cells σ) τ (ty r)) (sizes : Fin n → Nat) :
    {α : Type} → Parser σ τ ty α → Nat → Attempt (Cells σ) τ α
  | _, satisfy pred, _ => Attempt.satisfy pred
  | _, nothing, _ => Attempt.nothing
  | _, never, _ => Attempt.never
  | _, endOfInput, _ => Attempt.endOfInput
  | _, seq p q, base => Attempt.seq (p.inMemoryWith rules sizes base)
      (q.inMemoryWith rules sizes (base + p.cellCount))
  | _, alt p q, base => Attempt.alt (p.inMemoryWith rules sizes base)
      (q.inMemoryWith rules sizes (base + p.cellCount))
  | _, transform p action, base =>
    Attempt.transform (p.inMemoryWith rules sizes base) (Cells.lift action)
  | _, star p, base => Attempt.star (p.inMemoryWith rules sizes base)
  | _, plus p, base => Attempt.plus (p.inMemoryWith rules sizes base)
  | _, rule r, base => fun tokens i j =>
    let (copy, c) := j.state.resolve base (sizes r)
    rules r copy tokens i { j with state := c }
  | _, guard p pred, base => Attempt.guard (p.inMemoryWith rules sizes base) pred
  | _, diff p q, base => Attempt.diff (p.inMemoryWith rules sizes base)
      (q.inMemoryWith rules sizes (base + p.cellCount))
  | _, followedBy p q, base => Attempt.followedBy (p.inMemoryWith rules sizes base)
      (q.inMemoryWith rules sizes (base + p.cellCount))
  | _, notFollowedBy p q, base => Attempt.notFollowedBy (p.inMemoryWith rules sizes base)
      (q.inMemoryWith rules sizes (base + p.cellCount))
  | _, trace p name description, base =>
    Attempt.traced (p.inMemoryWith rules sizes base) (traceLine name description)

/-- The meaning of a copy of a rule, to the depth to which `ruleAttempt` unfolds it. -/
def ruleInMemory (rules : (r : Fin n) → Parser σ τ ty (ty r)) :
    (depth : Nat) → (r : Fin n) → Nat → Attempt (Cells σ) τ (ty r)
  | 0 => fun _ _ _ _ _ => none
  | depth + 1 => fun r base =>
    (rules r).inMemoryWith (ruleInMemory rules depth) (fun r => (rules r).cellCount) base

/-- The meaning of a parser whose cells stand first in the memory. -/
def inMemory (rules : (r : Fin n) → Parser σ τ ty (ty r)) (p : Parser σ τ ty α) :
    Attempt (Cells σ) τ α := fun tokens i =>
  p.inMemoryWith (ruleInMemory rules (n * (tokens.size - i + 1))) (fun r => (rules r).cellCount) 0
    tokens i

/-! ### References and their places -/

/-- The references in the parser, in the order of their cells: the rule that each one names and the
place where it stands. -/
def references : {α : Type} → Parser σ τ ty α → Place → List (Fin n × Place)
  | _, satisfy _, _ | _, nothing, _ | _, never, _ | _, endOfInput, _ => []
  | _, seq p q, place => p.references (.left :: place) ++ q.references (.right :: place)
  | _, alt p q, place => p.references (.left :: place) ++ q.references (.right :: place)
  | _, transform p _, place => p.references place
  | _, star p, place => p.references place
  | _, plus p, place => p.references place
  | _, rule r, place => [(r, place)]
  | _, guard p _, place => p.references place
  | _, diff p q, place => p.references (.left :: place) ++ q.references (.right :: place)
  | _, followedBy p q, place => p.references (.left :: place) ++ q.references (.right :: place)
  | _, notFollowedBy p q, place => p.references (.left :: place) ++ q.references (.right :: place)
  | _, trace p _ _, place => p.references place

@[simp] theorem length_references (p : Parser σ τ ty α) (place : Place) :
    (p.references place).length = p.cellCount := by
  induction p generalizing place with
  | satisfy | nothing | never | endOfInput | rule => rfl
  | seq p q ihp ihq | alt p q ihp ihq | diff p q ihp ihq | followedBy p q ihp ihq
  | notFollowedBy p q ihp ihq => rw [references, List.length_append, ihp, ihq, cellCount]
  | transform p action ih | star p ih | plus p ih | guard p pred ih
  | trace p name description ih => exact ih place

/-- From a parser to a reference in it there is no way through another reference. -/
theorem exists_eq_append_of_mem_references {p : Parser σ τ ty α} {place : Place}
    {q : Fin n × Place} (hq : q ∈ p.references place) :
    ∃ steps, q.2 = steps ++ place ∧ .inside ∉ steps := by
  induction p generalizing place with
  | satisfy | nothing | never | endOfInput => cases hq
  | rule r =>
    rw [List.mem_singleton.1 hq]
    exact ⟨[], rfl, List.not_mem_nil⟩
  | seq p p' ih ih' | alt p p' ih ih' | diff p p' ih ih' | followedBy p p' ih ih'
  | notFollowedBy p p' ih ih' =>
    rcases List.mem_append.1 hq with hq | hq
    · obtain ⟨steps, heq, hsteps⟩ := ih hq
      exact ⟨steps ++ [.left], by rw [heq, List.append_assoc]; rfl, by simpa using hsteps⟩
    · obtain ⟨steps, heq, hsteps⟩ := ih' hq
      exact ⟨steps ++ [.right], by rw [heq, List.append_assoc]; rfl, by simpa using hsteps⟩
  | transform p action ih | star p ih | plus p ih | guard p pred ih
  | trace p name description ih => exact ih hq

/-- The parts of an operation have no places in common. -/
theorem disjoint_references {p : Parser σ τ ty α} {q : Parser σ τ ty β} {place : Place} :
    List.Disjoint ((p.references (.left :: place)).map Prod.snd)
      ((q.references (.right :: place)).map Prod.snd) := by
  intro x hx hx'
  obtain ⟨a, ha, rfl⟩ := List.mem_map.1 hx
  obtain ⟨b, hb, heq⟩ := List.mem_map.1 hx'
  obtain ⟨steps, hsteps, -⟩ := exists_eq_append_of_mem_references ha
  obtain ⟨steps', hsteps', -⟩ := exists_eq_append_of_mem_references hb
  rw [hsteps, hsteps', List.append_cons, List.append_cons steps] at heq
  have hlast := congrArg List.getLast? (List.append_cancel_right heq)
  rw [List.getLast?_concat, List.getLast?_concat] at hlast
  cases hlast

theorem nodup_references (p : Parser σ τ ty α) (place : Place) :
    ((p.references place).map Prod.snd).Nodup := by
  induction p generalizing place with
  | satisfy | nothing | never | endOfInput => exact List.nodup_nil
  | rule r => exact List.nodup_singleton _
  | seq p q ihp ihq | alt p q ihp ihq | diff p q ihp ihq | followedBy p q ihp ihq
  | notFollowedBy p q ihp ihq =>
    rw [references, List.map_append]
    exact (ihp _).append (ihq _) disjoint_references
  | transform p action ih | star p ih | plus p ih | guard p pred ih
  | trace p name description ih => exact ih place

end Parser

/-- If there is no reference on the way behind `place`, what is behind a reference is `place` or
something in front of it. -/
theorem Place.suffix_cases {steps place place' : Place} (hsteps : .inside ∉ steps)
    (h : .inside :: place' <:+ steps ++ .inside :: place) :
    place' = place ∨ .inside :: place' <:+ place := by
  induction steps with
  | nil =>
    rcases List.suffix_cons_iff.1 h with heq | h
    · cases heq
      exact .inl rfl
    · exact .inr h
  | cons step steps ih =>
    rw [List.mem_cons, not_or] at hsteps
    rcases List.suffix_cons_iff.1 h with heq | h
    · cases heq
      exact absurd rfl hsteps.1
    · exact ih hsteps.2 h

/-! ### What a memory stands for -/

section

variable {n : Nat} {ty : Fin n → Type} {refs refs' l l' : List (Fin n × Place)} {base : Nat}

/-- The references in `l` have the cells from `base` on. -/
def CellsAt (refs : List (Fin n × Place)) (base : Nat) (l : List (Fin n × Place)) : Prop :=
  ∀ k q, l[k]? = some q → refs[base + k]? = some q

theorem CellsAt.mono (h : CellsAt refs base l) (hrefs : refs <+: refs') : CellsAt refs' base l := by
  obtain ⟨more, rfl⟩ := hrefs
  intro k q hq
  exact List.getElem?_append_left (List.getElem?_eq_some_iff.1 (h k q hq)).1 ▸ h k q hq

theorem CellsAt.of_append (h : CellsAt refs base (l ++ l')) :
    CellsAt refs base l ∧ CellsAt refs (base + l.length) l' := by
  constructor
  · intro k q hq
    refine h k q ?_
    rwa [List.getElem?_append_left (List.getElem?_eq_some_iff.1 hq).1]
  · intro k q hq
    rw [Nat.add_assoc]
    refine h (l.length + k) q ?_
    rwa [List.getElem?_append_right (Nat.le_add_right _ _), Nat.add_sub_cancel_left]

theorem cellsAt_append_right (refs l : List (Fin n × Place)) :
    CellsAt (refs ++ l) refs.length l := by
  intro k q hq
  rwa [List.getElem?_append_right (Nat.le_add_right _ _), Nat.add_sub_cancel_left]

/-- The memory stands for what the journal has noted. The list says for each cell which rule its
reference names and where the reference stands. -/
structure Represents (rules : (r : Fin n) → Parser σ τ ty (ty r)) (refs : List (Fin n × Place))
    (j : Journal σ) (j' : Journal (Cells σ)) : Prop where
  /-- Actions find the same state. -/
  state_eq : j'.state.state = j.state
  /-- There are no other cells. -/
  length_eq : j'.state.held.length = refs.length
  /-- No place has two cells. -/
  nodup : (refs.map Prod.snd).Nodup
  /-- Every place that was noted has a cell. -/
  known : ∀ place ∈ j.built, place ∈ refs.map Prod.snd
  /-- What is behind a reference has cells only if the place of the reference was noted. -/
  noted : ∀ q ∈ refs, ∀ place, .inside :: place <:+ q.2 → place ∈ j.built
  /-- The cell of a place that was not noted is empty. -/
  empty : ∀ {a : Nat} {r place}, refs[a]? = some (r, place) → place ∉ j.built →
    j'.state.held[a]? = some none
  /-- The cell of a place that was noted says where the cells of its copy are. -/
  copy : ∀ {a : Nat} {r place}, refs[a]? = some (r, place) → place ∈ j.built →
    ∃ base, j'.state.held[a]? = some (some base) ∧
      CellsAt refs base ((rules r).references (.inside :: place))
  /-- Rules were built for the same references in the same order. -/
  calls : List.Forall₂ (fun a place => refs[a]?.map Prod.snd = some place) j'.state.calls
    j.constructions

namespace Represents

variable {rules : (r : Fin n) → Parser σ τ ty (ty r)} {j : Journal σ} {j' : Journal (Cells σ)}

theorem ignoresLog : IgnoresLog (Represents rules) where
  left _ h := ⟨h.state_eq, h.length_eq, h.nodup, h.known, h.noted, h.empty, h.copy, h.calls⟩
  right _ h := ⟨h.state_eq, h.length_eq, h.nodup, h.known, h.noted, h.empty, h.copy, h.calls⟩

theorem actAlike_lift (action : α → StateM σ β) :
    ActAlike (Represents rules) action (Cells.lift action) := by
  intro v refs j j' h
  have hlift : (Cells.lift action v).run j'.state = (((action v).run j.state).1,
      { j'.state with state := ((action v).run j.state).2 }) := by
    rw [← h.state_eq]
    rfl
  rw [hlift]
  exact ⟨rfl, rfl, h.length_eq, h.nodup, h.known, h.noted, h.empty, h.copy, h.calls⟩

/-- Before the first run nothing has been built. -/
theorem new (rules : (r : Fin n) → Parser σ τ ty (ty r)) (p : Parser σ τ ty α) (s : σ) :
    Represents rules (p.references []) (.new s) (.new (.new s p.cellCount)) where
  state_eq := rfl
  length_eq := by simp [Journal.new, Cells.new]
  nodup := p.nodup_references []
  known place hplace := absurd hplace Std.HashSet.not_mem_empty
  noted q hq place hsuffix := by
    obtain ⟨steps, heq, hsteps⟩ := Parser.exists_eq_append_of_mem_references hq
    rw [heq, List.append_nil] at hsuffix
    exact absurd (hsuffix.subset (List.mem_cons_self ..)) hsteps
  empty {a r place} ha _ := by
    have hlt := (List.getElem?_eq_some_iff.1 ha).1
    rw [Parser.length_references] at hlt
    simp [Journal.new, Cells.new, hlt]
  copy _ hplace := absurd hplace Std.HashSet.not_mem_empty
  calls := .nil

/-- As many rules were built in memory as were noted. -/
theorem length_calls (h : Represents rules refs j j') : j'.state.calls.length = j.builds :=
  h.calls.length_eq

/-- No reference had its rule built twice if no construction was noted twice. -/
theorem nodup_calls (h : Represents rules refs j j') (hj : j.constructions.Nodup) :
    j'.state.calls.Nodup := by
  have hmap : j'.state.calls.map (fun a => refs[a]?.map Prod.snd) = j.constructions.map some :=
    List.forall₂_eq_eq_eq ▸ List.forall₂_map_left_iff.2 (List.forall₂_map_right_iff.2 h.calls)
  refine List.Nodup.of_map (fun a => refs[a]?.map Prod.snd) ?_
  rw [hmap]
  exact hj.map fun _ _ h => Option.some.inj h

/-- As long as a reference was not used, there are no cells for what is behind it. -/
theorem not_mem_behind (h : Represents rules refs j j') {r : Fin n} {place : Place}
    (hplace : place ∉ j.built) {q : Fin n × Place}
    (hq : q ∈ (rules r).references (.inside :: place)) : q.2 ∉ refs.map Prod.snd := by
  intro hmem
  obtain ⟨q', hq', heq⟩ := List.mem_map.1 hmem
  obtain ⟨steps, hsteps, -⟩ := Parser.exists_eq_append_of_mem_references hq
  exact hplace (h.noted q' hq' place ⟨steps, by rw [heq, hsteps]⟩)

/-- Which cells there are when the copy of a reference has been built. -/
theorem cell_cases {new : List (Fin n × Place)} {b : Nat} {q : Fin n × Place}
    (hb : (refs ++ new)[b]? = some q) :
    refs[b]? = some q ∨ refs.length ≤ b ∧ b - refs.length < new.length ∧ q ∈ new := by
  rcases Nat.lt_or_ge b refs.length with hlt | hge
  · rw [List.getElem?_append_left hlt] at hb
    exact .inl hb
  · rw [List.getElem?_append_right hge] at hb
    exact .inr ⟨hge, (List.getElem?_eq_some_iff.1 hb).1, List.mem_of_getElem? hb⟩

/-- A place has one cell. -/
theorem eq_of_place_eq (h : Represents rules refs j j') {a b : Nat} {r r' : Fin n} {place : Place}
    (ha : refs[a]? = some (r, place)) (hb : refs[b]? = some (r', place)) : a = b := by
  have hlt : a < (refs.map Prod.snd).length := by
    rw [List.length_map]
    exact (List.getElem?_eq_some_iff.1 ha).1
  refine (List.getElem?_inj hlt h.nodup).1 ?_
  rw [List.getElem?_map, List.getElem?_map, ha, hb]
  rfl

/-! #### A reference that is used for the first time -/

section

variable (h : Represents rules refs j j') {a : Nat} {r : Fin n} {place : Place}
  (ha : refs[a]? = some (r, place)) (hplace : place ∉ j.built)

include h ha hplace

/-- In the copy no place was noted. -/
theorem not_mem_built_visit {q : Fin n × Place}
    (hq : q ∈ (rules r).references (.inside :: place)) : q.2 ∉ (j.visit place).built := by
  have hfree := h.not_mem_behind hplace hq
  rw [Journal.mem_built_visit_iff]
  rintro (heq | hq)
  · exact hfree (heq ▸ List.mem_map.2 ⟨_, List.mem_of_getElem? ha, rfl⟩)
  · exact hfree (h.known _ hq)

omit hplace in
theorem noted_build {q : Fin n × Place}
    (hq : q ∈ refs ++ (rules r).references (.inside :: place)) {place' : Place}
    (hsuffix : .inside :: place' <:+ q.2) : place' ∈ (j.visit place).built := by
  rw [Journal.mem_built_visit_iff]
  rcases List.mem_append.1 hq with hq | hq
  · exact .inr (h.noted q hq place' hsuffix)
  · obtain ⟨steps, heq, hsteps⟩ := Parser.exists_eq_append_of_mem_references hq
    rw [heq] at hsuffix
    rcases Place.suffix_cases hsteps hsuffix with rfl | hsuffix
    · exact .inl rfl
    · exact .inr (h.noted _ (List.mem_of_getElem? ha) place' hsuffix)

theorem empty_build {b : Nat} {r' : Fin n} {q : Place}
    (hb : (refs ++ (rules r).references (.inside :: place))[b]? = some (r', q))
    (hq : q ∉ (j.visit place).built) :
    (j'.state.resolve a (rules r).cellCount).2.held[b]? = some none := by
  have hcell := h.empty ha hplace
  rw [Journal.mem_built_visit_iff, not_or] at hq
  rcases cell_cases hb with hold | ⟨hge, hlt, -⟩
  · have hne : a ≠ b := by
      rintro rfl
      rw [ha] at hold
      cases hold
      exact hq.1 rfl
    have hlt : b < j'.state.held.length := h.length_eq ▸ (List.getElem?_eq_some_iff.1 hold).1
    rw [Cells.held_resolve_of_lt hcell _ hlt, if_neg hne]
    exact h.empty hold hq.2
  · rw [Parser.length_references, ← h.length_eq] at hlt
    exact Cells.held_resolve_of_ge hcell (h.length_eq ▸ hge) hlt

theorem copy_build {b : Nat} {r' : Fin n} {q : Place}
    (hb : (refs ++ (rules r).references (.inside :: place))[b]? = some (r', q))
    (hq : q ∈ (j.visit place).built) :
    ∃ base, (j'.state.resolve a (rules r).cellCount).2.held[b]? = some (some base) ∧
      CellsAt (refs ++ (rules r).references (.inside :: place)) base
        ((rules r').references (.inside :: q)) := by
  have hcell := h.empty ha hplace
  rcases cell_cases hb with hold | ⟨-, -, hmem⟩
  · have hlt : b < j'.state.held.length := h.length_eq ▸ (List.getElem?_eq_some_iff.1 hold).1
    rw [Cells.held_resolve_of_lt hcell _ hlt]
    rcases Journal.mem_built_visit_iff.1 hq with rfl | hq'
    · obtain rfl := h.eq_of_place_eq ha hold
      rw [ha] at hold
      cases hold
      rw [if_pos rfl, h.length_eq]
      exact ⟨refs.length, rfl, cellsAt_append_right _ _⟩
    · have hne : a ≠ b := by
        rintro rfl
        rw [ha] at hold
        cases hold
        exact hplace hq'
      obtain ⟨base, hbase, hcells⟩ := h.copy hold hq'
      rw [if_neg hne]
      exact ⟨base, hbase, hcells.mono (List.prefix_append _ _)⟩
  · exact absurd hq (h.not_mem_built_visit ha hplace hmem)

/-- The reference gets a copy behind all cells. -/
theorem build :
    Represents rules (refs ++ (rules r).references (.inside :: place)) (j.visit place)
      { j' with state := (j'.state.resolve a (rules r).cellCount).2 } := by
  have hresolve := Cells.resolve_of_empty (h.empty ha hplace) (rules r).cellCount
  constructor
  · rw [Journal.state_visit, ← h.state_eq, hresolve]
  · rw [hresolve, List.length_append, List.length_append, List.length_set, List.length_replicate,
      h.length_eq, Parser.length_references]
  · rw [List.map_append]
    refine h.nodup.append (Parser.nodup_references _ _) fun q hq hq' => ?_
    obtain ⟨q', hmem', rfl⟩ := List.mem_map.1 hq'
    exact h.not_mem_behind hplace hmem' hq
  · intro q hq
    rw [List.map_append, List.mem_append]
    rcases Journal.mem_built_visit_iff.1 hq with rfl | hq
    · exact .inl (List.mem_map.2 ⟨_, List.mem_of_getElem? ha, rfl⟩)
    · exact .inl (h.known q hq)
  · exact fun q hq place' hsuffix => h.noted_build ha hq hsuffix
  · exact fun hb hq => h.empty_build ha hplace hb hq
  · exact fun hb hq => h.copy_build ha hplace hb hq
  · rw [hresolve, Journal.visit, if_neg hplace]
    refine .cons ?_ (h.calls.imp fun b q hb => ?_)
    · rw [List.getElem?_append_left (List.getElem?_eq_some_iff.1 ha).1, ha]
      rfl
    · obtain ⟨q', hq', -⟩ := Option.map_eq_some_iff.1 hb
      rwa [List.getElem?_append_left (List.getElem?_eq_some_iff.1 hq').1]

end

/-- **Using a reference** leads to a copy of its rule, and the memory stands for the journal in
which the reference was noted. -/
theorem resolve (h : Represents rules refs j j') {a : Nat} {r : Fin n} {place : Place}
    (ha : refs[a]? = some (r, place)) :
    ∃ refs', refs <+: refs' ∧
      CellsAt refs' (j'.state.resolve a (rules r).cellCount).1
        ((rules r).references (.inside :: place)) ∧
      Represents rules refs' (j.visit place)
        { j' with state := (j'.state.resolve a (rules r).cellCount).2 } := by
  by_cases hplace : place ∈ j.built
  · obtain ⟨copy, hcopy, hcells⟩ := h.copy ha hplace
    have hresolve : j'.state.resolve a (rules r).cellCount = (copy, j'.state) := by
      rw [Cells.resolve, hcopy]
    rw [hresolve, Journal.visit, if_pos hplace]
    exact ⟨refs, List.prefix_refl refs, hcells, h⟩
  · refine ⟨_, List.prefix_append _ _, ?_, h.build ha hplace⟩
    rw [Cells.resolve_of_empty (h.empty ha hplace), h.length_eq]
    exact cellsAt_append_right _ _

end Represents

/-! ### Runs -/

namespace Parser

variable {rules : (r : Fin n) → Parser σ τ ty (ty r)} {tokens : Array τ}

/-- The second part of an operation has the cells behind those of the first. -/
theorem cellsAt_parts {p : Parser σ τ ty α} {q : Parser σ τ ty β} {place : Place}
    (h : CellsAt refs base (p.references (.left :: place) ++ q.references (.right :: place))) :
    CellsAt refs base (p.references (.left :: place)) ∧
      CellsAt refs (base + p.cellCount) (q.references (.right :: place)) := by
  have hparts := h.of_append
  rwa [length_references] at hparts

/-- A parser in memory does what its unfolding does if the rules it mentions do. -/
theorem coupled_inMemoryWith {meaning : (r : Fin n) → Place → Attempt σ τ (ty r)}
    {copies : (r : Fin n) → Nat → Attempt (Cells σ) τ (ty r)}
    (hrules : ∀ r place refs base, CellsAt refs base ((rules r).references place) →
      Attempt.Coupled (Represents rules) refs tokens (meaning r place) (copies r base))
    (p : Parser σ τ ty α) (place : Place) (refs : List (Fin n × Place)) (base : Nat)
    (hcells : CellsAt refs base (p.references place)) :
    Attempt.Coupled (Represents rules) refs tokens (p.evalWith meaning place)
      (p.inMemoryWith copies (fun r => (rules r).cellCount) base) := by
  induction p generalizing place base with
  | satisfy pred => exact .satisfy pred
  | nothing => exact .nothing
  | never => exact .never
  | endOfInput => exact .endOfInput
  | seq p q ihp ihq =>
    have hparts := cellsAt_parts hcells
    exact (ihp _ _ hparts.1).seq (ihq _ _ hparts.2)
  | alt p q ihp ihq =>
    have hparts := cellsAt_parts hcells
    exact (ihp _ _ hparts.1).alt (ihq _ _ hparts.2)
  | transform p action ih => exact (ih _ _ hcells).transform (Represents.actAlike_lift action)
  | star p ih => exact (ih _ _ hcells).star
  | plus p ih => exact (ih _ _ hcells).plus
  | rule r =>
    intro i v hv j j' hj
    have hcell : v[base]? = some (r, place) := hcells.mono hv 0 _ rfl
    obtain ⟨u, hvu, hu, hrep⟩ := hj.resolve hcell
    exact (hrules r (.inside :: place) u _ hu i).after hvu hrep
  | guard p pred ih => exact (ih _ _ hcells).guard pred
  | diff p q ihp ihq =>
    have hparts := cellsAt_parts hcells
    exact (ihp _ _ hparts.1).diff (ihq _ _ hparts.2)
  | followedBy p q ihp ihq =>
    have hparts := cellsAt_parts hcells
    exact (ihp _ _ hparts.1).followedBy (ihq _ _ hparts.2)
  | notFollowedBy p q ihp ihq =>
    have hparts := cellsAt_parts hcells
    exact (ihp _ _ hparts.1).notFollowedBy (ihq _ _ hparts.2)
  | trace p name description ih =>
    exact ((ih _ _ hcells).traced_left Represents.ignoresLog _).traced_right
      Represents.ignoresLog _

theorem coupled_ruleInMemory (depth : Nat) (r : Fin n)
    (place : Place) (refs : List (Fin n × Place)) (base : Nat)
    (hcells : CellsAt refs base ((rules r).references place)) :
    Attempt.Coupled (Represents rules) refs tokens (ruleAttempt rules depth r place)
      (ruleInMemory rules depth r base) := by
  induction depth generalizing r place refs base with
  | zero => exact fun _ _ _ _ _ _ => .none
  | succ depth ih => exact coupled_inMemoryWith ih (rules r) place refs base hcells

/-- **A parser in memory** does what its unfolding does, on all tokens and from every index. -/
theorem coupled_inMemory (rules : (r : Fin n) → Parser σ τ ty (ty r)) (p : Parser σ τ ty α)
    (tokens : Array τ) :
    Attempt.Coupled (Represents rules) (p.references []) tokens (p.attempt rules)
      (p.inMemory rules) := by
  intro i
  refine coupled_inMemoryWith (coupled_ruleInMemory _) p [] (p.references []) 0 ?_ i
  intro k q hq
  rwa [Nat.zero_add]

end Parser

end

end RegArith
