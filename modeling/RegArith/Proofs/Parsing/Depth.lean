import Mathlib.Data.Finset.Prod
import Mathlib.Data.Fintype.Basic
import Mathlib.Order.Interval.Finset.Nat
import RegArith.Proofs.Parsing.Alignment
import RegArith.Proofs.Parsing.Failures

/-!
# How deep references have to be unfolded

A parse unfolds a reference whenever it comes to one, and `attempt` cuts it off at a fixed depth.
Nothing is lost by that. As long as actions are pure, whether a rule ends depends only on its index;
the indices that a parse visits lie between its start and the end of the tokens; and once a further
unfolding lets no rule end at an index where it did not end before, no later unfolding will either.
So each unfolding that helps at all adds a rule at an index, and there are only `n` rules at
`tokens.size - i + 1` indices.

An input that is cut or extended behind the furthest index of an outcome is parsed to another depth.
With the depth out of the way, locality holds of whole parses.

## Main definitions

* `Parser.endsWithin` — a rule ends at an index with references unfolded to a given depth

## Main results

* `Parser.endsWithin_bound` — the depth that suffices for all rules
* `Parser.attempt_of_eval` — `attempt` ends whenever unfolding to some depth makes the parser end
* `Parser.parse_decided_by_reach` — a parse is decided by the tokens up to its furthest index
-/

namespace RegArith

theorem Outcome.Aligned.eq_of_imp {α : Type} {P : Nat → Nat → Prop} {o o' : Outcome α}
    (h : Outcome.Aligned P o o') (hP : ∀ i i', P i i' → i = i') : o = o' := by
  refine Outcome.aligned_eq_iff.1 ?_
  obtain ⟨hx⟩ | ⟨he⟩ := h
  · exact .ok ⟨hx.value, hP _ _ hx.next, hP _ _ hx.furthest⟩
  · exact .error (hP _ _ he)

namespace Parser

variable {σ τ α : Type} {n : Nat} {ty : Fin n → Type}
variable {rules : (r : Fin n) → Parser σ τ ty (ty r)} {tokens : Array τ} {s : σ}

/-! ### Rules at indices -/

/-- Within the depth, the rule ends at the index. -/
def endsWithin (rules : (r : Fin n) → Parser σ τ ty (ty r)) (tokens : Array τ) (s : σ) (depth : Nat)
    (r : Fin n) (i : Nat) : Bool :=
  (ruleAttempt rules depth r [] tokens i (.new s)).isSome

/-- A run with pure actions stays in the state `s`. -/
abbrev InState (s : σ) : σ → σ → Prop := fun u u' => u = s ∧ u' = s

/-- An index from `lo` to `hi`. -/
abbrev InWindow (lo hi : Nat) : Nat → Nat → Prop := fun i i' => i = i' ∧ lo ≤ i ∧ i ≤ hi

section Window

variable {lo hi : Nat} (hpure : ∀ r, (rules r).IsPure) (hsize : tokens.size ≤ hi)

include hpure

theorem endsWithin_of_ruleAttempt {depth depth' : Nat} (hle : depth ≤ depth') {r : Fin n}
    {place : Place} {i : Nat} {j : Journal σ} (hj : j.state = s) {x : Outcome (ty r) × Journal σ}
    (h : ruleAttempt rules depth r place tokens i j = some x) :
    endsWithin rules tokens s depth' r i := by
  have hstate : InState s j.state (Journal.new s).state := ⟨hj, rfl⟩
  obtain ⟨o', j', h', -⟩ := mirrors_ruleAttempt (Alignment.refl tokens)
    (fun r => (hpure r).carries (InState s)) hle r place [] rfl hstate h
  exact Option.isSome_iff_exists.2 ⟨(o', j'), h'⟩

theorem endsWithin_mono {depth depth' : Nat} (hle : depth ≤ depth') {r : Fin n} {i : Nat}
    (h : endsWithin rules tokens s depth r i) : endsWithin rules tokens s depth' r i := by
  obtain ⟨x, hx⟩ := Option.isSome_iff_exists.1 h
  exact endsWithin_of_ruleAttempt hpure hle rfl hx

include hsize

/-- If nothing between `lo` and `hi` needs the greater depth, the smaller one gives the same. -/
theorem mirrors_of_endsWithin {depth depth' : Nat} (hle : depth ≤ depth')
    (h : ∀ r i, lo ≤ i → i ≤ hi → endsWithin rules tokens s depth' r i →
      endsWithin rules tokens s depth r i) (r : Fin n) (place place' : Place) :
    Attempt.Mirrors (InState s) (InWindow lo hi) tokens tokens (ruleAttempt rules depth' r place)
      (ruleAttempt rules depth r place') := by
  rintro i _ ⟨rfl, hlo, hhi⟩ j j' ⟨hj, hj'⟩ o j₁ ho
  have hends := h r i hlo hhi (endsWithin_of_ruleAttempt hpure (Nat.le_refl _) hj ho)
  obtain ⟨⟨o₀, j₀⟩, h₀⟩ := Option.isSome_iff_exists.1 hends
  have halign := Alignment.window lo hsize
  have hcarries := fun r => (hpure r).carries (InState s)
  -- the shallow run is the deep one on the one hand, and what is asked for on the other
  obtain ⟨o₁, j₁', h₁, ho₁, hstate₁⟩ :=
    mirrors_ruleAttempt halign hcarries hle r [] place ⟨rfl, hlo, hhi⟩ ⟨rfl, hj⟩ h₀
  obtain ⟨o', j₂', h₂, ho₂, hstate₂⟩ :=
    mirrors_ruleAttempt halign hcarries (Nat.le_refl _) r [] place' ⟨rfl, hlo, hhi⟩ ⟨rfl, hj'⟩ h₀
  rw [ho] at h₁
  cases h₁
  obtain rfl := ho₁.eq_of_imp fun _ _ hi => hi.1
  exact ⟨o', j₂', h₂, ho₂, hstate₁.2, hstate₂.2⟩

/-- If one more unfolding is of no use between `lo` and `hi`, the next one is not either. -/
theorem endsWithin_succ {depth : Nat}
    (h : ∀ r i, lo ≤ i → i ≤ hi → endsWithin rules tokens s (depth + 1) r i →
      endsWithin rules tokens s depth r i) (r : Fin n) (i : Nat) (hlo : lo ≤ i) (hhi : i ≤ hi)
    (hends : endsWithin rules tokens s (depth + 2) r i) :
    endsWithin rules tokens s (depth + 1) r i := by
  obtain ⟨⟨o, j⟩, ho⟩ := Option.isSome_iff_exists.1 hends
  have hstate : InState s (Journal.new s).state (Journal.new s).state := ⟨rfl, rfl⟩
  obtain ⟨o', j', ho', -⟩ := mirrors_evalWith (Alignment.window lo hsize)
    (advances_ruleAttempt rules (depth + 1)) (advances_ruleAttempt rules depth)
    (mirrors_of_endsWithin hpure hsize (Nat.le_succ depth) h) (rules r)
    ((hpure r).carries (InState s)) [] [] ⟨rfl, hlo, hhi⟩ hstate ho
  exact Option.isSome_iff_exists.2 ⟨(o', j'), ho'⟩

end Window

/-! ### Counting rules at indices -/

/-- The rules at indices from `lo` to `hi` that end within the depth. -/
def endedWithin (rules : (r : Fin n) → Parser σ τ ty (ty r)) (tokens : Array τ) (s : σ)
    (lo hi depth : Nat) : Finset (Fin n × Nat) :=
  (Finset.univ ×ˢ Finset.Icc lo hi).filter fun q => endsWithin rules tokens s depth q.1 q.2

theorem mem_endedWithin {lo hi depth : Nat} {q : Fin n × Nat} :
    q ∈ endedWithin rules tokens s lo hi depth ↔
      (lo ≤ q.2 ∧ q.2 ≤ hi) ∧ endsWithin rules tokens s depth q.1 q.2 := by
  simp [endedWithin]

theorem card_endedWithin_le (rules : (r : Fin n) → Parser σ τ ty (ty r)) (tokens : Array τ) (s : σ)
    (lo hi depth : Nat) :
    (endedWithin rules tokens s lo hi depth).card ≤ n * (hi + 1 - lo) := by
  refine (Finset.card_filter_le _ _).trans_eq ?_
  rw [Finset.card_product, Finset.card_univ, Fintype.card_fin, Nat.card_Icc]

section Bound

variable {lo hi : Nat} (hpure : ∀ r, (rules r).IsPure)

include hpure

theorem endedWithin_subset {depth depth' : Nat} (hle : depth ≤ depth') :
    endedWithin rules tokens s lo hi depth ⊆ endedWithin rules tokens s lo hi depth' := by
  intro q hq
  rw [mem_endedWithin] at hq ⊢
  exact ⟨hq.1, endsWithin_mono hpure hle hq.2⟩

/-- **Enough depth.** A rule that ends at all between `lo` and `hi` does so with references unfolded
once for each rule at each index there. -/
theorem endsWithin_bound (hsize : tokens.size ≤ hi) {depth : Nat} {r : Fin n} {i : Nat}
    (hlo : lo ≤ i) (hhi : i ≤ hi) (h : endsWithin rules tokens s depth r i) :
    endsWithin rules tokens s (n * (hi + 1 - lo)) r i := by
  let ended := endedWithin rules tokens s lo hi
  have hsubset {d d' : Nat} (hle : d ≤ d') : ended d ⊆ ended d' := endedWithin_subset hpure hle
  have hmono : Monotone fun d => (ended d).card := fun d d' hle =>
    Finset.card_le_card (hsubset hle)
  -- sets of equal size are equal, and then the next one is equal as well
  have hstable : ∀ d, (ended d).card = (ended (d + 1)).card →
      (ended (d + 1)).card = (ended (d + 2)).card := by
    intro d hd
    have heq := Finset.eq_of_subset_of_card_le (hsubset (Nat.le_succ d)) (Nat.le_of_eq hd.symm)
    refine congrArg Finset.card ((hsubset (Nat.le_succ (d + 1))).antisymm ?_)
    intro q hq
    obtain ⟨hrange, hends⟩ := mem_endedWithin.1 hq
    refine mem_endedWithin.2 ⟨hrange, ?_⟩
    refine endsWithin_succ hpure hsize (fun r i hlo hhi hends => ?_) q.1 q.2 hrange.1 hrange.2 hends
    have hmem : (r, i) ∈ ended (d + 1) := mem_endedWithin.2 ⟨⟨hlo, hhi⟩, hends⟩
    rw [← heq] at hmem
    exact (mem_endedWithin.1 hmem).2
  obtain hle | hle := Nat.le_total depth (n * (hi + 1 - lo))
  · exact endsWithin_mono hpure hle h
  · have hcard := Nat.stabilises_of_monotone hmono (card_endedWithin_le rules tokens s lo hi)
      hstable hle
    have heq := Finset.eq_of_subset_of_card_le (hsubset hle) (Nat.le_of_eq hcard)
    have hmem : (r, i) ∈ ended depth := mem_endedWithin.2 ⟨⟨hlo, hhi⟩, h⟩
    rw [← heq] at hmem
    exact (mem_endedWithin.1 hmem).2

end Bound

/-! ### Whole parses -/

/-- **`attempt` gives up on no parse that ends.** Whatever a parser with pure actions comes to when
references are unfolded to some depth, `attempt` comes to as well. -/
theorem attempt_of_eval (hpure : ∀ r, (rules r).IsPure) {p : Parser σ τ ty α} (hp : p.IsPure)
    {depth i : Nat} {j j' : Journal σ} {o : Outcome α}
    (h : p.eval rules depth tokens i j = some (o, j')) :
    ∃ j'', p.attempt rules tokens i j = some (o, j'') ∧ j''.state = j'.state := by
  let bound := n * (tokens.size - i + 1)
  obtain hle | hle := Nat.le_total depth bound
  · obtain ⟨o', j'', h', ho, hstate⟩ := mirrors_eval (Alignment.refl tokens)
      (fun r => (rules r).carries_eq) hle p p.carries_eq rfl (rfl : j.state = j.state) h
    obtain rfl := Outcome.aligned_eq_iff.1 ho
    exact ⟨j'', h', hstate.symm⟩
  · have hbound : n * (max i tokens.size + 1 - i) = bound := by
      rw [show max i tokens.size + 1 - i = tokens.size - i + 1 by omega]
    have hsize : tokens.size ≤ max i tokens.size := Nat.le_max_right _ _
    have hends : ∀ r k, i ≤ k → k ≤ max i tokens.size →
        endsWithin rules tokens j.state depth r k → endsWithin rules tokens j.state bound r k := by
      intro r k hlo hhi hends
      rw [← hbound]
      exact endsWithin_bound hpure hsize hlo hhi hends
    have hj : InState j.state j.state j.state := ⟨rfl, rfl⟩
    obtain ⟨o', j'', h', ho, hstate, hstate'⟩ := mirrors_evalWith (Alignment.window i hsize)
      (advances_ruleAttempt rules depth) (advances_ruleAttempt rules bound)
      (mirrors_of_endsWithin hpure hsize hle hends) p (hp.carries (InState j.state)) [] []
      ⟨rfl, Nat.le_refl i, Nat.le_max_left _ _⟩ hj h
    obtain rfl := ho.eq_of_imp fun _ _ hi => hi.1
    exact ⟨j'', h', hstate'.trans hstate.symm⟩

/-- **What decides a parse.** Let a second input have the same token, or none, at every index up to
the furthest one that an outcome reports. If a regular parser comes to that outcome on the first
input, it does so on the second: to whatever depth references are unfolded, with all that it leaves
in the journal; and, if its actions are pure, as a whole parse, although the second input may be of
another length and be parsed to another depth. -/
theorem parse_decided_by_reach (rules : (r : Fin n) → Parser σ τ ty (ty r))
    (hrules : ∀ r, (rules r).isRegular) (p : Parser σ τ ty α) (hp : p.isRegular)
    (tokens tokens' : Array τ) (i : Nat) (j j' : Journal σ) (o : Outcome α)
    (hagree : ∀ k ≤ o.reach, tokens[k]? = tokens'[k]?) :
    (∀ depth, p.eval rules depth tokens i j = some (o, j') →
      p.eval rules depth tokens' i j = some (o, j')) ∧
    ((∀ r, (rules r).IsPure) → p.IsPure → p.attempt rules tokens i j = some (o, j') →
      ∃ j'', p.attempt rules tokens' i j = some (o, j'') ∧ j''.state = j'.state) := by
  have heval : ∀ depth, p.eval rules depth tokens i j = some (o, j') →
      p.eval rules depth tokens' i j = some (o, j') :=
    fun depth h => local_eval hrules depth p hp h hagree
  exact ⟨heval, fun hpure hp h => attempt_of_eval hpure hp (heval _ h)⟩

theorem isPure_bracketGroups (r : Fin 1) : (bracketGroups r).IsPure :=
  ⟨⟨trivial, trivial, trivial⟩, List.length, fun _ => rfl⟩

/-- Bracketed groups in a row, and nothing behind them. In `(x)` the group is found to be unclosed
at index 1, and in `(x` just the same: nothing behind the `x` was looked at, not even whether there
is anything. -/
theorem parse_decided_unclosed_group :
    (∀ k ≤ 1, (#['(', 'x', ')'] : Array Char)[k]? = (#['(', 'x'] : Array Char)[k]?) ∧
    ∃ j' j'' : Journal Unit,
      ((rule 0).seq (endOfInput : Parser Unit Char _ (Match Unit))).attempt bracketGroups
        #['(', 'x', ')'] 0 (.new ()) = some (.error ⟨1⟩, j') ∧
      ((rule 0).seq (endOfInput : Parser Unit Char _ (Match Unit))).attempt bracketGroups
        #['(', 'x'] 0 (.new ()) = some (.error ⟨1⟩, j'') := by
  have hagree : ∀ k ≤ 1, (#['(', 'x', ')'] : Array Char)[k]? = (#['(', 'x'] : Array Char)[k]? := by
    decide
  have hrun : (((rule 0).seq (endOfInput : Parser Unit Char _ (Match Unit))).attempt bracketGroups
      #['(', 'x', ')'] 0 (.new ())).map Prod.fst = some (.error ⟨1⟩) := by decide +kernel
  have hpure : ((rule 0).seq (endOfInput :
      Parser Unit Char (fun _ : Fin 1 => Nat) (Match Unit))).IsPure := ⟨isPure_rule 0, trivial⟩
  obtain ⟨⟨o, j'⟩, h, rfl⟩ := Option.map_eq_some_iff.1 hrun
  obtain ⟨j'', h', -⟩ := (parse_decided_by_reach bracketGroups (by decide) _ rfl _ _ 0 _ j'
    (.error ⟨1⟩) hagree).2 isPure_bracketGroups hpure h
  exact ⟨hagree, j', j'', h, h'⟩

end Parser

end RegArith
