import RegArith.Proofs.Parsing.Alignment

/-!
# Input behind other tokens

No parser looks behind the index it is tried at. Putting tokens in front of an input therefore moves
every index that a result mentions by their number and changes nothing else: not the value, not
the state, and not whether the parse ends. A start past the end of the input is no exception, and
neither is a search, which fails at the end wherever it started.

## Main definitions

* `Outcome.shift` — the outcome with its indices moved
* `Attempt.MovesBehind` — the attempt does behind other tokens what it does without them

## Main results

* `Parser.attempt_append_shift` — parsing and searching behind other tokens
-/

namespace RegArith

variable {σ τ α : Type}

/-- The output with its indices moved by `k`. -/
def Output.shift (k : Nat) (x : Output α) : Output α := ⟨x.value, k + x.next, k + x.furthest⟩

/-- The outcome with its indices moved by `k`. -/
def Outcome.shift (k : Nat) : Outcome α → Outcome α
  | .ok x => .ok (x.shift k)
  | .error e => .error ⟨k + e.index⟩

theorem Outcome.Aligned.eq_shift {k : Nat} {o o' : Outcome α}
    (h : Outcome.Aligned (fun i i' => i' = k + i) o o') : o' = o.shift k := by
  refine (Outcome.aligned_eq_iff.1 ?_).symm
  obtain ⟨hx⟩ | ⟨he⟩ := h
  · exact .ok ⟨hx.value, hx.next.symm, hx.furthest.symm⟩
  · exact .error he.symm

/-- Tokens in front move every index by their number. -/
theorem Alignment.append (pre tokens : Array τ) :
    Alignment tokens (pre ++ tokens) fun i i' => i' = pre.size + i where
  get i i' hi := by
    rw [hi, Array.getElem?_append_right (Nat.le_add_right _ _), Nat.add_sub_cancel_left]
  atEnd i i' hi := by
    rw [hi, Array.size_append]
    omega
  succ i i' hi _ := by rw [hi, Nat.add_assoc]
  lt i i' k k' hi hk := by omega

namespace Attempt

/-- The attempt is followed from the tokens to those behind `pre`, and back. -/
structure MovesBehind (pre tokens : Array τ) (a : Attempt σ τ α) : Prop where
  forth : Mirrors Eq (fun i i' => i' = pre.size + i) tokens (pre ++ tokens) a a
  back : Mirrors Eq (fun i' i => i' = pre.size + i) (pre ++ tokens) tokens a a

namespace MovesBehind

variable {pre tokens : Array τ} {a : Attempt σ τ α}

/-- Its results are moved. -/
theorem map_eq (h : MovesBehind pre tokens a) (i : Nat) (j : Journal σ) :
    (a (pre ++ tokens) (pre.size + i) j).map (fun r => (r.1, r.2.state)) =
      (a tokens i j).map fun r => (r.1.shift pre.size, r.2.state) :=
  ((h.forth rfl).mono fun _ _ h => h.eq_shift).map_eq (h.back rfl) rfl

theorem search (h : MovesBehind pre tokens a) : MovesBehind pre tokens a.search :=
  have halign := Alignment.append pre tokens
  have hend : (pre ++ tokens).size = pre.size + tokens.size := Array.size_append
  ⟨h.forth.search halign hend, h.back.search halign.symm hend⟩

end MovesBehind

end Attempt

namespace Parser

variable {n : Nat} {ty : Fin n → Type} (rules : (r : Fin n) → Parser σ τ ty (ty r))
  (p : Parser σ τ ty α) (pre tokens : Array τ)

theorem movesBehind_eval (depth : Nat) : (p.eval rules depth).MovesBehind pre tokens :=
  have halign := Alignment.append pre tokens
  have hrules := fun r => (rules r).carries_eq
  ⟨mirrors_eval halign hrules (Nat.le_refl depth) p p.carries_eq,
    mirrors_eval halign.symm hrules (Nat.le_refl depth) p p.carries_eq⟩

/-- Tokens in front leave as much input to a parse as there was, and so the same depth. -/
theorem movesBehind_attempt : (p.attempt rules).MovesBehind pre tokens := by
  have hdepth (i : Nat) : p.attempt rules (pre ++ tokens) (pre.size + i) =
      p.eval rules (n * (tokens.size - i + 1)) (pre ++ tokens) (pre.size + i) := by
    rw [attempt, Array.size_append, Nat.add_sub_add_left]
  constructor
  · rintro i _ rfl
    rw [hdepth]
    exact (p.movesBehind_eval rules pre tokens _).forth rfl
  · rintro _ i rfl
    rw [hdepth]
    exact (p.movesBehind_eval rules pre tokens _).back rfl

/-- **Shift invariance.** Behind other tokens, a parser ends exactly if it ends without them, with
the same value and state and with all indices moved by the number of those tokens. This holds to
whatever depth references are unfolded, for a whole parse, and for a search. -/
theorem attempt_append_shift (i : Nat) (j : Journal σ) :
    (∀ depth, (p.eval rules depth (pre ++ tokens) (pre.size + i) j).map
        (fun r => (r.1, r.2.state)) =
      (p.eval rules depth tokens i j).map (fun r => (r.1.shift pre.size, r.2.state))) ∧
    (p.attempt rules (pre ++ tokens) (pre.size + i) j).map (fun r => (r.1, r.2.state)) =
      (p.attempt rules tokens i j).map (fun r => (r.1.shift pre.size, r.2.state)) ∧
    ((p.attempt rules).search (pre ++ tokens) (pre.size + i) j).map (fun r => (r.1, r.2.state)) =
      ((p.attempt rules).search tokens i j).map (fun r => (r.1.shift pre.size, r.2.state)) :=
  ⟨fun depth => (p.movesBehind_eval rules pre tokens depth).map_eq i j,
    (p.movesBehind_attempt rules pre tokens).map_eq i j,
    (p.movesBehind_attempt rules pre tokens).search.map_eq i j⟩

end Parser

end RegArith
