import RegArith.Proofs.Machine.Signed

/-!
# The code of an expression on its own

The lines that lowering appends for an expression are straight code: control enters at the first of
them and leaves behind the last one, unless a division faults. So they can be run as a listing of
their own, and what such a run comes to is exactly what evaluating the expression comes to. Within a
longer listing they do the same and control goes on behind them.

An expression may name every register but `rax` and `rbx`, which its code works with. Those that
only a hand-made tree can name, like the counter of a loop, are kept like the others.

## Main definitions

* `Machine.Computed` — a state in which code has left a value, and nothing else that matters

## Main results

* `Expr.reaches_or_ends` — the code of an expression within a listing
* `Expr.lower_refines_eval` — the lines of an expression run as the expression evaluates
-/

namespace RegArith

open Machine

/-! ### Runs of a piece of code -/

/-- From `s` on, code of the given size has left a value in `rax` and a residue. The stack and the
output are those of `s`, and so are the registers that expressions do not work with. -/
structure Machine.Computed (s : State) (size : Nat) (v : Word) (d : Residue) (t : State) :
    Prop where
  /-- Control is behind the code. -/
  line : t.line = s.line + size
  rax : t.regs .rax = v
  residue : t.residue = d
  stack : t.stack = s.stack
  output : t.output = s.output
  /-- All other registers are kept. -/
  regs : ∀ r, r ≠ .rax → r ≠ .rbx → t.regs r = s.regs r

/-- Behind the last line there is nothing to execute. -/
theorem Machine.step_of_line_eq {listing : List Line} {t : State} (h : t.line = listing.length)
    (world : World) : step listing world t = .stuck := by
  rw [step, h, List.getElem?_length]

/-- A run that has come behind the last line does not end. -/
theorem Machine.Reaches.not_ends {listing : List Line} {world : World} {s t : State}
    (h : Reaches listing world s t) (ht : t.line = listing.length) (b : Behaviour) :
    ¬Ends listing world s b := by
  rintro ⟨u, hu, hended, -⟩
  have hstuck := step_of_line_eq ht world
  obtain rfl : t = u := h.eq_of_final hu (fun v hv => by simp [hstuck] at hv)
    (fun v hv => by simp [hended] at hv)
  rw [hstuck] at hended
  cases hended

namespace Expr

variable {e : Expr}

/-- **The code of an expression within a listing.** With a value the run comes behind the code, and
with a fault it ends. -/
theorem reaches_or_ends (hfits : e.misfit = none) (hrax : .rax ∉ e.registers)
    (hrbx : .rbx ∉ e.registers) {listing : List Line} {s : State}
    (hcode : CodeAt listing s.line e.code) (world : World) :
    match e.eval s.regs s.residue with
    | .ok (v, d) => ∃ t, Reaches listing world s t ∧ Computed s e.code.length v d t
    | .error k => Ends listing world s ⟨s.output, .faulted k⟩ := by
  have hne : ∀ r ∈ e.registers, r ≠ .rax ∧ r ≠ .rbx := fun r hr =>
    ⟨fun h => hrax (h ▸ hr), fun h => hrbx (h ▸ hr)⟩
  have hfollows : Follows listing world s (e.eval s.regs) _ :=
    e.follows hfits hne hcode s.regs s.residue s.stack s.output
  unfold Follows at hfollows
  cases heval : e.eval s.regs s.residue with
  | error k =>
    rw [heval] at hfollows
    exact hfollows
  | ok r =>
    rw [heval] at hfollows
    obtain ⟨t, hreaches, -, hd, rbx, d', rfl⟩ := hfollows
    exact ⟨_, hreaches, rfl, rfl, hd, rfl, rfl, fun r => Registers.scratch_of_ne _ _ _⟩

/-- **Lowered expressions refine evaluation.** If an expression that names neither `rax` nor `rbx`
is lowered, the lines that are appended run as the expression evaluates, from every state. Wherever
they stand in a listing, a value is left in `rax` and the residue in `rdx`, with the stack and all
other registers but `rbx` as before, and a fault of the evaluation ends the run. As a listing of
their own, they are left with what evaluation comes to and in no other way, and a fault comes from
evaluation only. -/
theorem lower_refines_eval (e : Expr) (before : Array Line)
    (hlower : (e.lower.run before).1 = .ok ()) (hrax : .rax ∉ e.registers)
    (hrbx : .rbx ∉ e.registers) :
    ∃ lines : List Line, e.lower.run before = (.ok (), before ++ lines.toArray) ∧
      (∀ listing world s, CodeAt listing s.line lines →
        match e.eval s.regs s.residue with
        | .ok (v, d) => ∃ t, Reaches listing world s t ∧ Computed s lines.length v d t
        | .error k => Ends listing world s ⟨s.output, .faulted k⟩) ∧
      ∀ world s, s.line = 0 →
        (∀ t, Reaches lines world s t → t.line = lines.length →
          ∃ v d, e.eval s.regs s.residue = .ok (v, d) ∧ Computed s lines.length v d t) ∧
        ∀ b, Ends lines world s b ↔
          ∃ k, e.eval s.regs s.residue = .error k ∧ b = ⟨s.output, .faulted k⟩ := by
  obtain ⟨hfits, hrun⟩ := e.lowers.eq_of_ok hlower
  refine ⟨e.code, hrun, fun listing world s hcode => reaches_or_ends hfits hrax hrbx hcode world,
    fun world s hs => ?_⟩
  have hcode : CodeAt e.code s.line e.code := by
    rw [hs]
    exact codeAt_zero _
  have hcomes := reaches_or_ends hfits hrax hrbx hcode world
  cases heval : e.eval s.regs s.residue with
  | ok r =>
    obtain ⟨v, d⟩ := r
    rw [heval] at hcomes
    obtain ⟨u, hu, hcomputed⟩ := hcomes
    have hline : u.line = e.code.length := by rw [hcomputed.line, hs, Nat.zero_add]
    refine ⟨fun t ht hend => ⟨v, d, rfl, ?_⟩, fun b => iff_of_false (hu.not_ends hline b) ?_⟩
    · obtain rfl : t = u := ht.eq_of_final hu (fun w hw => by simp [step_of_line_eq hend] at hw)
        (fun w hw => by simp [step_of_line_eq hline] at hw)
      exact hcomputed
    · simp
  | error k =>
    rw [heval] at hcomes
    refine ⟨fun t ht hend => absurd hcomes (ht.not_ends hend _), fun b => ?_⟩
    constructor
    · exact fun hb => ⟨k, rfl, hb.unique hcomes⟩
    · rintro ⟨k', hk, rfl⟩
      cases hk
      exact hcomes

/-- The expression `rcx / 2 - rdi * 3`, with 9 in all registers. The product leaves zero in `rdx`
for the division; the remainder of that division is what the code leaves there. -/
theorem lower_refines_eval_difference :
    ∃ lines : List Line,
      (Expr.arith .sub (.arith .div (.reg .rcx) (.num 2))
        (.arith .mul (.reg .rdi) (.num 3))).lower.run #[.blank] =
          (.ok (), #[.blank] ++ lines.toArray) ∧
      ∀ world stack, ∃ t, Reaches lines world ⟨0, fun _ => 9, ⟨5, 0⟩, stack, []⟩ t ∧
        Computed ⟨0, fun _ => 9, ⟨5, 0⟩, stack, []⟩ lines.length (-23) ⟨1, 1⟩ t := by
  have heval : (Expr.arith .sub (.arith .div (.reg .rcx) (.num 2))
      (.arith .mul (.reg .rdi) (.num 3))).eval (fun _ => 9) ⟨5, 0⟩ = .ok (-23, ⟨1, 1⟩) := by rfl
  obtain ⟨lines, hrun, hplaced, -⟩ := lower_refines_eval
    (.arith .sub (.arith .div (.reg .rcx) (.num 2)) (.arith .mul (.reg .rdi) (.num 3))) #[.blank]
    rfl (by decide) (by decide)
  refine ⟨lines, hrun, fun world stack => ?_⟩
  have hcomes := hplaced lines world ⟨0, fun _ => 9, ⟨5, 0⟩, stack, []⟩ (codeAt_zero lines)
  simpa only [heval] using hcomes

end Expr

end RegArith
