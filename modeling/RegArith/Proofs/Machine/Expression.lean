import RegArith.Proofs.Assembly.Placement
import RegArith.Proofs.Machine.Interpreter

/-!
# The code of expressions and assignments

Running the code of an expression does what evaluating the expression does. `Follows` puts both
outcomes into one statement: if evaluation gives a result the machine comes to a state that shows
it, and if evaluation faults the run ends there, with nothing more printed. Its rule for one thing
after the other is what an induction over expressions needs, so that no case is proved twice.

Expression code works with `rax`, `rbx` and `rdx` only. What it pushes it pops again. An expression
may name any other register.

## Main definitions

* `Machine.Follows` — a run does what a computation does
* `Registers.scratch` — registers that differ in `rax` and `rbx`

## Main results

* `Expr.follows` — the code of an expression
* `Assignment.follows` — the code of an assignment
-/

namespace RegArith

/-- The registers with other contents of the two that expressions work with. -/
def Registers.scratch (regs : Registers) (rbx rax : Word) : Registers
  | .rax => rax
  | .rbx => rbx
  | r => regs r

namespace Registers

variable (regs : Registers) (a b a' b' : Word)

@[simp] theorem scratch_rax : regs.scratch b a .rax = a := rfl

@[simp] theorem scratch_rbx : regs.scratch b a .rbx = b := rfl

theorem scratch_of_ne {r : Register} (h : r ≠ .rax) (h' : r ≠ .rbx) :
    regs.scratch b a r = regs r := by
  cases r <;> first | rfl | contradiction

@[simp] theorem scratch_scratch : (regs.scratch b a).scratch b' a' = regs.scratch b' a' := by
  funext r
  cases r <;> rfl

theorem update_rax : Function.update regs .rax a = regs.scratch (regs .rbx) a := by
  funext r
  cases r <;> rfl

@[simp] theorem update_scratch_rax :
    Function.update (regs.scratch b a) .rax a' = regs.scratch b a' := by
  rw [update_rax, scratch_scratch, scratch_rbx]

@[simp] theorem update_scratch_rbx :
    Function.update (regs.scratch b a) .rbx b' = regs.scratch b' a := by
  funext r
  cases r <;> rfl

end Registers

namespace Machine

variable {listing : List Line} {world : World} {α β : Type}

/-! ### Lines -/

/-- Whether a line is passed over. -/
def idle : Line → Bool
  | .label _ | .comment _ | .blank => true
  | .instr _ | .directive _ => false

theorem step_instr {s : State} {i : Instr} (h : listing[s.line]? = some (.instr i)) :
    step listing world s = exec listing world s i := by
  rw [step, h]

section

variable {n : Nat} {regs : Registers} {d : Residue} {stack : List Slot} {output : List Word}

theorem reaches_idle {l : Line} (h : listing[n]? = some l) (hl : idle l) :
    Reaches listing world ⟨n, regs, d, stack, output⟩ ⟨n + 1, regs, d, stack, output⟩ := by
  refine .single ?_
  cases l with
  | label | comment | blank => rw [step, h]
  | instr | directive => cases hl

theorem reaches_mov {r : Register} {source : Operand}
    (h : listing[n]? = some (.instr (.mov r source))) :
    Reaches listing world ⟨n, regs, d, stack, output⟩
      ⟨n + 1, Function.update regs r (value world regs source), d, stack, output⟩ :=
  .single (by rw [step_instr h]; rfl)

theorem reaches_push {r : Register} (h : listing[n]? = some (.instr (.push r))) :
    Reaches listing world ⟨n, regs, d, stack, output⟩
      ⟨n + 1, regs, d, .data (regs r) :: stack, output⟩ :=
  .single (by rw [step_instr h]; rfl)

theorem reaches_pop {r : Register} {w : Word} (h : listing[n]? = some (.instr (.pop r))) :
    Reaches listing world ⟨n, regs, d, .data w :: stack, output⟩
      ⟨n + 1, Function.update regs r w, d, stack, output⟩ :=
  .single (by rw [step_instr h]; rfl)

end

/-! ### Runs and computations -/

/-- The run from `s` does what the calculation does: with a result it comes to a state that has
the residue and is related to the result by `post`, and with a fault it ends. Nothing is printed
in either case. -/
def Follows (listing : List Line) (world : World) (s : State) (c : Calculation α)
    (post : α → State → Prop) : Prop :=
  match c s.residue with
  | .ok (a, d) => ∃ t, Reaches listing world s t ∧ t.output = s.output ∧ t.residue = d ∧ post a t
  | .error n => Ends listing world s ⟨s.output, .faulted n⟩

variable {s t : State} {c : Calculation α} {post : α → State → Prop}

theorem Follows.pure {a : α} (h : Reaches listing world s t) (ho : t.output = s.output)
    (hd : t.residue = s.residue) (hp : post a t) : Follows listing world s (return a) post :=
  ⟨t, h, ho, hd, hp⟩

theorem Reaches.follows (h : Reaches listing world s t) (ho : t.output = s.output)
    (hd : t.residue = s.residue) (hc : Follows listing world t c post) :
    Follows listing world s c post := by
  unfold Follows at hc ⊢
  rw [hd] at hc
  cases hx : c s.residue with
  | error n =>
    rw [hx, ho] at hc
    exact h.ends hc
  | ok r =>
    rw [hx] at hc
    obtain ⟨u, hu, hou, hdu, hp⟩ := hc
    exact ⟨u, h.trans hu, hou.trans ho, hdu, hp⟩

/-- One calculation after the other. -/
theorem Follows.bind {f : α → Calculation β} {post' : β → State → Prop}
    (h : Follows listing world s c post)
    (hf : ∀ a t, post a t → Follows listing world t (f a) post') :
    Follows listing world s (c >>= f) post' := by
  have hbind : (c >>= f) s.residue = c s.residue >>= fun r => f r.1 r.2 := rfl
  unfold Follows at h ⊢
  rw [hbind]
  cases hx : c s.residue with
  | error n =>
    rw [hx] at h
    exact h
  | ok r =>
    rw [hx] at h
    obtain ⟨t, ht, ho, hd, hp⟩ := h
    have hnext := hf r.1 t hp
    unfold Follows at hnext
    rw [hd, ho] at hnext
    change match f r.1 r.2 with
      | .ok (a, d) => _
      | .error n => _
    cases hy : f r.1 r.2 with
    | error n =>
      rw [hy] at hnext
      exact ht.ends hnext
    | ok q =>
      rw [hy] at hnext
      obtain ⟨u, hu, hou, hdu, hq⟩ := hnext
      exact ⟨u, ht.trans hu, hou, hdu, hq⟩

theorem Follows.mono {post' : α → State → Prop} (h : Follows listing world s c post)
    (hp : ∀ a t, post a t → post' a t) : Follows listing world s c post' := by
  unfold Follows at h ⊢
  cases hx : c s.residue with
  | error n =>
    rw [hx] at h
    exact h
  | ok r =>
    rw [hx] at h
    obtain ⟨t, ht, ho, hd, hpost⟩ := h
    exact ⟨t, ht, ho, hd, hp _ t hpost⟩

end Machine

open Machine

variable {listing : List Line} {world : World}

/-! ### Operations -/

/-- The instruction of an operation, with the left operand in `rax` and the right one in `rbx`. -/
theorem Op.follows (op : Op) {n : Nat} (h : listing[n]? = some (.instr op.instr))
    (regs : Registers) (x y : Word) (d : Residue) (stack : List Slot) (output : List Word) :
    Follows listing world ⟨n, regs.scratch y x, d, stack, output⟩ (op.apply x y) fun v t =>
      ∃ d', t = ⟨n + 1, regs.scratch y v, d', stack, output⟩ := by
  have hstep : step listing world ⟨n, regs.scratch y x, d, stack, output⟩ =
      exec listing world ⟨n, regs.scratch y x, d, stack, output⟩ op.instr := step_instr h
  cases op with
  | add | sub | mul =>
    simp only [exec, Op.instr, State.write, Registers.scratch_rax, Registers.scratch_rbx,
      Registers.update_scratch_rax] at hstep
    exact ⟨_, .single hstep, rfl, rfl, _, rfl⟩
  | div =>
    simp only [exec, Op.instr, State.write, Registers.scratch_rax, Registers.scratch_rbx,
      Registers.update_scratch_rax] at hstep
    rw [Follows, Op.apply]
    cases hdiv : Word.divide? d.rdx x y with
    | none =>
      rw [hdiv] at hstep
      exact ⟨_, .refl _, hstep, rfl⟩
    | some r =>
      rw [hdiv] at hstep
      exact ⟨_, .single hstep, rfl, rfl, _, rfl⟩

/-! ### Expressions -/

/-- **The code of an expression** leaves its value in `rax` and its residue in `rdx`, or faults
where the evaluation does. The stack and all other registers but `rbx` are as before. -/
theorem Expr.follows (e : Expr) (hfits : e.misfit = none)
    (hregs : ∀ r ∈ e.registers, r ≠ .rax ∧ r ≠ .rbx) {n : Nat} (hcode : CodeAt listing n e.code)
    (regs : Registers) (d : Residue) (stack : List Slot) (output : List Word) :
    Follows listing world ⟨n, regs, d, stack, output⟩ (e.eval regs) fun v t =>
      ∃ rbx d', t = ⟨n + e.code.length, regs.scratch rbx v, d', stack, output⟩ := by
  induction e generalizing n regs d stack with
  | num value =>
    obtain ⟨hcomment, hcode⟩ := codeAt_cons.1 hcode
    obtain ⟨hmov, -⟩ := codeAt_cons.1 hcode
    refine .pure ((reaches_idle hcomment rfl).trans (reaches_mov hmov)) rfl rfl
      ⟨regs .rbx, d, ?_⟩
    rw [Registers.update_rax]
    rfl
  | huge digits => cases hfits
  | reg r =>
    obtain ⟨hcomment, hcode⟩ := codeAt_cons.1 hcode
    obtain ⟨hmov, -⟩ := codeAt_cons.1 hcode
    refine .pure ((reaches_idle hcomment rfl).trans (reaches_mov hmov)) rfl rfl
      ⟨regs .rbx, d, ?_⟩
    rw [Registers.update_rax]
    rfl
  | arith op lhs rhs ihl ihr =>
    obtain ⟨hfitr, hfitl⟩ := Option.or_eq_none_iff.1 hfits
    have hregsl : ∀ r ∈ lhs.registers, r ≠ .rax ∧ r ≠ .rbx := fun r hr =>
      hregs r (List.mem_append.2 (.inl hr))
    have hregsr : ∀ r ∈ rhs.registers, r ≠ .rax ∧ r ≠ .rbx := fun r hr =>
      hregs r (List.mem_append.2 (.inr hr))
    obtain ⟨hright, hcode⟩ := codeAt_cons.1 hcode
    obtain ⟨hrhs, hcode⟩ := codeAt_append.1 hcode
    obtain ⟨hpushing, hcode⟩ := codeAt_cons.1 hcode
    obtain ⟨hpush, hcode⟩ := codeAt_cons.1 hcode
    obtain ⟨hleft, hcode⟩ := codeAt_cons.1 hcode
    obtain ⟨hlhs, hcode⟩ := codeAt_append.1 hcode
    obtain ⟨happlying, hcode⟩ := codeAt_cons.1 hcode
    obtain ⟨hpop, hcode⟩ := codeAt_cons.1 hcode
    obtain ⟨hop, -⟩ := codeAt_cons.1 hcode
    -- the right operand, and its value onto the stack
    refine (reaches_idle hright rfl).follows rfl rfl
      ((ihr hfitr hregsr hrhs regs d stack).bind ?_)
    rintro y _ ⟨b, d₁, rfl⟩
    refine ((reaches_idle hpushing rfl).trans ((reaches_push hpush).trans
      (reaches_idle hleft rfl))).follows rfl rfl ?_
    -- the left operand finds other scratch registers, which it does not name
    have heval : lhs.eval regs = lhs.eval (regs.scratch b y) := lhs.eval_congr fun r hr =>
      (Registers.scratch_of_ne _ _ _ (hregsl r hr).1 (hregsl r hr).2).symm
    rw [heval]
    refine (ihl hfitl hregsl hlhs (regs.scratch b y) d₁ _).bind ?_
    rintro x _ ⟨b', d₂, rfl⟩
    refine ((reaches_idle happlying rfl).trans (reaches_pop hpop)).follows rfl rfl ?_
    rw [Registers.scratch_scratch, Registers.update_scratch_rbx]
    refine (op.follows hop regs x y d₂ stack output).mono ?_
    rintro v _ ⟨d₃, rfl⟩
    refine ⟨y, d₃, ?_⟩
    rw [Expr.code]
    simp only [List.length_cons, List.length_append, List.length_nil, State.mk.injEq, and_true]
    omega

/-! ### Assignments -/

/-- The storage registers hold the storage. -/
def Env.Stored (env : Env) (regs : Registers) : Prop :=
  ∀ r ∈ Register.storage, regs r = env.store r

theorem Register.ne_of_mem_storage {r : Register} (h : r ∈ Register.storage) :
    r ≠ .rax ∧ r ≠ .rbx ∧ r ≠ .rcx ∧ r ≠ .rdi ∧ r ≠ .rsi := by
  revert h
  cases r <;> decide

theorem Expr.OnStorage.ne_scratch {e : Expr} (h : e.OnStorage) :
    ∀ r ∈ e.registers, r ≠ .rax ∧ r ≠ .rbx := fun r hr =>
  have hne := Register.ne_of_mem_storage (h r hr)
  ⟨hne.1, hne.2.1⟩

theorem Expr.OnStorage.eval_eq {e : Expr} (h : e.OnStorage) {env : Env} {regs : Registers}
    (hregs : env.Stored regs) : e.eval regs = e.eval env.store :=
  e.eval_congr fun r hr => hregs r (h r hr)

/-- The code of an assignment stores the value and leaves it in `rax`. It keeps `rcx`, so that it
can be the body of a loop. -/
theorem Assignment.follows {a : Assignment} (hfits : a.value.misfit = none) (ha : a.OnStorage)
    {n : Nat} (hcode : CodeAt listing n a.code) {env : Env} {regs : Registers}
    (hregs : env.Stored regs) (d : Residue) (stack : List Slot) (output : List Word) :
    Follows listing world ⟨n, regs, d, stack, output⟩ (a.exec env) fun env' t =>
      ∃ regs' d', t = ⟨n + a.code.length, regs', d', stack, output⟩ ∧
        env'.Stored regs' ∧ regs' .rax = env'.value ∧ regs' .rcx = regs .rcx := by
  obtain ⟨hcomment, hcode⟩ := codeAt_cons.1 hcode
  obtain ⟨hvalue, hcode⟩ := codeAt_append.1 hcode
  obtain ⟨hwriting, hcode⟩ := codeAt_cons.1 hcode
  obtain ⟨hmov, -⟩ := codeAt_cons.1 hcode
  rw [Assignment.exec, ← ha.value.eval_eq hregs]
  refine (reaches_idle hcomment rfl).follows rfl rfl ((a.value.follows hfits ha.value.ne_scratch
    hvalue regs d stack output).bind ?_)
  rintro v _ ⟨b, d', rfl⟩
  refine .pure ((reaches_idle hwriting rfl).trans (reaches_mov hmov)) rfl rfl
    ⟨Function.update (regs.scratch b v) a.target v, d', ?_, ?_, ?_, ?_⟩
  · rw [Assignment.code]
    simp only [List.length_cons, List.length_append, List.length_nil, State.mk.injEq, and_true,
      Machine.value, Registers.scratch_rax]
    omega
  · intro r hr
    obtain ⟨hrax, hrbx, -⟩ := Register.ne_of_mem_storage hr
    change Function.update (regs.scratch b v) a.target v r = Function.update env.store a.target v r
    by_cases hra : r = a.target
    · rw [hra, Function.update_self, Function.update_self]
    · rw [Function.update_of_ne hra, Function.update_of_ne hra,
        Registers.scratch_of_ne _ _ _ hrax hrbx, hregs r hr]
  · have htarget := (Register.ne_of_mem_storage ha.target).1
    exact Function.update_of_ne htarget.symm _ _
  · have htarget := (Register.ne_of_mem_storage ha.target).2.2.1
    exact Function.update_of_ne htarget.symm _ _

end RegArith
