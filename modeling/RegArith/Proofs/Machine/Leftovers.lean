import RegArith.Proofs.Machine.Simulation

/-!
# What a program finds in `rdx`

A division divides the double word in `rdx` and `rax`. The code of a division does not set `rdx`:
the program does not when it starts, and the print routine does not save it. So the first division
after the start of the program or after a printed value divides something that the program has
no say in, unless a multiplication comes before it. A small enough word in `rdx` gives some
quotient, a large one faults.

Everything else is under control. A program behaves the same on every machine if and only if no
statement that is reached comes to a division by something other than zero before it comes to a
multiplication. A division by zero is no exception to the rule: it faults whatever `rdx` holds.

## Main definitions

* `Lead`, `Expr.lead`, `Stmt.lead` — the first multiplication or division
* `Stmt.exposed` — it is a division by something other than zero
* `Program.independent` — no statement that is reached is exposed

## Main results

* `Leads.bind` — what comes first decides
* `interpretFrom_eq_of_independent`, `independentFrom_of_interpretFrom_eq`
* `runs_agree_iff` — the programs that behave the same on every machine
-/

namespace RegArith

/-! ### Calculations and the first content of `rdx` -/

namespace Calculation

variable {α β : Type}

/-- The number of divisions when a calculation is over. -/
def divisions : Except Nat (α × Residue) → Nat
  | .ok (_, d) => d.divisions
  | .error n => n

/-- Divisions are only ever added. -/
def Counts (c : Calculation α) : Prop := ∀ d, d.divisions ≤ divisions (c d)

/-- The calculation sets `rdx` before it reads it. -/
def Fresh (c : Calculation α) : Prop := ∀ r r' n, c ⟨r, n⟩ = c ⟨r', n⟩

/-- The first division of the calculation faults in any case. -/
def Faults (c : Calculation α) : Prop := ∀ d, c d = .error d.divisions

/-- The first division of the calculation faults for the largest word in `rdx`, but not for
zero. -/
def Exposed (c : Calculation α) : Prop :=
  ∀ n, c ⟨BitVec.allOnes 64, n⟩ = .error n ∧ n < divisions (c ⟨0, n⟩)

variable {c : Calculation α} {f : α → Calculation β}

theorem bind_apply (c : Calculation α) (f : α → Calculation β) (d : Residue) :
    (c >>= f) d = c d >>= fun r => f r.1 r.2 := rfl

theorem counts_pure (a : α) : Counts (pure a) := fun _ => Nat.le_refl _

theorem Counts.bind (hc : c.Counts) (hf : ∀ a, (f a).Counts) : (c >>= f).Counts := by
  intro d
  have hd := hc d
  rw [bind_apply]
  cases hx : c d with
  | error n =>
    rw [hx] at hd
    exact hd
  | ok r =>
    rw [hx] at hd
    exact Nat.le_trans hd (hf r.1 r.2)

theorem Fresh.bind (hc : c.Fresh) (f : α → Calculation β) : (c >>= f).Fresh := by
  intro r r' n
  rw [bind_apply, bind_apply, hc r r' n]

theorem Faults.bind (hc : c.Faults) (f : α → Calculation β) : (c >>= f).Faults := by
  intro d
  rw [bind_apply, hc d]
  rfl

theorem Exposed.bind (hc : c.Exposed) (hf : ∀ a, (f a).Counts) : (c >>= f).Exposed := by
  intro n
  obtain ⟨hfault, hcount⟩ := hc n
  constructor
  · rw [bind_apply, hfault]
    rfl
  · rw [bind_apply]
    cases hx : c ⟨0, n⟩ with
    | error m =>
      rw [hx] at hcount
      exact hcount
    | ok r =>
      rw [hx] at hcount
      exact Nat.lt_of_lt_of_le hcount (hf r.1 r.2)

end Calculation

open Calculation Machine

/-! ### What comes first -/

/-- The first multiplication or division of a calculation, if there is one. -/
inductive Lead where
  | neither
  | product
  | quotient (divisor : Expr)
deriving DecidableEq

/-- The first one of two calculations in a row. -/
def Lead.or : Lead → Lead → Lead
  | .neither, l => l
  | l, _ => l

@[simp] theorem Lead.or_neither (l : Lead) : l.or .neither = l := by cases l <;> rfl

/-- The lead of an operation with the given right operand. -/
def Op.lead (rhs : Expr) : Op → Lead
  | .add | .sub => .neither
  | .mul => .product
  | .div => .quotient rhs

/-- The first multiplication or division of an expression: all of the right operand comes before
the left one, and both come before the operation. -/
def Expr.lead : Expr → Lead
  | .num _ | .huge _ | .reg _ => .neither
  | .arith op lhs rhs => rhs.lead.or (lhs.lead.or (op.lead rhs))

/-- The first multiplication or division of a statement: the counter of a loop comes before its
body. -/
def Stmt.lead : Stmt → Lead
  | .assign a => a.value.lead
  | .loop l => l.counter.lead.or l.body.value.lead

variable {α β : Type} {store : Registers}

/-- What a lead says about a calculation. Nothing at all happens to `rdx` without one. The divisor
of a leading division is known, since nothing comes before it. -/
def Leads (store : Registers) (l : Lead) (c : Calculation α) : Prop :=
  match l with
  | .neither => ∃ a, c = pure a
  | .product => c.Fresh
  | .quotient divisor =>
    ∃ w, divisor.eval store = pure w ∧ ((w = 0 → c.Faults) ∧ (w ≠ 0 → c.Exposed))

/-- **What comes first decides.** -/
theorem Leads.bind {l l' : Lead} {c : Calculation α} {f : α → Calculation β}
    (hc : Leads store l c) (hcounts : ∀ a, (f a).Counts)
    (hf : l = .neither → ∀ a, c = pure a → Leads store l' (f a)) :
    Leads store (l.or l') (c >>= f) := by
  cases l with
  | neither =>
    obtain ⟨a, rfl⟩ := hc
    rw [pure_bind]
    exact hf rfl a rfl
  | product => exact Fresh.bind hc f
  | quotient divisor =>
    obtain ⟨w, hw, hzero, hne⟩ := hc
    exact ⟨w, hw, fun h => (hzero h).bind f, fun h => (hne h).bind hcounts⟩

/-! ### Expressions -/

theorem Op.counts (op : Op) (x y : Word) : (op.apply x y).Counts := by
  intro d
  cases op with
  | add | sub | mul => exact Nat.le_refl _
  | div =>
    rw [Op.apply]
    cases Word.divide? d.rdx x y with
    | none => exact Nat.le_refl _
    | some r => exact Nat.le_succ _

theorem Expr.counts (e : Expr) : (e.eval store).Counts := by
  induction e with
  | num | huge | reg => exact counts_pure _
  | arith op lhs rhs ihl ihr => exact ihr.bind fun _ => ihl.bind fun _ => op.counts _ _

theorem Op.leads (op : Op) {rhs : Expr} {y : Word} (hy : rhs.eval store = pure y) (x : Word) :
    Leads store (op.lead rhs) (op.apply x y) := by
  cases op with
  | add => exact ⟨x + y, rfl⟩
  | sub => exact ⟨x - y, rfl⟩
  | mul => exact fun _ _ _ => rfl
  | div =>
    refine ⟨y, hy, ?_, fun hne n => ⟨?_, ?_⟩⟩
    · rintro rfl d
      rw [Op.apply, Word.divide?_zero]
    · rw [Op.apply, Word.divide?_allOnes x hne]
    · obtain ⟨r, hr⟩ := Option.isSome_iff_exists.1 (Word.divide?_high_zero x hne)
      rw [Op.apply, hr]
      exact Nat.lt_succ_self n

theorem Expr.leads (e : Expr) : Leads store e.lead (e.eval store) := by
  induction e with
  | num | huge | reg => exact ⟨_, rfl⟩
  | arith op lhs rhs ihl ihr =>
    have hcounts (y : Word) : (lhs.eval store >>= fun x => op.apply x y).Counts :=
      lhs.counts.bind fun x => op.counts x y
    refine ihr.bind hcounts fun _ y hy => ?_
    exact ihl.bind (fun x => op.counts x y) fun _ x _ => op.leads hy x

/-! ### Statements -/

theorem Assignment.counts (a : Assignment) (env : Env) : (a.exec env).Counts :=
  a.value.counts.bind fun _ => counts_pure _

theorem Assignment.counts_times (a : Assignment) (n : Nat) (env : Env) :
    (a.times n env).Counts := by
  induction n generalizing env with
  | zero => exact counts_pure env
  | succ n ih => exact (a.counts env).bind ih

theorem Assignment.leads (a : Assignment) (env : Env) :
    Leads env.store a.value.lead (a.exec env) := by
  have h : Leads env.store (a.value.lead.or .neither) (a.exec env) :=
    a.value.leads.bind (fun _ => counts_pure _) fun _ _ _ => ⟨_, rfl⟩
  rwa [Lead.or_neither] at h

/-- Without a lead, no round has one, whatever the storage holds by then. -/
theorem Assignment.times_eq_pure {a : Assignment} (h : a.value.lead = .neither) (n : Nat)
    (env : Env) : ∃ env', a.times n env = pure env' := by
  induction n generalizing env with
  | zero => exact ⟨env, rfl⟩
  | succ n ih =>
    have hfirst := a.leads env
    rw [h] at hfirst
    obtain ⟨env', henv'⟩ := hfirst
    rw [times, henv', pure_bind]
    exact ih env'

/-- The first round decides. -/
theorem Assignment.leads_times (a : Assignment) {n : Nat} (hn : 0 < n) (env : Env) :
    Leads env.store a.value.lead (a.times n env) := by
  obtain ⟨n, rfl⟩ := Nat.exists_eq_add_one_of_ne_zero (Nat.ne_of_gt hn)
  have h : Leads env.store (a.value.lead.or .neither) (a.times (n + 1) env) :=
    (a.leads env).bind (a.counts_times n) fun hlead env' _ => a.times_eq_pure hlead n env'
  rwa [Lead.or_neither] at h

theorem Stmt.leads (s : Stmt) (env : Env) : Leads env.store s.lead (s.exec env) := by
  cases s with
  | assign a => exact a.leads env
  | loop l =>
    refine l.counter.leads.bind (fun k => l.body.counts_times _ _) fun _ k _ => ?_
    exact l.body.leads_times k.rounds_pos ⟨k, env.store⟩

/-- Whether the first multiplication or division of a statement is a division by something other
than zero. -/
def Stmt.exposed (s : Stmt) (store : Registers) : Bool :=
  match s.lead with
  | .neither | .product => false
  | .quotient divisor =>
    match divisor.eval store ⟨0, 0⟩ with
    | .ok (w, _) => w ≠ 0
    | .error _ => true

theorem Stmt.exposed_exec {s : Stmt} {env : Env} (h : s.exposed env.store = true) :
    (s.exec env).Exposed := by
  have hleads := s.leads env
  unfold exposed at h
  cases hl : s.lead with
  | neither | product =>
    rw [hl] at h
    cases h
  | quotient divisor =>
    rw [hl] at h hleads
    obtain ⟨w, hw, -, hne⟩ := hleads
    dsimp only at h
    rw [hw] at h
    exact hne (of_decide_eq_true h)

/-- A statement that is not exposed has the same effect whatever `rdx` holds, except on `rdx`. -/
theorem Stmt.exec_of_not_exposed {s : Stmt} {env : Env} (h : s.exposed env.store = false)
    (r : Word) (n : Nat) :
    match s.exec env ⟨0, n⟩ with
    | .error m => s.exec env ⟨r, n⟩ = .error m
    | .ok (env', d) =>
      ∃ d', s.exec env ⟨r, n⟩ = .ok (env', d') ∧ d'.divisions = d.divisions := by
  have hleads := s.leads env
  unfold exposed at h
  cases hl : s.lead with
  | neither =>
    rw [hl] at hleads
    obtain ⟨env', henv'⟩ := hleads
    rw [henv']
    exact ⟨⟨r, n⟩, rfl, rfl⟩
  | product =>
    rw [hl] at hleads
    rw [hleads r 0 n]
    cases s.exec env ⟨0, n⟩ with
    | error m => rfl
    | ok x => exact ⟨x.2, rfl, rfl⟩
  | quotient divisor =>
    rw [hl] at h hleads
    obtain ⟨w, hw, hzero, -⟩ := hleads
    dsimp only at h
    rw [hw] at h
    have hfaults := hzero (by simpa using of_decide_eq_false h)
    rw [hfaults ⟨0, n⟩]
    exact hfaults ⟨r, n⟩

/-! ### Programs -/

/-- No statement that is reached is exposed. Which ones are reached is found out with zero in
`rdx` each time. -/
def independentFrom : List Stmt → Env → (divisions : Nat) → Bool
  | [], _, _ => true
  | s :: ss, env, n =>
    !s.exposed env.store &&
      match s.exec env ⟨0, n⟩ with
      | .error _ => true
      | .ok (env, d) => independentFrom ss env d.divisions

/-- No statement that is reached comes to a division by something other than zero before it comes
to a multiplication. -/
def Program.independent (p : Program) : Bool := independentFrom p.stmts .first 0

/-- Independent programs are interpreted alike. -/
theorem interpretFrom_eq_of_independent {ss : List Stmt} {env : Env} {n : Nat}
    (h : independentFrom ss env n = true) (left left' : Nat → Word) (r r' : Word) :
    interpretFrom ss left env ⟨r, n⟩ = interpretFrom ss left' env ⟨r', n⟩ := by
  induction ss generalizing env n left left' r r' with
  | nil => rfl
  | cons s ss ih =>
    rw [independentFrom, Bool.and_eq_true, Bool.not_eq_true'] at h
    obtain ⟨hexposed, hrest⟩ := h
    -- both runs do to the storage what the run with zero in `rdx` does
    have hr := Stmt.exec_of_not_exposed hexposed r n
    have hr' := Stmt.exec_of_not_exposed hexposed r' n
    rw [interpretFrom, interpretFrom]
    cases hx : s.exec env ⟨0, n⟩ with
    | error m =>
      rw [hx] at hr hr'
      rw [hr, hr']
    | ok x =>
      rw [hx] at hr hr' hrest
      obtain ⟨d, hd, hcount⟩ := hr
      obtain ⟨d', hd', hcount'⟩ := hr'
      rw [hd, hd']
      dsimp only
      rw [hcount, hcount', ih hrest (fun i => left (i + 1)) (fun i => left' (i + 1)) _ _]

/-- The stream with the given word in front. -/
def consWord (w : Word) (left : Nat → Word) : Nat → Word
  | 0 => w
  | n + 1 => left n

/-- Programs that are always interpreted alike are independent. -/
theorem independentFrom_of_interpretFrom_eq {ss : List Stmt} {env : Env} {n : Nat}
    (h : ∀ left left' r r',
      interpretFrom ss left env ⟨r, n⟩ = interpretFrom ss left' env ⟨r', n⟩) :
    independentFrom ss env n = true := by
  induction ss generalizing env n with
  | nil => rfl
  | cons s ss ih =>
    rw [independentFrom, Bool.and_eq_true, Bool.not_eq_true']
    constructor
    · -- otherwise the largest word faults at once, where zero goes on
      rw [Bool.eq_false_iff]
      intro hexposed
      obtain ⟨hfault, hcount⟩ := Stmt.exposed_exec hexposed n
      have heq := h (fun _ => 0) (fun _ => 0) (BitVec.allOnes 64) 0
      rw [interpretFrom, interpretFrom, hfault] at heq
      cases hx : s.exec env ⟨0, n⟩ with
      | error m =>
        rw [hx] at heq hcount
        cases heq
        exact absurd hcount (Nat.lt_irrefl n)
      | ok x =>
        rw [hx] at heq
        cases heq
    · cases hx : s.exec env ⟨0, n⟩ with
      | error m => rfl
      | ok x =>
        refine ih fun left left' r r' => ?_
        have heq := h (consWord r left) (consWord r' left') 0 0
        rw [interpretFrom, interpretFrom, hx] at heq
        injection heq with hprinted hending
        injection hprinted with _ hprinted
        exact congrArg₂ Behaviour.mk hprinted hending

/-- **The programs that behave the same on every machine.** If a source compiles, its runs end.
They agree on all that is printed and on how and where they end, for all contents of registers and
stack and whatever `printf` leaves, exactly if no statement that is reached comes to a division by
something other than zero before it comes to a multiplication. -/
theorem runs_agree_iff (source : String) (count : Nat) (text : String)
    (h : (compile source count).1 = .ok text) :
    ∃ p listing, (parse source count).1 = .ok p ∧
      p.lower.run #[] = (.ok (), listing.toArray) ∧ text = listingText listing ∧
      (∀ world regs rdx stack, ∃ b, Behaves listing world regs rdx stack b) ∧
      ((∀ world world' regs regs' rdx rdx' stack stack' b b',
          Behaves listing world regs rdx stack b → Behaves listing world' regs' rdx' stack' b' →
          b = b') ↔
        p.independent = true) := by
  obtain ⟨p, hparse, hgenerate⟩ := compile_eq_ok h
  obtain ⟨hfits, hlower, htext⟩ := generate_eq_ok hgenerate
  have hbehaves := behaves_code hfits (onStorage_of_parse hparse) (nodup_labels_of_parse hparse)
  refine ⟨p, p.code, hparse, hlower, htext, fun world regs rdx stack => ⟨_, hbehaves world regs
    rdx stack⟩, ?_, ?_⟩
  · intro hagree
    refine independentFrom_of_interpretFrom_eq fun left left' r r' => ?_
    -- a world in which `printf` leaves the given words
    let world (left : Nat → Word) : World := ⟨fun _ => 0, fun n => ⟨0, 0, left n, 0, 0, 0, 0⟩⟩
    exact hagree (world left) (world left') (fun _ => 0) (fun _ => 0) r r' [] [] _ _
      (hbehaves _ _ _ _) (hbehaves _ _ _ _)
  · intro hindependent world world' regs regs' rdx rdx' stack stack' b b' hb hb'
    rw [hb.unique (hbehaves world regs rdx stack), hb'.unique (hbehaves world' regs' rdx' stack')]
    exact interpretFrom_eq_of_independent hindependent _ _ _ _

/-- A multiplication in front of the division makes all runs alike. -/
theorem runs_agree_product :
    ∃ text, (compile "r10 = 6 * 7 / 2;" 0).1 = .ok text ∧ ∃ listing, text = listingText listing ∧
      ∀ world world' regs regs' rdx rdx' stack stack' b b',
        Behaves listing world regs rdx stack b → Behaves listing world' regs' rdx' stack' b' →
        b = b' := by
  obtain ⟨text, htext⟩ := exists_eq_ok
    (show (compile "r10 = 6 * 7 / 2;" 0).1.isOk = true by decide +kernel)
  have hparse : (parse "r10 = 6 * 7 / 2;" 0).1 =
      .ok ⟨[.assign ⟨.r10, .arith .div (.arith .mul (.num 6) (.num 7)) (.num 2)⟩]⟩ := by
    decide +kernel
  obtain ⟨p, listing, hp, -, heq, -, hiff⟩ := runs_agree_iff _ 0 text htext
  rw [hparse] at hp
  cases hp
  exact ⟨text, htext, listing, heq, hiff.2 (by decide)⟩

/-- A lone division: with zero in `rdx` the program prints the quotient, with two it faults. -/
theorem runs_differ_quotient :
    ∃ text, (compile "r10 = 6 / 2;" 0).1 = .ok text ∧ ∃ listing, text = listingText listing ∧
      ∀ world regs stack, Behaves listing world regs 0 stack ⟨[3], .exited 0⟩ ∧
        Behaves listing world regs 2 stack ⟨[], .faulted 0⟩ := by
  obtain ⟨text, htext⟩ := exists_eq_ok
    (show (compile "r10 = 6 / 2;" 0).1.isOk = true by decide +kernel)
  have hp : (parse "r10 = 6 / 2;" 0).1 =
      .ok ⟨[.assign ⟨.r10, .arith .div (.num 6) (.num 2)⟩]⟩ := by
    decide +kernel
  obtain ⟨p, hparse, hgenerate⟩ := compile_eq_ok htext
  obtain ⟨hfits, -, heq⟩ := generate_eq_ok hgenerate
  have hbehaves := behaves_code hfits (onStorage_of_parse hparse) (nodup_labels_of_parse hparse)
  rw [hp] at hparse
  cases hparse
  exact ⟨text, htext, _, heq, fun world regs stack => ⟨hbehaves world regs 0 stack,
    hbehaves world regs 2 stack⟩⟩

end RegArith
