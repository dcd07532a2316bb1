import RegArith.Proofs.Language.Naming
import RegArith.Proofs.Machine.Execution

/-!
# Running a program without a machine

The meaning of a program by recursion on its tree. Storage starts at zero. An assignment stores the
value of its expression. A loop evaluates its counter once and repeats its body as often as the
counter says, and `2 ^ 64` times if the counter is zero. After every statement the value that was
computed last is printed.

The one thing a tree does not show is that a division divides a double word, whose high half is
whatever is left of earlier operations. The interpreter carries it along: multiplications and
divisions set it, and printing replaces it by an arbitrary word. The right operand of an operation
comes first.

## Main definitions

* `Calculation` — computing with a residue, with faults
* `Expr.eval` — the value of an expression
* `Assignment.exec`, `Loop.exec`, `Stmt.exec` — the effect of a statement
* `Program.interpret` — the behaviour of a program

## Main results

* `Expr.eval_congr` — only the registers that are named matter
* `length_printed_interpretFrom` — one value for each statement
-/

namespace RegArith

/-! ### Calculations -/

/-- A calculation reads and writes the residue. A division that faults ends it with the number of
divisions before. -/
abbrev Calculation : Type → Type := StateT Residue (Except Nat)

/-! ### Expressions -/

/-- Applies an operation. -/
def Op.apply (op : Op) (x y : Word) : Calculation Word := fun d =>
  match op with
  | .add => .ok (x + y, d)
  | .sub => .ok (x - y, d)
  | .mul => .ok ((Word.product x y).2, { d with rdx := (Word.product x y).1 })
  | .div =>
    match Word.divide? d.rdx x y with
    | none => .error d.divisions
    | some (quotient, remainder) => .ok (quotient, ⟨remainder, d.divisions + 1⟩)

/-- The value of an expression. A literal that is kept as text is never compiled; it counts as
zero here. -/
def Expr.eval (store : Registers) : Expr → Calculation Word
  | .num n => return .ofInt 64 n
  | .huge _ => return 0
  | .reg r => return store r
  | .arith op lhs rhs => do
    let y ← rhs.eval store
    let x ← lhs.eval store
    op.apply x y

/-- Only the registers that an expression names matter for its value. -/
theorem Expr.eval_congr {store store' : Registers} {e : Expr}
    (h : ∀ r ∈ e.registers, store r = store' r) : e.eval store = e.eval store' := by
  induction e with
  | num | huge => rfl
  | reg r => rw [eval, eval, h r (List.mem_singleton.2 rfl)]
  | arith op lhs rhs ihl ihr =>
    rw [eval, eval, ihl fun r hr => h r (List.mem_append.2 (.inl hr)),
      ihr fun r hr => h r (List.mem_append.2 (.inr hr))]

/-! ### Statements -/

/-- What the interpreter knows between statements. -/
structure Env where
  /-- The value computed last. -/
  value : Word
  /-- The contents of the storage. -/
  store : Registers

/-- Stores the value of the expression. -/
def Assignment.exec (a : Assignment) (env : Env) : Calculation Env := do
  let v ← a.value.eval env.store
  return ⟨v, Function.update env.store a.target v⟩

/-- Repeats an assignment. -/
def Assignment.times (a : Assignment) : Nat → Env → Calculation Env
  | 0, env => return env
  | n + 1, env => a.exec env >>= a.times n

/-- How often a counter lets the body of a loop run. -/
def Word.rounds (k : Word) : Nat := if k = 0 then 2 ^ 64 else k.toNat

theorem Word.rounds_pos (k : Word) : 0 < k.rounds := by
  unfold rounds
  split
  · decide
  · next hk => exact Nat.pos_of_ne_zero fun h => hk (BitVec.eq_of_toNat_eq h)

theorem Word.rounds_le (k : Word) : k.rounds ≤ 2 ^ 64 := by
  unfold rounds
  split
  · exact Nat.le_refl _
  · exact Nat.le_of_lt k.isLt

/-- A counter is the number of rounds as a word. -/
theorem Word.ofNat_rounds (k : Word) : BitVec.ofNat 64 k.rounds = k := by
  unfold rounds
  split
  · next hk => rw [hk]; rfl
  · rw [BitVec.ofNat_toNat, BitVec.setWidth_eq]

/-- Evaluates the counter once and repeats the body. -/
def Loop.exec (l : Loop) (env : Env) : Calculation Env := do
  let k ← l.counter.eval env.store
  l.body.times k.rounds ⟨k, env.store⟩

/-- The effect of a statement. -/
def Stmt.exec : Stmt → Env → Calculation Env
  | .assign a => a.exec
  | .loop l => l.exec

/-! ### Programs -/

/-- The behaviour of a list of statements. After the `n`-th of them, printing leaves `left n`. -/
def interpretFrom : List Stmt → (left : Nat → Word) → Env → Residue → Behaviour
  | [], _, _, _ => ⟨[], .exited 0⟩
  | s :: ss, left, env, d =>
    match s.exec env d with
    | .error n => ⟨[], .faulted n⟩
    | .ok (env, d) =>
      let b := interpretFrom ss (fun n => left (n + 1)) env { d with rdx := left 0 }
      { b with printed := env.value :: b.printed }

/-- Before the first statement storage is zero. -/
def Env.first : Env := ⟨0, fun _ => 0⟩

/-- The behaviour of a program that finds the given word in `rdx`, if printing leaves the given
words there. -/
def Program.interpret (p : Program) (rdx : Word) (left : Nat → Word) : Behaviour :=
  interpretFrom p.stmts left .first ⟨rdx, 0⟩

/-- Without a fault one value is printed for each statement. -/
theorem length_printed_interpretFrom {ss : List Stmt} {left : Nat → Word} {env : Env}
    {d : Residue} {status : Word} (h : (interpretFrom ss left env d).ending = .exited status) :
    status = 0 ∧ (interpretFrom ss left env d).printed.length = ss.length := by
  induction ss generalizing left env d with
  | nil =>
    cases h
    exact ⟨rfl, rfl⟩
  | cons s ss ih =>
    rw [interpretFrom] at h ⊢
    cases hs : s.exec env d with
    | error n =>
      rw [hs] at h
      cases h
    | ok r =>
      rw [hs] at h
      obtain ⟨hstatus, hlength⟩ := ih h
      exact ⟨hstatus, congrArg (· + 1) hlength⟩

end RegArith
