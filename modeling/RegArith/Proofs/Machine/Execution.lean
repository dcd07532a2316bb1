import Mathlib.Algebra.Group.Nat.Defs
import Mathlib.Logic.Function.Basic
import Mathlib.Logic.Relation
import RegArith.Assembly.Lowering

/-!
# A machine that runs listings

The machine has the registers of generated code, `rdx`, and a stack. It executes one line at a
time. Lines that are no instructions are passed over, except directives: those are data, and a run
that comes to one is stuck.

Two things are left to the world. One is the address that a symbol stands for. The other is what
`printf` leaves behind: it prints the second argument, keeps the stack and the registers that
belong to its caller, and may put anything into the others. The world fixes in advance what the
`n`-th call leaves, so that a run is determined by it; as nothing else is known about the world,
every behaviour of `printf` is covered.

A return address is a line number, and is kept apart from data on the stack: a run is stuck if it
returns to data or reads a return address into a register.

Printed values and the number of divisions are recorded in the state. No instruction reads them.

## Main definitions

* `Word.product`, `Word.divide?` — double-word arithmetic
* `World`, `Machine.State`, `Machine.step` — the machine
* `Machine.Reaches`, `Machine.Ends`, `Machine.Behaves` — its runs

## Main results

* `Machine.Ends.unique`, `Machine.Behaves.unique` — a run has at most one behaviour
-/

namespace RegArith

/-! ### Words -/

/-- A machine word. -/
abbrev Word : Type := BitVec 64

/-- The high and the low half of the product of two words. -/
def Word.product (x y : Word) : Word × Word :=
  (.ofNat 64 (x.toNat * y.toNat / 2 ^ 64), .ofNat 64 (x.toNat * y.toNat))

/-- The quotient and the remainder of a double word by a word, without signs. There is none if
the divisor is zero or the quotient takes more than a word. -/
def Word.divide? (high low divisor : Word) : Option (Word × Word) :=
  let dividend := high.toNat * 2 ^ 64 + low.toNat
  if divisor = 0 ∨ 2 ^ 64 ≤ dividend / divisor.toNat then none
  else some (.ofNat 64 (dividend / divisor.toNat), .ofNat 64 (dividend % divisor.toNat))

theorem Word.divide?_zero (high low : Word) : Word.divide? high low 0 = none := by
  rw [divide?, if_pos (.inl rfl)]

/-- The largest high half makes every quotient too large. -/
theorem Word.divide?_allOnes (low : Word) {divisor : Word} (h : divisor ≠ 0) :
    Word.divide? (BitVec.allOnes 64) low divisor = none := by
  have hpos : 0 < divisor.toNat := Nat.pos_of_ne_zero fun h' => h (BitVec.eq_of_toNat_eq h')
  have hlt : divisor.toNat ≤ 2 ^ 64 - 1 := Nat.le_sub_one_of_lt divisor.isLt
  have hbig : 2 ^ 64 ≤ ((BitVec.allOnes 64).toNat * 2 ^ 64 + low.toNat) / divisor.toNat := by
    rw [Nat.le_div_iff_mul_le hpos, BitVec.toNat_allOnes]
    calc 2 ^ 64 * divisor.toNat ≤ 2 ^ 64 * (2 ^ 64 - 1) := Nat.mul_le_mul_left _ hlt
      _ = (2 ^ 64 - 1) * 2 ^ 64 := Nat.mul_comm _ _
      _ ≤ (2 ^ 64 - 1) * 2 ^ 64 + low.toNat := Nat.le_add_right _ _
  rw [divide?, if_pos (.inr hbig)]

/-- With nothing in the high half the quotient is a word. -/
theorem Word.divide?_high_zero (low : Word) {divisor : Word} (h : divisor ≠ 0) :
    (Word.divide? 0 low divisor).isSome := by
  have hsmall : ¬2 ^ 64 ≤ ((0 : Word).toNat * 2 ^ 64 + low.toNat) / divisor.toNat := by
    have hdiv : low.toNat / divisor.toNat ≤ low.toNat := Nat.div_le_self _ _
    have hlow : low.toNat < 2 ^ 64 := low.isLt
    rw [show (0 : Word).toNat = 0 from rfl, Nat.zero_mul, Nat.zero_add]
    omega
  rw [divide?, if_neg (not_or.2 ⟨h, hsmall⟩)]
  rfl

/-- The contents of the registers. -/
abbrev Registers : Type := Register → Word

/-- What multiplications and divisions leave behind besides their result. -/
structure Residue where
  /-- The content of `rdx`. -/
  rdx : Word
  /-- How many divisions there were. -/
  divisions : Nat

/-! ### Behaviour -/

/-- How a run ends. -/
inductive Ending where
  /-- The program leaves with a status. -/
  | exited (status : Word)
  /-- A division faults, after so many divisions that did not. -/
  | faulted (divisions : Nat)
deriving DecidableEq

/-- What is seen of a run. -/
structure Behaviour where
  /-- The printed values in order. -/
  printed : List Word
  /-- How the run ends. -/
  ending : Ending
deriving DecidableEq

/-! ### World -/

/-- What a call of `printf` leaves in the registers it need not keep. -/
structure Leftover where
  rax : Word
  rcx : Word
  rdx : Word
  rsi : Word
  rdi : Word
  r10 : Word
  r11 : Word

/-- The registers after a call: `rbx`, `r12` and `r13` are kept. -/
def Leftover.spoil (left : Leftover) (regs : Registers) : Registers
  | .rax => left.rax
  | .rcx => left.rcx
  | .rsi => left.rsi
  | .rdi => left.rdi
  | .r10 => left.r10
  | .r11 => left.r11
  | r => regs r

/-- What a run depends on besides its first state. -/
structure World where
  /-- The address of a symbol. -/
  address : String → Word
  /-- What the calls of `printf` leave, in order. -/
  left : Nat → Leftover

namespace Machine

/-! ### States and steps -/

/-- A slot of the stack. -/
inductive Slot where
  | data (w : Word)
  /-- The line that a call returns to. -/
  | back (line : Nat)

/-- The state of a run. -/
structure State where
  /-- The line that is next. -/
  line : Nat
  regs : Registers
  residue : Residue
  /-- The stack, top first. -/
  stack : List Slot
  /-- The values printed so far. -/
  output : List Word

/-- What a step comes to. -/
inductive Next where
  | running (s : State)
  | ended (e : Ending)
  | stuck

/-- The line with the given label, the first one if there are several. -/
def lineOf? (listing : List Line) (name : String) : Option Nat :=
  listing.findIdx? (· = .label name)

/-- The value of an operand. -/
def value (world : World) (regs : Registers) : Operand → Word
  | .reg r => regs r
  | .imm n => .ofInt 64 n
  | .sym name => world.address name

/-- The state on the next line with a new content of a register. -/
def State.write (s : State) (r : Register) (w : Word) : State :=
  { s with line := s.line + 1, regs := Function.update s.regs r w }

/-- The state on a line with the given label, if there is one. -/
def goto (listing : List Line) (name : String) (s : State) : Next :=
  match lineOf? listing name with
  | none => .stuck
  | some line => .running { s with line := line }

/-- A call of `printf` with the format of the print routine. -/
def callPrintf (world : World) (s : State) : Next :=
  if s.regs .rdi = world.address "format" then
    let left := world.left s.output.length
    .running { s with
      line := s.line + 1
      regs := left.spoil s.regs
      residue := { s.residue with rdx := left.rdx }
      output := s.output ++ [s.regs .rsi] }
  else .stuck

/-- Executes an instruction. -/
def exec (listing : List Line) (world : World) (s : State) : Instr → Next
  | .mov target source => .running (s.write target (value world s.regs source))
  | .add target source => .running (s.write target (s.regs target + s.regs source))
  | .sub target source => .running (s.write target (s.regs target - s.regs source))
  | .mul source =>
    let (high, low) := Word.product (s.regs .rax) (s.regs source)
    .running { s.write .rax low with residue := { s.residue with rdx := high } }
  | .div source =>
    match Word.divide? s.residue.rdx (s.regs .rax) (s.regs source) with
    | none => .ended (.faulted s.residue.divisions)
    | some (quotient, remainder) =>
      .running { s.write .rax quotient with residue := ⟨remainder, s.residue.divisions + 1⟩ }
  | .push source =>
    .running { s with line := s.line + 1, stack := .data (s.regs source) :: s.stack }
  | .pop target =>
    match s.stack with
    | .data w :: stack => .running { s.write target w with stack := stack }
    | _ => .stuck
  | .loop label =>
    let s := s.write .rcx (s.regs .rcx - 1)
    if s.regs .rcx = 0 then .running s else goto listing label.name s
  | .call target =>
    if target = "printf" then callPrintf world s
    else goto listing target { s with stack := .back (s.line + 1) :: s.stack }
  | .syscall => if s.regs .rax = 60 then .ended (.exited (s.regs .rdi)) else .stuck
  | .ret =>
    match s.stack with
    | .back line :: stack => .running { s with line := line, stack := stack }
    | _ => .stuck

/-- Executes the line that is next. -/
def step (listing : List Line) (world : World) (s : State) : Next :=
  match listing[s.line]? with
  | some (.instr i) => exec listing world s i
  | some (.label _) | some (.comment _) | some .blank => .running { s with line := s.line + 1 }
  | some (.directive _) | none => .stuck

/-! ### Runs -/

/-- One step leads from the first state to the second. -/
def Steps (listing : List Line) (world : World) (s t : State) : Prop :=
  step listing world s = .running t

/-- Any number of steps lead from the first state to the second. -/
def Reaches (listing : List Line) (world : World) : State → State → Prop :=
  Relation.ReflTransGen (Steps listing world)

/-- The run from the state ends, with the given behaviour from the start of the program on. -/
def Ends (listing : List Line) (world : World) (s : State) (b : Behaviour) : Prop :=
  ∃ t, Reaches listing world s t ∧ step listing world t = .ended b.ending ∧ t.output = b.printed

/-- Entered at `main` with the given registers and stack, the program shows the behaviour. -/
def Behaves (listing : List Line) (world : World) (regs : Registers) (rdx : Word)
    (stack : List Slot) (b : Behaviour) : Prop :=
  ∃ line, lineOf? listing "main" = some line ∧
    Ends listing world ⟨line, regs, ⟨rdx, 0⟩, stack, []⟩ b

variable {listing : List Line} {world : World} {s t u : State} {b b' : Behaviour}

theorem Reaches.refl (s : State) : Reaches listing world s s := Relation.ReflTransGen.refl

theorem Reaches.single (h : step listing world s = .running t) : Reaches listing world s t :=
  Relation.ReflTransGen.single h

theorem Reaches.trans (h : Reaches listing world s t) (h' : Reaches listing world t u) :
    Reaches listing world s u :=
  Relation.ReflTransGen.trans h h'

theorem Reaches.ends (h : Reaches listing world s t) (h' : Ends listing world t b) :
    Ends listing world s b := by
  obtain ⟨u, hu, hended⟩ := h'
  exact ⟨u, h.trans hu, hended⟩

/-- **A run has at most one behaviour.** -/
theorem Ends.unique (h : Ends listing world s b) (h' : Ends listing world s b') : b = b' := by
  obtain ⟨t, ht, hended, hprinted⟩ := h
  obtain ⟨t', ht', hended', hprinted'⟩ := h'
  obtain rfl : t = t' := by
    -- the second run takes the same steps, and cannot stop earlier or later
    induction ht using Relation.ReflTransGen.head_induction_on with
    | refl =>
      rcases ht'.cases_head with rfl | ⟨u, hu, -⟩
      · rfl
      · rw [Steps, hended] at hu
        cases hu
    | head hstep _ ih =>
      rcases ht'.cases_head with rfl | ⟨u, hu, hrest⟩
      · rw [Steps, hended'] at hstep
        cases hstep
      · rw [Steps, hstep] at hu
        cases hu
        exact ih hrest
  obtain ⟨printed, ending⟩ := b
  obtain ⟨printed', ending'⟩ := b'
  rw [hended] at hended'
  cases hended'
  cases hprinted
  cases hprinted'
  rfl

theorem Behaves.unique {regs : Registers} {rdx : Word} {stack : List Slot}
    (h : Behaves listing world regs rdx stack b) (h' : Behaves listing world regs rdx stack b') :
    b = b' := by
  obtain ⟨line, hline, hends⟩ := h
  obtain ⟨line', hline', hends'⟩ := h'
  rw [hline] at hline'
  cases hline'
  exact hends.unique hends'

end Machine

end RegArith
