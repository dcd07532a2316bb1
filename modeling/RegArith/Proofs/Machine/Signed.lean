import Mathlib.Algebra.Group.Int.Defs
import RegArith.Proofs.Machine.Expression

/-!
# Signed values of expressions

The numbers of the language have signs, and so have the values that a program prints. Addition,
subtraction and the low half of a product do not care: on words they are the same with and without
signs. Division does care, and the machine divides without signs, and it divides a double word.

So the code of an expression leaves the signed value in `rax` as long as the divisions it comes to
find zero in `rdx` and operands whose signs do not matter. What `rdx` holds is decided by the
operation before: the high half of a product, or the remainder of a division. Where a division finds
zero and signs do matter, the quotient is wrong; where it finds the divisor or more, it faults.

## Main definitions

* `Expr.signed` — the value of an expression with signs
* `Word.Signless` — the signs of dividend and divisor do not matter
* `Expr.clean` — every division finds zero and operands whose signs do not matter

## Main results

* `Word.udiv_eq_sdiv_iff` — where the two kinds of division agree
* `Expr.eval_of_clean` — clean evaluation gives the signed value
* `Expr.code_signed` — the code of expressions
-/

namespace RegArith

open Machine

/-! ### Values -/

/-- The operation on words as signed numbers. There is no quotient if the divisor is zero or the
quotient is too large. -/
def Op.signed (x y : Word) : Op → Option Word
  | .add => some (x + y)
  | .sub => some (x - y)
  | .mul => some (x * y)
  | .div => if y = 0 ∨ x = .intMin 64 ∧ y = -1 then none else some (x.sdiv y)

/-- The value of an expression on signed numbers, which wrap around except in divisions. A literal
that is kept as text has none. -/
def Expr.signed (store : Registers) : Expr → Option Word
  | .num n => some (.ofInt 64 n)
  | .huge _ => none
  | .reg r => some (store r)
  | .arith op lhs rhs => do op.signed (← lhs.signed store) (← rhs.signed store)

/-! ### Division with and without signs -/

namespace Word

/-- Dividend and divisor for which it does not matter whether words have signs. -/
def Signless (x y : Word) : Prop :=
  0 ≤ x.toInt ∧ 0 ≤ y.toInt ∨ y = 1 ∨ x = y ∨ 0 ≤ x.toInt ∧ x.toInt < -y.toInt

instance (x y : Word) : Decidable (Signless x y) :=
  inferInstanceAs (Decidable (_ ∨ _ ∨ _ ∨ _))

theorem toInt_of_lt {x : Word} (h : x.toNat < 2 ^ 63) : x.toInt = x.toNat := by
  rw [BitVec.toInt_eq_toNat_cond, if_pos (by omega)]

theorem toInt_of_le {x : Word} (h : 2 ^ 63 ≤ x.toNat) : x.toInt = x.toNat - 2 ^ 64 := by
  rw [BitVec.toInt_eq_toNat_cond, if_neg (by omega)]
  rfl

/-- What makes signs not matter, in numbers without signs. -/
theorem signless_iff (x y : Word) :
    Signless x y ↔ x.toNat < 2 ^ 63 ∧ y.toNat < 2 ^ 63 ∨ y.toNat = 1 ∨ x.toNat = y.toNat ∨
      x.toNat < 2 ^ 63 ∧ 2 ^ 63 ≤ y.toNat ∧ x.toNat < 2 ^ 64 - y.toNat := by
  have hone : y = 1 ↔ y.toNat = 1 := BitVec.toNat_eq
  rw [Signless, hone, BitVec.toNat_eq]
  have hx := x.isLt
  have hy := y.isLt
  rcases Nat.lt_or_ge x.toNat (2 ^ 63) with h | h <;>
    rcases Nat.lt_or_ge y.toNat (2 ^ 63) with h' | h'
  · rw [toInt_of_lt h, toInt_of_lt h']
    omega
  · rw [toInt_of_lt h, toInt_of_le h']
    omega
  · rw [toInt_of_le h, toInt_of_lt h']
    omega
  · rw [toInt_of_le h, toInt_of_le h']
    omega

/-- A negative dividend and a nonnegative divisor: only one as a divisor gives the same quotient. -/
theorem div_eq_neg_div_iff {a b : Nat} (ha : 2 ^ 63 ≤ a) (ha' : a < 2 ^ 64) (hb : 0 < b)
    (hb' : b < 2 ^ 63) : a / b = (2 ^ 64 - (2 ^ 64 - a) / b) % 2 ^ 64 ↔ b = 1 := by
  constructor
  · intro h
    by_contra hne
    have hq : a / b ≤ a / 2 := Nat.div_le_div_left (by omega) (by omega)
    have hp : (2 ^ 64 - a) / b ≤ (2 ^ 64 - a) / 2 := Nat.div_le_div_left (by omega) (by omega)
    have hpos : 0 < a / b := Nat.div_pos (by omega) hb
    generalize a / b = q at h hq hpos
    generalize (2 ^ 64 - a) / b = p at h hp
    omega
  · rintro rfl
    rw [Nat.div_one, Nat.div_one]
    omega

/-- Two negative numbers: without signs the larger one is the smaller one. -/
theorem div_eq_sub_div_sub_iff {a b : Nat} (ha : 2 ^ 63 ≤ a) (ha' : a < 2 ^ 64) (hb : 2 ^ 63 ≤ b)
    (hb' : b < 2 ^ 64) : a / b = (2 ^ 64 - a) / (2 ^ 64 - b) ↔ a = b := by
  constructor
  · intro h
    rcases Nat.lt_trichotomy a b with hlt | heq | hgt
    · have hpos : 0 < (2 ^ 64 - a) / (2 ^ 64 - b) := Nat.div_pos (by omega) (by omega)
      rw [Nat.div_eq_of_lt hlt] at h
      omega
    · exact heq
    · have hpos : 0 < a / b := Nat.div_pos (by omega) (by omega)
      rw [Nat.div_eq_of_lt (by omega : 2 ^ 64 - a < 2 ^ 64 - b)] at h
      omega
  · rintro rfl
    rw [Nat.div_self (by omega), Nat.div_self (by omega)]

/-- **The two kinds of division** give the same quotient if both numbers are nonnegative, if the
divisor is one, if the numbers are equal, and if the quotient of a nonnegative number by a negative
one is zero; and in no other case. -/
theorem udiv_eq_sdiv_iff (x : Word) {y : Word} (hy : y ≠ 0) : x / y = x.sdiv y ↔ Signless x y := by
  have hpos : 0 < y.toNat := Nat.pos_of_ne_zero fun h => hy (BitVec.eq_of_toNat_eq h)
  have hx' := x.isLt
  have hy' := y.isLt
  have hneg {z : Word} (hz : 0 < z.toNat) : (-z).toNat = 2 ^ 64 - z.toNat := by
    rw [BitVec.toNat_neg]
    omega
  rw [signless_iff, BitVec.sdiv_eq, BitVec.msb_eq_decide, BitVec.msb_eq_decide]
  rcases Nat.lt_or_ge x.toNat (2 ^ 63) with hx | hx <;>
    rcases Nat.lt_or_ge y.toNat (2 ^ 63) with hyl | hyl
  · rw [decide_eq_false (Nat.not_le.2 hx), decide_eq_false (Nat.not_le.2 hyl)]
    exact iff_of_true rfl (.inl ⟨hx, hyl⟩)
  · rw [decide_eq_false (Nat.not_le.2 hx), decide_eq_true hyl]
    have hzero : (x / y).toNat = 0 := by
      rw [BitVec.toNat_udiv, Nat.div_eq_of_lt (by omega)]
    have hquotient : (x / -y).toNat = x.toNat / (2 ^ 64 - y.toNat) := by
      rw [BitVec.toNat_udiv, hneg hpos]
    have hiff : x.toNat / (2 ^ 64 - y.toNat) = 0 ↔ x.toNat < 2 ^ 64 - y.toNat :=
      Nat.div_eq_zero_iff_lt (by omega)
    have hle : x.toNat / (2 ^ 64 - y.toNat) ≤ x.toNat := Nat.div_le_self _ _
    change x / y = -(x / -y) ↔ _
    rw [BitVec.toNat_eq, hzero, BitVec.toNat_neg, hquotient]
    omega
  · rw [decide_eq_true hx, decide_eq_false (Nat.not_le.2 hyl)]
    have hiff := div_eq_neg_div_iff hx hx' hpos hyl
    change x / y = -(-x / y) ↔ _
    rw [BitVec.toNat_eq, BitVec.toNat_neg, BitVec.toNat_udiv, BitVec.toNat_udiv, hneg (by omega),
      hiff]
    omega
  · rw [decide_eq_true hx, decide_eq_true hyl]
    have hiff := div_eq_sub_div_sub_iff hx hx' hyl hy'
    change x / y = -x / -y ↔ _
    rw [BitVec.toNat_eq, BitVec.toNat_udiv, BitVec.toNat_udiv, hneg (by omega), hneg hpos, hiff]
    omega

/-- The low half of a product has no signs. -/
theorem product_snd (x y : Word) : (product x y).2 = x * y := by
  rw [product, BitVec.toNat_eq, BitVec.toNat_ofNat, BitVec.toNat_mul]

/-- With zero in the high half a double word is a word. -/
theorem divide?_zero_high (x : Word) {y : Word} (hy : y ≠ 0) :
    divide? 0 x y = some (x / y, x % y) := by
  have hquotient : x.toNat / y.toNat < 2 ^ 64 := Nat.lt_of_le_of_lt (Nat.div_le_self _ _) x.isLt
  have hdividend : (0 : Word).toNat * 2 ^ 64 + x.toNat = x.toNat := Nat.zero_add _
  unfold divide?
  rw [hdividend, if_neg (not_or.2 ⟨hy, Nat.not_le.2 hquotient⟩), ← BitVec.toNat_udiv,
    ← BitVec.toNat_umod, BitVec.ofNat_toNat, BitVec.ofNat_toNat, BitVec.setWidth_eq,
    BitVec.setWidth_eq]

/-- A high half that is not below the divisor makes the quotient too large. -/
theorem divide?_of_le {high low divisor : Word} (h : divisor.toNat ≤ high.toNat) :
    divide? high low divisor = none := by
  by_cases hzero : divisor = 0
  · rw [hzero, divide?_zero]
  · have hpos : 0 < divisor.toNat := Nat.pos_of_ne_zero fun h' => hzero (BitVec.eq_of_toNat_eq h')
    have hbig : 2 ^ 64 ≤ (high.toNat * 2 ^ 64 + low.toNat) / divisor.toNat := by
      rw [Nat.le_div_iff_mul_le hpos, Nat.mul_comm]
      exact Nat.le_trans (Nat.mul_le_mul_right _ h) (Nat.le_add_right _ _)
    rw [divide?, if_pos (.inr hbig)]

end Word

/-! ### Clean evaluation -/

/-- What an operation leaves in `rdx`. A division that finds something there, or whose operands
have signs that matter, is not clean. -/
def Op.clean (x y rdx : Word) : Op → Option Word
  | .add | .sub => some rdx
  | .mul => some (Word.product x y).1
  | .div => if rdx = 0 ∧ Word.Signless x y then some (x % y) else none

/-- What evaluating the expression leaves in `rdx`, if it is clean. The right operand comes
first. -/
def Expr.clean (store : Registers) : Expr → Word → Option Word
  | .num _, rdx | .huge _, rdx | .reg _, rdx => some rdx
  | .arith op lhs rhs, rdx => do
    let rdx ← rhs.clean store rdx
    let rdx ← lhs.clean store rdx
    op.clean (← lhs.signed store) (← rhs.signed store) rdx

theorem Op.apply_of_clean {op : Op} {x y v rdx rdx' : Word} (hv : op.signed x y = some v)
    (hrdx : op.clean x y rdx = some rdx') (n : Nat) :
    ∃ n', op.apply x y ⟨rdx, n⟩ = .ok (v, ⟨rdx', n'⟩) := by
  cases op with
  | add | sub =>
    cases hv
    cases hrdx
    exact ⟨n, rfl⟩
  | mul =>
    cases hv
    cases hrdx
    exact ⟨n, by rw [apply, Word.product_snd]⟩
  | div =>
    rw [signed] at hv
    rw [clean] at hrdx
    split at hv
    · cases hv
    · next hdefined =>
      split at hrdx
      · next hclean =>
        obtain ⟨rfl, hsigns⟩ := hclean
        cases hv
        cases hrdx
        have hy : y ≠ 0 := fun h => hdefined (.inl h)
        refine ⟨n + 1, ?_⟩
        rw [apply, Word.divide?_zero_high x hy, (Word.udiv_eq_sdiv_iff x hy).2 hsigns]
      · cases hrdx

theorem Expr.eval_arith {store : Registers} {lhs rhs : Expr} {x y : Word} {d d₁ d₂ : Residue}
    (hright : rhs.eval store d = .ok (y, d₁)) (hleft : lhs.eval store d₁ = .ok (x, d₂)) (op : Op) :
    (Expr.arith op lhs rhs).eval store d = op.apply x y d₂ := by
  change (rhs.eval store d >>= fun a => lhs.eval store a.2 >>= fun b => op.apply b.1 a.1 b.2) = _
  rw [hright]
  change (lhs.eval store d₁ >>= fun b => op.apply b.1 y b.2) = _
  rw [hleft]
  rfl

/-- **Clean evaluation gives the signed value.** -/
theorem Expr.eval_of_clean {store : Registers} {e : Expr} {v rdx rdx' : Word}
    (hv : e.signed store = some v) (hrdx : e.clean store rdx = some rdx') (n : Nat) :
    ∃ n', e.eval store ⟨rdx, n⟩ = .ok (v, ⟨rdx', n'⟩) := by
  induction e generalizing v rdx rdx' n with
  | num value | reg r =>
    cases hv
    cases hrdx
    exact ⟨n, rfl⟩
  | huge digits => cases hv
  | arith op lhs rhs ihl ihr =>
    obtain ⟨x, hx, hv⟩ := Option.bind_eq_some_iff.1 hv
    obtain ⟨y, hy, hv⟩ := Option.bind_eq_some_iff.1 hv
    obtain ⟨r₁, hr₁, hrdx⟩ := Option.bind_eq_some_iff.1 hrdx
    obtain ⟨r₂, hr₂, hrdx⟩ := Option.bind_eq_some_iff.1 hrdx
    rw [hx, hy] at hrdx
    obtain ⟨n₁, hright⟩ := ihr hy hr₁ n
    obtain ⟨n₂, hleft⟩ := ihl hx hr₂ n₁
    obtain ⟨n₃, hop⟩ := Op.apply_of_clean hv hrdx n₂
    exact ⟨n₃, (eval_arith hright hleft op).trans hop⟩

/-- The expression divides nothing. -/
def Expr.divisionFree : Expr → Bool
  | .num _ | .huge _ | .reg _ => true
  | .arith op lhs rhs => op ≠ .div && lhs.divisionFree && rhs.divisionFree

/-- Without divisions there is always a value, and evaluation is clean. -/
theorem Expr.clean_of_divisionFree {store : Registers} {e : Expr} (hfits : e.misfit = none)
    (h : e.divisionFree = true) (rdx : Word) :
    (e.signed store).isSome ∧ (e.clean store rdx).isSome := by
  induction e generalizing rdx with
  | num | reg => exact ⟨rfl, rfl⟩
  | huge => cases hfits
  | arith op lhs rhs ihl ihr =>
    obtain ⟨hfitr, hfitl⟩ := Option.or_eq_none_iff.1 hfits
    simp only [divisionFree, Bool.and_eq_true, decide_eq_true_eq] at h
    obtain ⟨r₁, hr₁⟩ := Option.isSome_iff_exists.1 (ihr hfitr h.2 rdx).2
    obtain ⟨r₂, hr₂⟩ := Option.isSome_iff_exists.1 (ihl hfitl h.1.2 r₁).2
    obtain ⟨x, hx⟩ := Option.isSome_iff_exists.1 (ihl hfitl h.1.2 r₁).1
    obtain ⟨y, hy⟩ := Option.isSome_iff_exists.1 (ihr hfitr h.2 rdx).1
    simp only [signed, clean, hx, hy, hr₁, hr₂, Option.bind_eq_bind, Option.bind_some]
    cases op with
    | add | sub | mul => exact ⟨rfl, rfl⟩
    | div => exact absurd rfl h.1.1

/-! ### Code -/

/-- A run comes to one state at most that has no next one. -/
theorem Machine.Reaches.eq_of_final {listing : List Line} {world : World} {s t u : State}
    (h : Reaches listing world s t) (h' : Reaches listing world s u)
    (ht : ∀ v, step listing world t ≠ .running v) (hu : ∀ v, step listing world u ≠ .running v) :
    t = u := by
  induction h using Relation.ReflTransGen.head_induction_on with
  | refl =>
    rcases h'.cases_head with rfl | ⟨v, hv, -⟩
    · rfl
    · exact absurd hv (ht v)
  | head hstep _ ih =>
    rcases h'.cases_head with rfl | ⟨v, hv, hrest⟩
    · exact absurd hstep (hu _)
    · rw [Steps, hstep] at hv
      cases hv
      exact ih hrest

section

variable {listing : List Line} {world : World} {e : Expr} {n : Nat}

/-- A run of the code of an expression ends up where evaluation does. -/
theorem Expr.reaches_of_eval (hfits : e.misfit = none) (he : e.OnStorage)
    (hcode : CodeAt listing n e.code) {regs : Registers} {d d' : Residue} {v : Word}
    (heval : e.eval regs d = .ok (v, d')) (stack : List Slot) (output : List Word) :
    ∃ rbx, Reaches listing world ⟨n, regs, d, stack, output⟩
      ⟨n + e.code.length, regs.scratch rbx v, d', stack, output⟩ := by
  have hfollows : Follows listing world ⟨n, regs, d, stack, output⟩ (e.eval regs) _ :=
    e.follows hfits he.ne_scratch hcode regs d stack output
  rw [Follows, heval] at hfollows
  obtain ⟨t, hreaches, -, hd, rbx, d'', rfl⟩ := hfollows
  cases hd
  exact ⟨rbx, hreaches⟩

/-- A run of the code of an expression faults where evaluation does. -/
theorem Expr.ends_of_eval (hfits : e.misfit = none) (he : e.OnStorage)
    (hcode : CodeAt listing n e.code) {regs : Registers} {d : Residue} {k : Nat}
    (heval : e.eval regs d = .error k) (stack : List Slot) (output : List Word) :
    Ends listing world ⟨n, regs, d, stack, output⟩ ⟨output, .faulted k⟩ := by
  have hfollows : Follows listing world ⟨n, regs, d, stack, output⟩ (e.eval regs) _ :=
    e.follows hfits he.ne_scratch hcode regs d stack output
  rw [Follows, heval] at hfollows
  exact hfollows

/-- **The code of expressions and signed arithmetic.** If evaluation is clean, running the code
leaves the signed value in `rax`; storage and stack are as before. Without divisions it always is.
Behind operands that were evaluated cleanly, a division that finds zero in `rdx` leaves the signed
quotient exactly if the signs of the operands do not matter; and a division that finds the divisor
or more there faults. -/
theorem Expr.code_signed (hfits : e.misfit = none) (he : e.OnStorage)
    (hcode : CodeAt listing n e.code) (regs : Registers) (rdx : Word) (k : Nat)
    (stack : List Slot) (output : List Word) :
    (∀ v rdx', e.signed regs = some v → e.clean regs rdx = some rdx' →
      ∃ rbx k', Reaches listing world ⟨n, regs, ⟨rdx, k⟩, stack, output⟩
        ⟨n + e.code.length, regs.scratch rbx v, ⟨rdx', k'⟩, stack, output⟩) ∧
    (e.divisionFree = true → (e.signed regs).isSome ∧ (e.clean regs rdx).isSome) ∧
    ∀ lhs rhs x y r₁ r₂, e = .arith .div lhs rhs → lhs.signed regs = some x →
      rhs.signed regs = some y → rhs.clean regs rdx = some r₁ → lhs.clean regs r₁ = some r₂ →
      y ≠ 0 →
        (r₂ = 0 → ∃ q rbx d, Reaches listing world ⟨n, regs, ⟨rdx, k⟩, stack, output⟩
          ⟨n + e.code.length, regs.scratch rbx q, d, stack, output⟩ ∧
          (q = x.sdiv y ↔ Word.Signless x y)) ∧
        (y.toNat ≤ r₂.toNat → ∃ k', Ends listing world ⟨n, regs, ⟨rdx, k⟩, stack, output⟩
          ⟨output, .faulted k'⟩) := by
  refine ⟨fun v rdx' hv hrdx => ?_, fun h => clean_of_divisionFree hfits h rdx, ?_⟩
  · obtain ⟨k', heval⟩ := eval_of_clean hv hrdx k
    obtain ⟨rbx, hreaches⟩ := reaches_of_eval hfits he hcode heval stack output
    exact ⟨rbx, k', hreaches⟩
  · rintro lhs rhs x y r₁ r₂ rfl hx hy hr₁ hr₂ hne
    obtain ⟨k₁, hright⟩ := eval_of_clean hy hr₁ k
    obtain ⟨k₂, hleft⟩ := eval_of_clean hx hr₂ k₁
    have heval := eval_arith hright hleft .div
    rw [Op.apply] at heval
    constructor
    · rintro rfl
      rw [Word.divide?_zero_high x hne] at heval
      obtain ⟨rbx, hreaches⟩ := reaches_of_eval hfits he hcode heval stack output
      exact ⟨x / y, rbx, _, hreaches, Word.udiv_eq_sdiv_iff x hne⟩
    · intro hle
      rw [Word.divide?_of_le hle] at heval
      exact ⟨k₂, ends_of_eval hfits he hcode heval stack output⟩

end

/-- With 9 in the storage, half of the number three below it. -/
theorem Expr.code_signed_clean :
    ∃ rbx k, Reaches (Expr.arith .div (.arith .sub (.reg .r10) (.num 3)) (.num 2)).code
      ⟨fun _ => 0, fun _ => ⟨0, 0, 0, 0, 0, 0, 0⟩⟩ ⟨0, fun _ => 9, ⟨0, 0⟩, [], []⟩
      ⟨0 + (Expr.arith .div (.arith .sub (.reg .r10) (.num 3)) (.num 2)).code.length,
        Registers.scratch (fun _ => 9) rbx 3, ⟨0, k⟩, [], []⟩ := by
  have hstorage : (Expr.arith .div (.arith .sub (.reg .r10) (.num 3)) (.num 2)).OnStorage :=
    show ∀ r ∈ Expr.registers _, r ∈ Register.storage by decide
  exact (code_signed (by decide) hstorage (codeAt_zero _) (fun _ => 9) 0 0 [] []).1 3 0
    (by decide) (by decide)

/-- Two expressions, in a state with zero in `rdx`. The code of `-6 / 2` comes to its end, but never
with -3 in `rax`; what is there is three less than half of the words. The code of `7 / 2 / 1`
faults: the first division leaves its remainder in `rdx`. -/
theorem Expr.code_not_signed :
    ((Expr.arith .div (.num (-6)) (.num 2)).signed fun _ => 0) = some (-3) ∧
    (∃ rbx d, Reaches (Expr.arith .div (.num (-6)) (.num 2)).code
      ⟨fun _ => 0, fun _ => ⟨0, 0, 0, 0, 0, 0, 0⟩⟩ ⟨0, fun _ => 0, ⟨0, 0⟩, [], []⟩
      ⟨0 + (Expr.arith .div (.num (-6)) (.num 2)).code.length,
        Registers.scratch (fun _ => 0) rbx 0x7FFFFFFFFFFFFFFD, d, [], []⟩) ∧
    (∀ t, Reaches (Expr.arith .div (.num (-6)) (.num 2)).code
      ⟨fun _ => 0, fun _ => ⟨0, 0, 0, 0, 0, 0, 0⟩⟩ ⟨0, fun _ => 0, ⟨0, 0⟩, [], []⟩ t →
      t.line = (Expr.arith .div (.num (-6)) (.num 2)).code.length → t.regs .rax ≠ -3) ∧
    ((Expr.arith .div (.arith .div (.num 7) (.num 2)) (.num 1)).signed fun _ => 0) = some 3 ∧
    Ends (Expr.arith .div (.arith .div (.num 7) (.num 2)) (.num 1)).code
      ⟨fun _ => 0, fun _ => ⟨0, 0, 0, 0, 0, 0, 0⟩⟩ ⟨0, fun _ => 0, ⟨0, 0⟩, [], []⟩
      ⟨[], .faulted 1⟩ := by
  have heval : (Expr.arith .div (.num (-6)) (.num 2)).eval (fun _ => 0) ⟨0, 0⟩ =
      .ok (0x7FFFFFFFFFFFFFFD, ⟨0, 1⟩) := by rfl
  have heval' : (Expr.arith .div (.arith .div (.num 7) (.num 2)) (.num 1)).eval (fun _ => 0)
      ⟨0, 0⟩ = .error 1 := by rfl
  obtain ⟨rbx, hreaches⟩ := reaches_of_eval (by decide) (fun _ hr => by cases hr)
    (codeAt_zero _) heval [] []
  refine ⟨by decide, ⟨rbx, _, hreaches⟩, fun t ht hline hrax => ?_, by decide,
    ends_of_eval (by decide) (fun _ hr => by cases hr) (codeAt_zero _) heval' [] []⟩
  -- past the last line there is no next state
  have hfinal := ht.eq_of_final hreaches (fun v hv => ?_) (fun v hv => ?_)
  · rw [hfinal] at hrax
    exact absurd hrax (show (0x7FFFFFFFFFFFFFFD : Word) ≠ -3 by decide)
  · rw [step, hline, List.getElem?_length] at hv
    cases hv
  · rw [step, Nat.zero_add, List.getElem?_length] at hv
    cases hv

end RegArith
