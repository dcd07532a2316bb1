import Mathlib.Control.Monad.Basic
import RegArith.Proofs.Language.Acceptance
import RegArith.Proofs.Parsing.Values

/-!
# Expressions and their written form

The written form of an expression has no parentheses, so that different trees can be written alike.
The trees that are read back from their written form are the canonical ones: they group to the
left, products are below sums, and every literal and register is one that a source can hold. They
are also all the trees that reading ever gives.

That reading gives canonical trees only is a property of values, whatever the input. That a
canonical tree is read back is a matter of the grammar: its written form is derived token by
token, and an exact production reads what is derived.

## Main definitions

* `Expr.Canonical` — the shape and the leaves of trees that come from a source
* `Expr.ReadsBack` — the written form is read back as the tree

## Main results

* `yields_expr` — reading gives canonical trees only
* `Expr.Canonical.readsBack` — canonical trees are read back
* `readsBack_iff_canonical` — both together
-/

namespace RegArith

open Grammar

/-! ### Canonical trees -/

/-- Whether the operation is an addition or a subtraction. -/
def Op.isAdditive : Op → Bool
  | .add | .sub => true
  | .mul | .div => false

theorem Op.isAdditive_iff {o : Op} : o.isAdditive ↔ o ∈ [.add, .sub] := by
  cases o <;> decide

theorem Op.not_isAdditive_iff {o : Op} : ¬o.isAdditive ↔ o ∈ [.mul, .div] := by
  cases o <;> decide

namespace Expr

/-- Whether the expression is a literal or a register. -/
def isLeaf : Expr → Bool
  | arith _ _ _ => false
  | num _ | huge _ | reg _ => true

/-- Whether the expression is an addition or a subtraction. -/
def isSum : Expr → Bool
  | arith op _ _ => op.isAdditive
  | num _ | huge _ | reg _ => false

/-- A text without the minus in front of it. -/
def unsigned : List Char → List Char
  | '-' :: digits => digits
  | digits => digits

/-- The expression is one that a source can hold: literals are kept as numbers below `2 ^ 127` and
as digits from there on, registers are storage, and operations are grouped as they are read. -/
def Canonical : Expr → Prop
  | num value => value.natAbs ≤ 2 ^ 127 - 1
  | huge text => (∀ c ∈ unsigned text.toList, '0' ≤ c ∧ c ≤ '9') ∧
      2 ^ 127 ≤ decimalValue (unsigned text.toList)
  | reg r => r ∈ Register.storage
  | arith op lhs rhs => lhs.Canonical ∧ rhs.Canonical ∧
      if op.isAdditive then ¬rhs.isSum else rhs.isLeaf ∧ ¬lhs.isSum

instance decidableCanonical : (e : Expr) → Decidable e.Canonical
  | num value => inferInstanceAs (Decidable (value.natAbs ≤ 2 ^ 127 - 1))
  | huge text => inferInstanceAs (Decidable ((∀ c ∈ unsigned text.toList, '0' ≤ c ∧ c ≤ '9') ∧
      2 ^ 127 ≤ decimalValue (unsigned text.toList)))
  | reg r => inferInstanceAs (Decidable (r ∈ Register.storage))
  | arith op lhs rhs =>
    have := decidableCanonical lhs
    have := decidableCanonical rhs
    inferInstanceAs (Decidable (lhs.Canonical ∧ rhs.Canonical ∧
      if op.isAdditive then ¬rhs.isSum else rhs.isLeaf ∧ ¬lhs.isSum))

/-- The production of expressions reads the written form as the expression, and all of it. -/
def ReadsBack (e : Expr) (j : Journal Nat) : Prop :=
  ∃ furthest, (Grammar.expr.run (sourceTokens e.written) 0 j).1 =
    .ok ⟨e, e.written.length, furthest⟩

end Expr

/-! ### Literals -/

/-- Digits with a minus in front of them, or without. -/
def signed (negative : Bool) (d : DigitRun) : List Char :=
  if negative then '-' :: d.chars else d.chars

/-- The digits of a number. -/
def DigitRun.ofNat (n : Nat) : DigitRun where
  chars := Nat.toDigits 10 n
  ne_nil := Nat.toDigits_ne_nil
  isDigit c hc := by
    have hdigit := Nat.isDigit_of_mem_toDigits (by decide) (by decide) hc
    simpa [Char.isDigit, Char.le_def] using hdigit

@[simp] theorem DigitRun.value_ofNat (n : Nat) : (DigitRun.ofNat n).value = n :=
  Nat.ofDigitChars_ten_toDigits

theorem unsigned_signed (negative : Bool) (d : DigitRun) :
    Expr.unsigned (signed negative d) = d.chars := by
  cases negative with
  | true => rfl
  | false =>
    obtain ⟨c, cs, hd⟩ := List.exists_cons_of_ne_nil d.ne_nil
    have hc := d.isDigit c (by simp [hd])
    rw [signed, if_neg (by simp), hd, Expr.unsigned]
    rintro digits h
    cases h
    exact absurd hc.1 (by decide)

/-- A text of digits, possibly with a minus, is such a run if its digits denote anything. -/
theorem exists_eq_signed {cs : List Char} (hdigits : ∀ c ∈ Expr.unsigned cs, '0' ≤ c ∧ c ≤ '9')
    (hvalue : 0 < decimalValue (Expr.unsigned cs)) :
    ∃ negative d, cs = signed negative d ∧ d.chars = Expr.unsigned cs := by
  have hne : Expr.unsigned cs ≠ [] := by
    intro h
    rw [h] at hvalue
    exact absurd hvalue (by decide)
  by_cases hminus : cs.head? = some '-'
  · obtain ⟨ds, rfl⟩ := List.head?_eq_some_iff.1 hminus
    exact ⟨true, ⟨ds, hne, hdigits⟩, rfl, rfl⟩
  · have hsame : Expr.unsigned cs = cs := by
      unfold Expr.unsigned
      split
      · exact absurd rfl hminus
      · rfl
    rw [hsame] at hne hdigits
    exact ⟨false, ⟨cs, hne, hdigits⟩, rfl, hsame.symm⟩

/-- Every literal that is read is a canonical leaf. -/
theorem Derives.Literal.canonical {negative : Bool} {d : DigitRun} {e : Expr}
    (h : Derives.Literal negative d e) : e.Canonical ∧ e.isLeaf := by
  cases h with
  | num h =>
    refine ⟨?_, rfl⟩
    change (if negative then -(d.value : Int) else d.value).natAbs ≤ 2 ^ 127 - 1
    cases negative <;> simp <;> omega
  | huge h =>
    refine ⟨?_, rfl⟩
    change (∀ c ∈ Expr.unsigned (String.ofList (signed negative d)).toList, '0' ≤ c ∧ c ≤ '9') ∧
      2 ^ 127 ≤ decimalValue (Expr.unsigned (String.ofList (signed negative d)).toList)
    rw [String.toList_ofList, unsigned_signed]
    exact ⟨d.isDigit, h⟩

/-- A canonical number is a literal, and it is written like one. -/
theorem exists_literal_num {value : Int} (h : (Expr.num value).Canonical) :
    ∃ negative d, Derives.Literal negative d (.num value) ∧
      (Expr.num value).written.toList = signed negative d := by
  have habs : value.natAbs ≤ 2 ^ 127 - 1 := h
  have hlt : (DigitRun.ofNat value.natAbs).value < 2 ^ 127 := by
    rw [DigitRun.value_ofNat]
    omega
  cases value with
  | ofNat n =>
    refine ⟨false, .ofNat n, ?_, ?_⟩
    · have hnum := @Derives.Literal.num false _ hlt
      simpa using hnum
    · exact Nat.toList_repr
  | negSucc n =>
    refine ⟨true, .ofNat (n + 1), ?_, ?_⟩
    · rw [Int.natAbs_negSucc] at hlt
      have hnum := @Derives.Literal.num true _ hlt
      simpa [Int.negSucc_eq] using hnum
    · change ("-" ++ (n + 1).repr).toList = _
      rw [String.toList_append, Nat.toList_repr]
      rfl

/-- A canonical text is a literal, and it is written like one. -/
theorem exists_literal_huge {text : String} (h : (Expr.huge text).Canonical) :
    ∃ negative d, Derives.Literal negative d (.huge text) ∧
      (Expr.huge text).written.toList = signed negative d := by
  obtain ⟨hdigits, hvalue⟩ := h
  obtain ⟨negative, d, htext, hd⟩ := exists_eq_signed hdigits (by omega)
  refine ⟨negative, d, ?_, htext⟩
  have hhuge := @Derives.Literal.huge negative d (by rw [DigitRun.value, hd]; exact hvalue)
  rwa [← signed, ← htext, String.ofList_toList] at hhuge

/-! ### Reading gives canonical trees -/

section Yields

variable {α : Type} {P : α → Prop}

theorem yields_spaced {p : Production α} (h : p.closed.Yields P) : (spaced p).closed.Yields P := by
  rw [spaced, Parser.closed_map, Parser.closed_seq, Parser.closed_seq]
  exact (((Attempt.yields_true _).seq h).seq (Attempt.yields_true _)).map fun _ hv => hv.1.2

theorem yields_digits :
    digits.closed.Yields fun text => ∃ d : DigitRun, text = String.ofList d.chars := by
  have hrun := yields_spaced (Attempt.yields_satisfy (σ := Nat) isDecimal).plus
    (p := Parser.plus (Parser.range '0' '9'))
  refine hrun.map fun cs hcs => ?_
  obtain ⟨hne, hdigits⟩ := hcs
  exact ⟨⟨cs, hne, by simpa [isDecimal] using hdigits⟩, rfl⟩

theorem yields_int : int.closed.Yields fun e => e.Canonical ∧ e.isLeaf := by
  rw [int, Parser.closed_map, Parser.closed_seq]
  refine ((Attempt.yields_true _).seq yields_digits).map ?_
  rintro ⟨sign, text⟩ ⟨-, d, rfl⟩
  exact (derives_literal_iff.2 rfl).canonical

theorem yields_register : register.closed.Yields (· ∈ Register.storage) := by
  refine yields_spaced ?_
  have hnames (rs : List Register) (hrs : ∀ r ∈ rs, r ∈ Register.storage) :
      (Parser.altList (rs.map fun r => (Parser.word r.name).map fun _ => r) :
        Production Register).closed.Yields (· ∈ Register.storage) := by
    induction rs with
    | nil => exact Attempt.yields_never
    | cons r rs ih =>
      rw [List.map_cons, Parser.altList, Parser.closed_alt, Parser.closed_map]
      refine .alt ((Attempt.yields_true _).map fun _ _ => hrs r (by simp)) ?_
      exact ih fun q hq => hrs q (List.mem_cons_of_mem r hq)
  exact hnames Register.storage fun _ h => h

theorem yields_operand : operand.closed.Yields fun e => e.Canonical ∧ e.isLeaf := by
  rw [operand, Parser.closed_alt, Parser.closed_map]
  exact yields_int.alt (yields_register.map fun _ hr => ⟨hr, rfl⟩)

theorem yields_sign_alt (o o' : Op) :
    (spaced ((sign o).alt (sign o'))).closed.Yields (· ∈ [o, o']) := by
  refine yields_spaced ?_
  rw [Parser.closed_alt, sign, sign, Parser.closed_map, Parser.closed_map]
  exact ((Attempt.yields_true _).map fun _ _ => by simp).alt
    ((Attempt.yields_true _).map fun _ _ => by simp)

/-- Operations are grouped to the left: the tree read so far is the left operand, an item the
right one. -/
theorem yields_leftGrouped {p : Production Expr} {q : Production Op} {item tree : Expr → Prop}
    {ops : List Op} (hp : p.closed.Yields item) (hq : q.closed.Yields (· ∈ ops))
    (hfirst : ∀ e, item e → tree e)
    (hmore : ∀ o ∈ ops, ∀ lhs rhs, tree lhs → item rhs → tree (.arith o lhs rhs)) :
    (leftGrouped p q).closed.Yields tree := by
  rw [leftGrouped, Parser.closed_map, Parser.closed_seq, Parser.closed_star, Parser.closed_seq]
  refine (hp.seq (hq.seq hp).star).map ?_
  rintro ⟨first, more⟩ ⟨hitem, hmany⟩
  change tree (leftFold first more)
  have htree := hfirst first hitem
  clear hitem
  induction more generalizing first with
  | nil => exact htree
  | cons x more ih =>
    obtain ⟨hx, hmany⟩ := List.forall_mem_cons.1 hmany
    exact ih (.arith x.1 first x.2) hmany (hmore x.1 hx.1 first x.2 htree hx.2)

theorem yields_mulDivExpr : mulDivExpr.closed.Yields fun e => e.Canonical ∧ ¬e.isSum := by
  refine yields_leftGrouped yields_operand (yields_sign_alt .mul .div) ?_ ?_
  · rintro (_ | _ | _ | _) ⟨he, hleaf⟩
    · exact ⟨he, by simp [Expr.isSum]⟩
    · exact ⟨he, by simp [Expr.isSum]⟩
    · exact ⟨he, by simp [Expr.isSum]⟩
    · cases hleaf
  · intro o ho lhs rhs hl hr
    have hop := Op.not_isAdditive_iff.2 ho
    exact ⟨⟨hl.1, hr.1, by rw [if_neg hop]; exact ⟨hr.2, hl.2⟩⟩, hop⟩

/-- Whatever the input, the tree that is read is canonical. -/
theorem yields_expr : Grammar.expr.closed.Yields Expr.Canonical := by
  refine yields_leftGrouped yields_mulDivExpr (yields_sign_alt .add .sub) (fun _ h => h.1) ?_
  intro o ho lhs rhs hl hr
  exact ⟨hl, hr.1, by rw [if_pos (Op.isAdditive_iff.2 ho)]; exact hr.2⟩

end Yields

/-! ### Canonical trees are read back -/

/-- The expression is in the language, and its written form spells it. -/
def WrittenIn (L : Lang Expr) (e : Expr) : Prop :=
  ∃ ts, L ts e ∧ ts ≠ [] ∧ ∀ s, Spells ts (e.written.toList ++ s) (skip s)

theorem writtenIn_of_literal {negative : Bool} {d : DigitRun} {e : Expr}
    (h : Derives.Literal negative d e) (hwritten : e.written.toList = signed negative d) :
    WrittenIn Derives.Operand e := by
  cases negative with
  | false =>
    refine ⟨[.digits d], .unsigned h, by simp, fun s => ?_⟩
    rw [hwritten]
    exact ⟨s, rfl, rfl⟩
  | true =>
    refine ⟨[.op .sub, .digits d], .minus h, by simp, fun s => ?_⟩
    rw [hwritten]
    refine ⟨d.chars ++ s, rfl, s, ?_, rfl⟩
    exact skip_of_settled ((Token.digits d).settled_text_append s)

theorem writtenIn_operand {e : Expr} (h : e.Canonical) (hleaf : e.isLeaf) :
    WrittenIn Derives.Operand e := by
  cases e with
  | num value =>
    obtain ⟨negative, d, hliteral, hwritten⟩ := exists_literal_num h
    exact writtenIn_of_literal hliteral hwritten
  | huge text =>
    obtain ⟨negative, d, hliteral, hwritten⟩ := exists_literal_huge h
    exact writtenIn_of_literal hliteral hwritten
  | reg r => exact ⟨[.register r h], .register h, by simp, fun s => ⟨s, rfl, rfl⟩⟩
  | arith op lhs rhs => cases hleaf

/-- An operation is written as its operands with the sign between blanks. -/
theorem WrittenIn.more {item : Lang Expr} {ops : List Op} {o : Op} {lhs rhs : Expr}
    (hl : WrittenIn (Derives.LeftGrouped item ops) lhs) (ho : o ∈ ops) (hr : WrittenIn item rhs) :
    WrittenIn (Derives.LeftGrouped item ops) (.arith o lhs rhs) := by
  obtain ⟨ts, hts, -, hspells⟩ := hl
  obtain ⟨us, hus, hne, hspells'⟩ := hr
  refine ⟨ts ++ .op o :: us, .more hts ho hus, by simp, fun s => ?_⟩
  have hset : Settled (rhs.written.toList ++ s) :=
    (hspells' s).settled (settled_skipFrom false s)
  have hsign : Settled (o.symbol :: ' ' :: (rhs.written.toList ++ s)) :=
    (Token.op o).settled_text_append _
  have hwritten : (Expr.arith o lhs rhs).written.toList ++ s =
      lhs.written.toList ++ ' ' :: o.symbol :: ' ' :: (rhs.written.toList ++ s) := by
    simp [Expr.written]
  have hblank {s : List Char} (hs : Settled s) : skip (' ' :: s) = s := skip_of_settled hs
  rw [hwritten]
  refine spells_append.2 ⟨_, hspells _, ?_⟩
  rw [hblank hsign]
  refine ⟨' ' :: (rhs.written.toList ++ s), rfl, ?_⟩
  rw [hblank hset]
  exact hspells' s

theorem writtenIn_mulDiv {e : Expr} (h : e.Canonical) (hsum : ¬e.isSum) :
    WrittenIn Derives.MulDiv e := by
  induction e with
  | num _ | huge _ | reg _ =>
    obtain ⟨ts, hts, hspells⟩ := writtenIn_operand h rfl
    exact ⟨ts, .first hts, hspells⟩
  | arith op lhs rhs ihl _ =>
    have hop : ¬op.isAdditive := hsum
    obtain ⟨hl, hr, hshape⟩ := h
    rw [if_neg hop] at hshape
    exact (ihl hl hshape.2).more (Op.not_isAdditive_iff.1 hop) (writtenIn_operand hr hshape.1)

theorem writtenIn_addSub {e : Expr} (h : e.Canonical) : WrittenIn Derives.AddSub e := by
  have hfirst {e : Expr} (h : e.Canonical) (hsum : ¬e.isSum) : WrittenIn Derives.AddSub e := by
    obtain ⟨ts, hts, hspells⟩ := writtenIn_mulDiv h hsum
    exact ⟨ts, .first hts, hspells⟩
  induction e with
  | num _ | huge _ | reg _ => exact hfirst h (by simp [Expr.isSum])
  | arith op lhs rhs ihl _ =>
    by_cases hop : op.isAdditive
    · obtain ⟨hl, hr, hshape⟩ := h
      rw [if_pos hop] at hshape
      exact (ihl hl).more (Op.isAdditive_iff.1 hop) (writtenIn_mulDiv hr hshape)
    · exact hfirst h hop

/-- The written form of a canonical expression is read as the expression, and all of it. -/
theorem Expr.Canonical.readsBack {e : Expr} (h : e.Canonical) (j : Journal Nat) :
    e.ReadsBack j := by
  obtain ⟨ts, hts, -, hspells⟩ := writtenIn_addSub h
  have hspells : Spells ts (e.written.toList ++ []) [] := hspells []
  rw [List.append_nil, ← rest_sourceTokens] at hspells
  obtain ⟨o, hgives, hexact⟩ := parses_expr (sourceTokens e.written) 0 (Nat.zero_le _)
    (hspells.settled settled_nil)
  obtain ⟨x, rfl, rfl, hend⟩ := hexact.complete ts e [] hts hspells (by simp [Avoids])
  have hw := hexact.within
  rw [Outcome.within_ok, size_sourceTokens] at hw
  rw [rest_eq_nil_iff, size_sourceTokens] at hend
  have hnext : x.next = x.value.written.length := by omega
  refine ⟨x.furthest, ?_⟩
  have hrun := (Parser.closed_eq_some_run Grammar.expr _ 0 j).symm.trans (hgives j)
  rw [Option.some.inj hrun, ← hnext]

/-- **Written forms that are read back.** An expression is read back from its written form exactly
if it is canonical; and whatever is read from any input is canonical, and so it is read back. -/
theorem readsBack_iff_canonical (e : Expr) (j : Journal Nat) :
    (e.ReadsBack j ↔ e.Canonical) ∧
      ∀ tokens i x, (Grammar.expr.run tokens i j).1 = .ok x →
        x.value.Canonical ∧ x.value.ReadsBack j := by
  have himage (tokens : Array Char) (i : Nat) (x : Output Expr)
      (h : (Grammar.expr.run tokens i j).1 = .ok x) : x.value.Canonical :=
    Parser.of_run_eq_ok yields_expr h
  refine ⟨⟨?_, fun h => h.readsBack j⟩, fun tokens i x h => ?_⟩
  · rintro ⟨furthest, h⟩
    exact himage _ _ _ h
  · exact ⟨himage tokens i x h, (himage tokens i x h).readsBack j⟩

/-- A huge literal with a leading zero and a minus of its own keeps both, next to the minus of an
operation. -/
theorem readsBack_negative_huge :
    ∃ x, (Grammar.expr.run (sourceTokens "4--0170141183460469231731687303715884105728*r13 ;") 0
        (.new 0)).1 = .ok x ∧
      x.value = .arith .sub (.num 4)
        (.arith .mul (.huge "-0170141183460469231731687303715884105728") (.reg .r13)) ∧
      x.value.Canonical ∧ x.value.ReadsBack (.new 0) := by
  have h : (Grammar.expr.run (sourceTokens "4--0170141183460469231731687303715884105728*r13 ;") 0
      (.new 0)).1 = .ok ⟨.arith .sub (.num 4)
        (.arith .mul (.huge "-0170141183460469231731687303715884105728") (.reg .r13)), 48, 48⟩ := by
    decide +kernel
  exact ⟨_, h, rfl, (readsBack_iff_canonical (.num 4) (.new 0)).2 _ 0 _ h⟩

end RegArith
