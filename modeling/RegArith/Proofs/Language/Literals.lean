import Mathlib.Data.List.Perm.Basic
import RegArith.Proofs.Language.Acceptance

/-!
# Literals in trees and in sources

A tree holds literals at its leaves. A source holds them as runs of digits, some of them with a
minus in front; but not every minus in front of digits is a sign, since behind an operand it is an
operation. Which one it is can be told from the tokens alone, without a derivation.

The two kinds of literals are the same up to their order. The leaves of a tree are listed in the
order in which code for them is made: the right operand of an operation comes first, and a counter
comes before the body of its loop. The literals of a source are listed from left to right.

## Main definitions

* `Expr.literals`, `Stmt.literals`, `Program.literals` — the literals of a tree
* `WrittenLiteral` — a literal as it stands in a source
* `writtenLiterals` — the literals among tokens

## Main results

* `Derives.Program.perm_literals` — a derivation keeps the literals
-/

namespace RegArith

/-! ### Literals of trees -/

/-- The literals of an expression, in the order of lowering. -/
def Expr.literals : Expr → List Expr
  | .num value => [.num value]
  | .huge digits => [.huge digits]
  | .reg _ => []
  | .arith _ lhs rhs => rhs.literals ++ lhs.literals

/-- The literals of a statement, in the order of lowering. -/
def Stmt.literals : Stmt → List Expr
  | .assign a => a.value.literals
  | .loop l => l.counter.literals ++ l.body.value.literals

/-- The literals of a program, in the order of lowering. -/
def Program.literals (p : Program) : List Expr := p.stmts.flatMap Stmt.literals

/-- A literal is a number or is kept as text. -/
theorem Expr.eq_of_mem_literals {e f : Expr} (h : f ∈ e.literals) :
    (∃ value, f = .num value) ∨ ∃ digits, f = .huge digits := by
  induction e with
  | num value => exact .inl ⟨value, List.mem_singleton.1 h⟩
  | huge digits => exact .inr ⟨digits, List.mem_singleton.1 h⟩
  | reg r => exact absurd h List.not_mem_nil
  | arith op lhs rhs ihl ihr => exact (List.mem_append.1 h).elim ihr ihl

theorem Stmt.eq_of_mem_literals {s : Stmt} {f : Expr} (h : f ∈ s.literals) :
    (∃ value, f = .num value) ∨ ∃ digits, f = .huge digits := by
  cases s with
  | assign a => exact Expr.eq_of_mem_literals h
  | loop l => exact (List.mem_append.1 h).elim Expr.eq_of_mem_literals Expr.eq_of_mem_literals

/-! ### Literals of sources -/

/-- A literal as it is written: digits, with a minus in front of them or without. -/
structure WrittenLiteral where
  /-- There is a minus. -/
  negative : Bool
  digits : DigitRun

namespace WrittenLiteral

/-- The number that is written. -/
def value (w : WrittenLiteral) : Int :=
  if w.negative then -(w.digits.value : Int) else w.digits.value

/-- The leaf that stands for the literal in a tree. -/
def expr (w : WrittenLiteral) : Expr := Grammar.literal w.negative (String.ofList w.digits.chars)

/-- Below `2 ^ 127` a literal is kept as the number it is. -/
theorem expr_of_lt {w : WrittenLiteral} (h : w.value.natAbs < 2 ^ 127) : w.expr = .num w.value := by
  obtain ⟨negative, d⟩ := w
  have hd : d.value < 2 ^ 127 := by cases negative <;> simpa [value] using h
  exact derives_literal_iff.1 (.num hd)

/-- From there on it is kept as text. -/
theorem expr_of_le {w : WrittenLiteral} (h : 2 ^ 127 ≤ w.value.natAbs) :
    ∃ digits, w.expr = .huge digits := by
  obtain ⟨negative, d⟩ := w
  have hd : 2 ^ 127 ≤ d.value := by cases negative <;> simpa [value] using h
  exact ⟨_, derives_literal_iff.1 (.huge hd)⟩

end WrittenLiteral

/-- The literals among tokens, from left to right. If an operand has just been read (`behind`), the
sign of an operation is to follow; if not, a sign belongs to the digits behind it, and `negative` is
set when it is a minus. -/
def literalsFrom : (behind negative : Bool) → List Token → List WrittenLiteral
  | _, _, [] => []
  | behind, negative, t :: ts =>
    match t with
    | .digits d => ⟨negative, d⟩ :: literalsFrom true false ts
    | .register _ _ => literalsFrom true false ts
    | .op o => literalsFrom false (!behind && o = .sub) ts
    | .loop | .equals | .semicolon | .opening | .closing => literalsFrom false false ts

/-- The literals among the tokens of a program. -/
def writtenLiterals (ts : List Token) : List WrittenLiteral := literalsFrom false false ts

/-! ### Literals of a derivation -/

/-- Reading the tokens takes the scan from one place to another, and finds the literals `es` up to
their order. -/
def Scans (behind behind' : Bool) (ts : List Token) (es : List Expr) : Prop :=
  ∃ ws : List WrittenLiteral, (ws.map WrittenLiteral.expr).Perm es ∧
    ∀ rest, literalsFrom behind false (ts ++ rest) = ws ++ literalsFrom behind' false rest

namespace Scans

variable {b c d : Bool} {ts us : List Token} {es fs : List Expr}

/-- Tokens that hold no literal. -/
theorem of_skip (h : ∀ rest, literalsFrom b false (ts ++ rest) = literalsFrom c false rest) :
    Scans b c ts [] := ⟨[], .nil, h⟩

theorem append (h : Scans b c ts es) (h' : Scans c d us fs) :
    Scans b d (ts ++ us) (es ++ fs) := by
  obtain ⟨ws, hws, hscan⟩ := h
  obtain ⟨vs, hvs, hscan'⟩ := h'
  refine ⟨ws ++ vs, ?_, fun rest => ?_⟩
  · rw [List.map_append]
    exact hws.append hvs
  · rw [List.append_assoc, hscan, hscan', List.append_assoc]

theorem perm (h : Scans b c ts es) (hperm : es.Perm fs) : Scans b c ts fs := by
  obtain ⟨ws, hws, hscan⟩ := h
  exact ⟨ws, hws.trans hperm, hscan⟩

end Scans

namespace Derives

theorem Literal.expr_eq {negative : Bool} {d : DigitRun} {e : Expr} (h : Literal negative d e) :
    (WrittenLiteral.mk negative d).expr = e ∧ e.literals = [e] := by
  refine ⟨derives_literal_iff.1 h, ?_⟩
  cases h <;> rfl

theorem Operand.scans {ts : List Token} {e : Expr} (h : Operand ts e) :
    Scans false true ts e.literals := by
  cases h with
  | @unsigned d _ h | @plus d _ h =>
    obtain ⟨rfl, hliterals⟩ := h.expr_eq
    exact ⟨[⟨false, d⟩], by rw [hliterals]; exact .refl _, fun rest => rfl⟩
  | @minus d _ h =>
    obtain ⟨rfl, hliterals⟩ := h.expr_eq
    exact ⟨[⟨true, d⟩], by rw [hliterals]; exact .refl _, fun rest => rfl⟩
  | register hr => exact .of_skip fun rest => rfl

theorem LeftGrouped.scans {item : List Token → Expr → Prop} {ops : List Op} {ts : List Token}
    {e : Expr} (hitem : ∀ ts e, item ts e → Scans false true ts e.literals)
    (h : LeftGrouped item ops ts e) : Scans false true ts e.literals := by
  induction h with
  | first h => exact hitem _ _ h
  | @more ts us e f o _ _ hf ih =>
    -- behind an operand the sign is an operation, and another operand is to follow
    have hop : Scans true false [.op o] [] := .of_skip fun rest => rfl
    exact (ih.append (hop.append (hitem _ _ hf))).perm List.perm_append_comm

theorem Assign.scans {ts : List Token} {a : Assignment} (h : Assign ts a) :
    Scans false false ts a.value.literals := by
  obtain ⟨hr, he⟩ := h
  have hmulDiv : ∀ ts e, MulDiv ts e → Scans false true ts e.literals := fun _ _ =>
    LeftGrouped.scans fun _ _ => Operand.scans
  have hhead : Scans false false [.register _ hr, .equals] [] := .of_skip fun rest => rfl
  have hend : Scans true false [.semicolon] [] := .of_skip fun rest => rfl
  have hassign := hhead.append ((LeftGrouped.scans hmulDiv he).append hend)
  rwa [List.append_nil] at hassign

theorem Loop.scans {ts : List Token} {k : Expr} {a : Assignment} (h : Loop ts k a) :
    Scans false false ts (k.literals ++ a.value.literals) := by
  obtain ⟨hk, ha⟩ := h
  have hhead : Scans false false [.loop] [] := .of_skip fun rest => rfl
  have hopening : Scans true false [.opening] [] := .of_skip fun rest => rfl
  have hclosing : Scans false false [.closing] [] := .of_skip fun rest => rfl
  have hloop := hhead.append (hk.scans.append (hopening.append (ha.scans.append hclosing)))
  rwa [List.append_nil] at hloop

theorem Program.scans {count : Nat} {ts : List Token} {ss : List Stmt}
    (h : Program count ts ss) : Scans false false ts (ss.flatMap Stmt.literals) := by
  induction h with
  | nil => exact .of_skip fun rest => rfl
  | assign h _ ih => exact h.scans.append ih
  | loop h _ ih => exact h.scans.append ih

/-- **A derivation keeps the literals.** Those of the tokens are those of the tree, up to the order
in which they are listed. -/
theorem Program.perm_literals {count : Nat} {ts : List Token} {p : RegArith.Program}
    (h : Program count ts p.stmts) :
    ((writtenLiterals ts).map WrittenLiteral.expr).Perm p.literals := by
  obtain ⟨ws, hws, hscan⟩ := h.scans
  have hall := hscan []
  rw [List.append_nil, literalsFrom, List.append_nil] at hall
  rwa [writtenLiterals, hall]

/-- Every leaf of the tree is written somewhere, and whatever is written is a leaf of the tree. -/
theorem Program.mem_literals_iff {count : Nat} {ts : List Token} {p : RegArith.Program}
    (h : Program count ts p.stmts) {e : Expr} :
    e ∈ p.literals ↔ ∃ w ∈ writtenLiterals ts, w.expr = e := by
  rw [← h.perm_literals.mem_iff, List.mem_map]

end Derives

end RegArith
