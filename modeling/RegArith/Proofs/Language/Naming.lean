import Mathlib.Data.List.Nodup
import RegArith.Proofs.Language.Acceptance

/-!
# What a parsed program names

A tree may name any register and any label. The trees of sources name storage registers only, and
their loops are numbered consecutively in source order, so that no two of them share a label.

## Main definitions

* `Expr.registers` — the registers that an expression names
* `Assignment.OnStorage`, `Stmt.OnStorage` — all registers are storage

## Main results

* `onStorage_of_parse` — sources name storage only
* `labels_of_parse` — the labels of the loops of a source
-/

namespace RegArith

/-! ### Registers -/

/-- The registers that an expression names. -/
def Expr.registers : Expr → List Register
  | .num _ | .huge _ => []
  | .reg r => [r]
  | .arith _ lhs rhs => lhs.registers ++ rhs.registers

/-- The expression names storage registers only. -/
def Expr.OnStorage (e : Expr) : Prop := ∀ r ∈ e.registers, r ∈ Register.storage

/-- The assignment reads and writes storage registers only. -/
structure Assignment.OnStorage (a : Assignment) : Prop where
  target : a.target ∈ Register.storage
  value : a.value.OnStorage

/-- The statement reads and writes storage registers only. -/
def Stmt.OnStorage : Stmt → Prop
  | .assign a => a.OnStorage
  | .loop l => l.counter.OnStorage ∧ l.body.OnStorage

theorem Expr.onStorage_arith {op : Op} {lhs rhs : Expr} :
    (Expr.arith op lhs rhs).OnStorage ↔ lhs.OnStorage ∧ rhs.OnStorage := by
  simp only [OnStorage, registers, List.mem_append, or_imp, forall_and]

namespace Derives

theorem Operand.onStorage {ts : List Token} {e : Expr} (h : Operand ts e) : e.OnStorage := by
  have hliteral {negative : Bool} {d : DigitRun} {e : Expr} (h : Literal negative d e) :
      e.OnStorage := by
    cases h <;> exact fun _ hr => absurd hr List.not_mem_nil
  cases h with
  | unsigned h | plus h | minus h => exact hliteral h
  | register hr =>
    intro r hmem
    rwa [List.mem_singleton.1 hmem]

theorem LeftGrouped.onStorage {item : List Token → Expr → Prop} {ops : List Op}
    {ts : List Token} {e : Expr} (hitem : ∀ ts e, item ts e → e.OnStorage)
    (h : LeftGrouped item ops ts e) : e.OnStorage := by
  induction h with
  | first h => exact hitem _ _ h
  | more _ _ hf ih => exact Expr.onStorage_arith.2 ⟨ih, hitem _ _ hf⟩

theorem Assign.onStorage {ts : List Token} {a : Assignment} (h : Assign ts a) :
    a.OnStorage := by
  obtain ⟨hr, he⟩ := h
  have hmulDiv : ∀ ts e, MulDiv ts e → e.OnStorage := fun _ _ =>
    LeftGrouped.onStorage fun _ _ => Operand.onStorage
  exact ⟨hr, LeftGrouped.onStorage hmulDiv he⟩

theorem Loop.onStorage {ts : List Token} {k : Expr} {a : Assignment} (h : Loop ts k a) :
    k.OnStorage ∧ a.OnStorage := by
  obtain ⟨hk, ha⟩ := h
  exact ⟨hk.onStorage, ha.onStorage⟩

theorem Program.onStorage {count : Nat} {ts : List Token} {ss : List Stmt}
    (h : Program count ts ss) : ∀ s ∈ ss, s.OnStorage := by
  induction h with
  | nil => exact fun _ hs => absurd hs List.not_mem_nil
  | assign h _ ih => exact List.forall_mem_cons.2 ⟨h.onStorage, ih⟩
  | loop h _ ih => exact List.forall_mem_cons.2 ⟨h.onStorage, ih⟩

/-! ### Labels -/

/-- Loops are numbered from the given count on. -/
theorem Program.labels {count : Nat} {ts : List Token} {ss : List Stmt}
    (h : Program count ts ss) :
    (ss.filterMap Stmt.loop?).map (·.label.index) =
      List.range' count (ss.filterMap Stmt.loop?).length := by
  induction h with
  | nil => rfl
  | assign _ _ ih => exact ih
  | @loop count _ _ k a rest _ _ ih =>
    have hcons : (Stmt.loop ⟨⟨count⟩, k, a⟩ :: rest).filterMap Stmt.loop? =
        ⟨⟨count⟩, k, a⟩ :: rest.filterMap Stmt.loop? := rfl
    rw [hcons, List.map_cons, ih, List.length_cons, List.range'_succ]

end Derives

/-! ### Sources -/

theorem onStorage_of_parse {source : String} {count : Nat} {p : Program}
    (h : (parse source count).1 = .ok p) : ∀ s ∈ p.stmts, s.OnStorage := by
  obtain ⟨ts, -, hderives⟩ := derives_of_parse h
  exact hderives.onStorage

theorem labels_of_parse {source : String} {count : Nat} {p : Program}
    (h : (parse source count).1 = .ok p) :
    p.loops.map (·.label.index) = List.range' count p.loops.length := by
  obtain ⟨ts, -, hderives⟩ := derives_of_parse h
  exact hderives.labels

/-- No two loops of a source share a label. -/
theorem nodup_labels_of_parse {source : String} {count : Nat} {p : Program}
    (h : (parse source count).1 = .ok p) : (p.loops.map (·.label)).Nodup := by
  have hnodup : (p.loops.map (·.label.index)).Nodup := by
    rw [labels_of_parse h]
    exact List.nodup_range'
  refine .of_map Label.index ?_
  rwa [List.map_map]

end RegArith
