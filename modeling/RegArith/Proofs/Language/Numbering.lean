import Mathlib.Data.List.Basic
import RegArith.Session
import RegArith.Proofs.Language.Leading
import RegArith.Proofs.Parsing.Deferred

/-!
# Numbering loops from any count on

Loops are the only thing that a production takes labels for, and a loop takes its label when all
of it has been read. So the productions defer: an attempt first reads, and what it read is given
its labels in the end, one for each loop, in the order of the source. Where the count started has
no influence but to shift all labels by the same number.

`Numbers` says this of an action that hands out labels. It holds of the actions that the
productions come to, and it is carried along by lists of values, by outputs and by results that
may fail, and so by every way to use a production.

## Main definitions

* `Label.shift`, `Loop.shift`, `Stmt.shift`, `Program.shift`, `Rule.shift` — labels raised by a
  number
* `Labelled` — values with loops in them
* `Numbers` — an action that takes a label for each loop of its value

## Main results

* `Numbers.mapM` — values in a row are numbered through
* `Rule.defers` — the productions defer to actions that number their loops
* `Rule.run_find` — the matches of a production, from any count on
* `numbers_labelAll` — the leading statements of a source, from any count on
-/

namespace RegArith

variable {α β γ δ : Type}

/-! ### Shifted labels -/

/-- The label whose number is higher by `n`. -/
def Label.shift (n : Nat) (l : Label) : Label := ⟨n + l.index⟩

/-- The loop with its label shifted. -/
def Loop.shift (n : Nat) (l : Loop) : Loop := { l with label := l.label.shift n }

/-- The statement with its label shifted, if it has one. -/
def Stmt.shift (n : Nat) : Stmt → Stmt
  | .assign a => .assign a
  | .loop l => .loop (l.shift n)

/-- The program with all labels shifted. -/
def Program.shift (n : Nat) (p : Program) : Program := ⟨p.stmts.map (Stmt.shift n)⟩

/-- What a production reads, with all labels shifted. -/
def Rule.shift (n : Nat) : (r : Rule) → r.Value → r.Value
  | .loop, l => Loop.shift n l
  | .statement, s => Stmt.shift n s
  | .program, p => Program.shift n p
  | .register, v | .int, v | .operand, v | .mulDivExpr, v | .addSubExpr, v | .expr, v
  | .assignment, v => v

theorem Loop.shift_shift (m n : Nat) (l : Loop) : (l.shift n).shift m = l.shift (m + n) := by
  simp only [Loop.shift, Label.shift, Nat.add_assoc]

theorem Stmt.shift_shift (m n : Nat) (s : Stmt) : (s.shift n).shift m = s.shift (m + n) := by
  cases s with
  | assign a => rfl
  | loop l => exact congrArg Stmt.loop (l.shift_shift m n)

theorem Program.shift_shift (m n : Nat) (p : Program) :
    (p.shift n).shift m = p.shift (m + n) := by
  simp [Program.shift, Stmt.shift_shift]

/-! ### Values with loops -/

/-- Values that loops stand in: the loops in source order, and what shifting their labels does to
the value. -/
structure Labelled (γ : Type) where
  /-- The loops in source order. -/
  loops : γ → List Loop
  /-- The value with all labels raised. -/
  shift : Nat → γ → γ
  /-- Shifting twice is shifting by the sum. -/
  shift_shift : ∀ m n v, shift m (shift n v) = shift (m + n) v

namespace Labelled

/-- Statements. -/
def stmt : Labelled Stmt := ⟨fun s => s.loop?.toList, Stmt.shift, Stmt.shift_shift⟩

/-- Lists of such values. -/
def list (L : Labelled γ) : Labelled (List γ) where
  loops vs := vs.flatMap L.loops
  shift n := List.map (L.shift n)
  shift_shift m n vs := by simp [L.shift_shift]

theorem loops_list_stmt (ss : List Stmt) : stmt.list.loops ss = ss.filterMap Stmt.loop? :=
  (List.filterMap_eq_flatMap_toList Stmt.loop? ss).symm

/-- Outputs with such values. -/
def output (L : Labelled γ) : Labelled (Output γ) where
  loops x := L.loops x.value
  shift n := Output.map (L.shift n)
  shift_shift m n x := by simp [Output.map, L.shift_shift]

/-- Such values or failures. -/
def result (L : Labelled γ) : Labelled (Except NoMatch γ) where
  loops
    | .error _ => []
    | .ok v => L.loops v
  shift n := Except.map (L.shift n)
  shift_shift m n r := by cases r <;> simp [Except.map, L.shift_shift]

end Labelled

/-- What a production reads. -/
def Rule.labelled (r : Rule) : Labelled r.Value where
  loops := r.loops
  shift n := r.shift n
  shift_shift m n v := by
    cases r with
    | loop => exact Loop.shift_shift m n v
    | statement => exact Stmt.shift_shift m n v
    | program => exact Program.shift_shift m n v
    | register | int | operand | mulDivExpr | addSubExpr | expr | assignment => rfl

/-! ### Actions that number loops -/

/-- The numbers of loops. -/
def loopNumbers (loops : List Loop) : List Nat := loops.map (·.label.index)

@[simp] theorem loopNumbers_append (loops loops' : List Loop) :
    loopNumbers (loops ++ loops') = loopNumbers loops ++ loopNumbers loops' := List.map_append

@[simp] theorem length_loopNumbers (loops : List Loop) :
    (loopNumbers loops).length = loops.length := List.length_map _

/-- From whatever count it starts, the action takes the next label for each loop of its value, in
source order, and the value is otherwise the same. -/
def Numbers (L : Labelled γ) (m : StateM Nat γ) : Prop :=
  ∃ v, ∀ n, m.run n = (L.shift n v, n + (L.loops v).length) ∧
    loopNumbers (L.loops (L.shift n v)) = List.range' n (L.loops v).length

theorem numbers_pure {L : Labelled γ} {v : γ} (hloops : L.loops v = [])
    (hshift : ∀ n, L.shift n v = v) : Numbers L (pure v) := by
  refine ⟨v, fun n => ?_⟩
  rw [hshift, hloops]
  exact ⟨rfl, rfl⟩

namespace Numbers

theorem map {L : Labelled γ} {M : Labelled δ} {m : StateM Nat γ} (h : Numbers L m) {g : γ → δ}
    (hloops : ∀ v, M.loops (g v) = L.loops v) (hshift : ∀ n v, M.shift n (g v) = g (L.shift n v)) :
    Numbers M (g <$> m) := by
  obtain ⟨v, hv⟩ := h
  refine ⟨g v, fun n => ?_⟩
  obtain ⟨hrun, hlabels⟩ := hv n
  rw [hshift, hloops, hloops]
  refine ⟨?_, hlabels⟩
  change (g (m.run n).1, (m.run n).2) = _
  rw [hrun]

/-- Values in a row: each one goes on where the one before it stopped. -/
theorem mapM {L : Labelled γ} {f : α → StateM Nat γ} (h : ∀ v, Numbers L (f v)) (vs : List α) :
    Numbers L.list (vs.mapM f) := by
  induction vs with
  | nil => exact numbers_pure rfl fun _ => rfl
  | cons v vs ih =>
    obtain ⟨w, hw⟩ := h v
    obtain ⟨ws, hws⟩ := ih
    generalize hk : (L.loops w).length = k at hw
    -- the rest was numbered from zero, and here it comes behind `k` loops
    refine ⟨w :: L.list.shift k ws, fun n => ?_⟩
    obtain ⟨hrun, hlabels⟩ := hw n
    obtain ⟨hrun', hlabels'⟩ := hws (n + k)
    have hlength : (L.list.loops (L.list.shift k ws)).length = (L.list.loops ws).length := by
      simpa using congrArg List.length (hws k).2
    have hvalue : L.list.shift n (w :: L.list.shift k ws) =
        L.shift n w :: L.list.shift (n + k) ws := by
      rw [← L.list.shift_shift]
      rfl
    have hloops (x : γ) (xs : List γ) : L.list.loops (x :: xs) = L.loops x ++ L.list.loops xs :=
      List.flatMap_cons
    rw [hvalue, hloops, hloops, List.length_append, hk, hlength, loopNumbers_append, hlabels,
      hlabels']
    refine ⟨?_, List.range'_append_1⟩
    rw [run_mapM_cons, hrun, hrun', Nat.add_assoc]

theorem act {L : Labelled γ} {f : α → StateM Nat γ} (h : ∀ v, Numbers L (f v)) (x : Output α) :
    Numbers L.output (x.act f) :=
  (h x.value).map (fun _ => rfl) fun _ _ => rfl

theorem conclude {L : Labelled γ} {f : α → StateM Nat γ} (h : ∀ v, Numbers L (f v))
    (r : Except NoMatch α) : Numbers L.result (conclude f r) := by
  cases r with
  | error e => exact numbers_pure rfl fun _ => rfl
  | ok v => exact (h v).map (fun _ => rfl) fun _ _ => rfl

end Numbers

/-! ### Stateless productions -/

namespace Grammar

open RegArith.Parser

theorem stateless_comment_alt_blank : (comment.alt blank).Stateless :=
  (((stateless_satisfy _).seq (stateless_satisfy _).star).map _).alt ((stateless_satisfy _).map _)

theorem stateless_layout : layout.Stateless := stateless_comment_alt_blank.star.map _

theorem stateless_spaced {p : Production α} (h : p.Stateless) : (spaced p).Stateless :=
  ((stateless_layout.seq h).seq stateless_layout).map _

theorem stateless_token (text : String) : (token text).Stateless :=
  (stateless_spaced (stateless_word text)).map _

theorem stateless_sign (op : Op) : (sign op).Stateless := (stateless_satisfy _).map _

theorem stateless_register : register.Stateless :=
  stateless_spaced (stateless_altList (List.forall_mem_map.2 fun r _ =>
    (stateless_word r.name).map _))

theorem stateless_int : int.Stateless := by
  have hdigits : digits.Stateless := (stateless_spaced (stateless_satisfy _).plus).map _
  exact ((((stateless_oneOf "+-").map _).alt stateless_nothing).seq hdigits).map _

theorem stateless_operand : operand.Stateless := stateless_int.alt (stateless_register.map _)

theorem stateless_leftGrouped {p : Production Expr} {sign : Production Op} (hp : p.Stateless)
    (hsign : sign.Stateless) : (leftGrouped p sign).Stateless :=
  (hp.seq (hsign.seq hp).star).map _

theorem stateless_mulDivExpr : mulDivExpr.Stateless :=
  stateless_leftGrouped stateless_operand
    (stateless_spaced ((stateless_sign .mul).alt (stateless_sign .div)))

theorem stateless_expr : expr.Stateless :=
  stateless_leftGrouped stateless_mulDivExpr
    (stateless_spaced ((stateless_sign .add).alt (stateless_sign .sub)))

theorem stateless_assignment : assignment.Stateless :=
  (((stateless_register.seq (stateless_token "=")).seq stateless_expr).seq
    (stateless_token ";")).map _

/-! ### Productions with loops -/

/-- A loop takes its label when all of it has been read. -/
theorem defers_loop : loop.closed.Defers
    fun x : (Unit × Expr) × ((Unit × Assignment) × Unit) =>
      return ⟨← Label.fresh, x.1.2, x.2.1.2⟩ := by
  have hparts : loopParts.Stateless := ((stateless_token _).seq stateless_operand).seq
    (((stateless_token _).seq stateless_assignment).seq (stateless_token _))
  rw [closed_loop]
  exact (Attempt.Defers.transform hparts _).congr fun _ => rfl

theorem defers_statement : statement.closed.Defers Unlabelled.label := by
  have hassign := Attempt.Defers.map stateless_assignment Stmt.assign
  have hloop := defers_loop.map Stmt.loop
  rw [statement, closed_alt]
  refine .of_comp (h := Sum.map id fun x => (x.1.2, x.2.1.2)) ((hassign.alt hloop).congr ?_)
  rintro (a | x) <;> rfl

/-- Layout behind a production costs no labels: it cannot fail. -/
theorem defers_spaced {p : Production β} {f : α → StateM Nat β} (h : p.closed.Defers f) :
    (spaced p).closed.Defers f := by
  have hlayout : layout.closed.Matches :=
    (Attempt.Stateless.matches_star stateless_comment_alt_blank).map fun _ => ()
  have hall := ((Attempt.Stateless.seq_defers stateless_layout h).seq_matches hlayout).map
    fun v : (Unit × β) × Unit => v.1.2
  rw [spaced, closed_map, closed_seq, closed_seq]
  exact .of_comp (h := fun v : (Unit × α) × Unit => v.1.2) hall

theorem defers_program : program.closed.Defers fun us => Program.mk <$> labelAll us :=
  (defers_spaced (p := statement.star) defers_statement.star).map Program.mk

end Grammar

/-! ### Labels of what is read -/

theorem numbers_fresh (k : Expr) (a : Assignment) :
    Numbers Rule.loop.labelled (do return ⟨← Label.fresh, k, a⟩) :=
  ⟨⟨⟨0⟩, k, a⟩, fun _ => ⟨rfl, rfl⟩⟩

theorem numbers_label (u : Unlabelled) : Numbers .stmt u.label := by
  rcases u with a | ⟨k, a⟩
  · exact numbers_pure rfl fun _ => rfl
  · exact (numbers_fresh k a).map (g := Stmt.loop) (fun _ => rfl) fun _ _ => rfl

/-- Statements take labels for the loops among them. -/
theorem numbers_labelAll (us : List Unlabelled) : Numbers Labelled.stmt.list (labelAll us) :=
  .mapM numbers_label us

/-- Where no loops can be, there is nothing to number. -/
theorem Rule.numbers_pure {r : Rule} (hr : r ≠ .loop ∧ r ≠ .statement ∧ r ≠ .program)
    (v : r.Value) : Numbers r.labelled (pure v) := by
  cases r with
  | loop => exact absurd rfl hr.1
  | statement => exact absurd rfl hr.2.1
  | program => exact absurd rfl hr.2.2
  | register | int | operand | mulDivExpr | addSubExpr | expr | assignment =>
    exact RegArith.numbers_pure rfl fun _ => rfl

theorem Rule.defers_production (r : Rule) :
    ∃ (α : Type) (f : α → StateM Nat r.Value),
      r.production.closed.Defers f ∧ ∀ v, Numbers r.labelled (f v) := by
  cases r with
  | register => exact ⟨_, pure, Grammar.stateless_register, numbers_pure (by decide)⟩
  | int => exact ⟨_, pure, Grammar.stateless_int, numbers_pure (by decide)⟩
  | operand => exact ⟨_, pure, Grammar.stateless_operand, numbers_pure (by decide)⟩
  | mulDivExpr => exact ⟨_, pure, Grammar.stateless_mulDivExpr, numbers_pure (by decide)⟩
  | addSubExpr | expr => exact ⟨_, pure, Grammar.stateless_expr, numbers_pure (by decide)⟩
  | assignment => exact ⟨_, pure, Grammar.stateless_assignment, numbers_pure (by decide)⟩
  | loop => exact ⟨_, _, Grammar.defers_loop, fun _ => numbers_fresh _ _⟩
  | statement => exact ⟨_, _, Grammar.defers_statement, numbers_label⟩
  | program =>
    refine ⟨_, _, Grammar.defers_program, fun us => ?_⟩
    exact (numbers_labelAll us).map (fun ss => (Labelled.loops_list_stmt ss).symm) fun _ _ => rfl

/-- **The productions defer.** Whatever a production reads is given its labels in the end, traced
or not. -/
theorem Rule.defers (r : Rule) (trace : Option String) :
    ∃ (α : Type) (f : α → StateM Nat r.Value),
      (r.parser trace).closed.Defers f ∧ ∀ v, Numbers r.labelled (f v) := by
  obtain ⟨α, f, hf, hnumbers⟩ := r.defers_production
  cases trace with
  | none => exact ⟨α, f, hf, hnumbers⟩
  | some name => exact ⟨α, f, hf.traced _, hnumbers⟩

/-- The matches of a production. -/
abbrev Rule.labelledFound (r : Rule) : Labelled (Except NoMatch (List (Output r.Value))) :=
  r.labelled.output.list.result

/-- **Matches from any count on.** The matches of a production take labels for the loops in them
and for nothing else. -/
theorem Rule.run_find (r : Rule) (trace : Option String) (mode : Mode) (source : String) :
    ∃ found, ∀ n, ∃ log,
      (r.find trace mode source).run n =
        (.found r (r.labelledFound.shift n found) log, n + (r.labelledFound.loops found).length) ∧
      loopNumbers (r.labelledFound.loops (r.labelledFound.shift n found)) =
        List.range' n (r.labelledFound.loops found).length := by
  obtain ⟨α, f, hf, hnumbers⟩ := r.defers trace
  obtain ⟨read, hread⟩ := hf.find mode (sourceTokens source)
  obtain ⟨found, hfound⟩ := Numbers.conclude (Numbers.mapM (Numbers.act hnumbers)) read
  refine ⟨found, fun n => ?_⟩
  obtain ⟨hrun, hlabels⟩ := hfound n
  obtain ⟨j, hfind, hstate⟩ := Parser.find_of_acts hread (.new n)
  rw [show (Journal.new n).state = n from rfl, hrun] at hfind hstate
  refine ⟨j.log, ?_, hlabels⟩
  change r.find trace mode source n = _
  rw [Rule.find, hfind]
  dsimp only
  rw [hstate]

end RegArith
