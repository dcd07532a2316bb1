import RegArith.Compiler

/-!
# The code of a program

Lowering is an action on a listing. Here its effect is a value: the lines that a node appends,
and the literal that stops it, if there is one. Neither depends on what the listing held before.
Proofs about generated code speak about these lists and never about the action.

## Main definitions

* `Expr.code`, `Assignment.code`, `Loop.code`, `Stmt.code`, `Program.code` — the lines of a node
* `Expr.misfit` and its companions — the first literal, in lowering order, that does not fit
* `Lowers` — an action appends the given lines, or is stopped by the given literal
* `emitBefore` — lines in front of an action

## Main results

* `Lowers.eq_of_ok` — a lowering that succeeds has appended all of its lines
* `Program.lowers` — lowering a program
* `generate_of_fits`, `generate_of_misfit` — the text of a program, or why there is none
* `generate_eq_ok` — what is known when a text is produced
* `compile_eq`, `compile_eq_ok` — the same from the source on
-/

namespace RegArith

/-! ### Lines -/

/-- The lines that leave the value of the expression in `rax`. -/
def Expr.code : Expr → List Line
  | .num value => [.comment (toString value ++ ": Codegen"), .instr (.mov .rax (.imm value))]
  | .huge _ => []
  | .reg r => [.comment (r.name ++ ": Codegen"), .instr (.mov .rax (.reg r))]
  | .arith op lhs rhs =>
    .comment (op.symbol.toString ++ ": Codegen for right operand") :: (rhs.code ++
      .comment (op.symbol.toString ++ ": Pushing result of right operand evaluation") ::
      .instr (.push .rax) ::
      .comment (op.symbol.toString ++ ": Codegen for left operand") :: (lhs.code ++
        [.comment (op.symbol.toString ++ ": Applying op"), .instr (.pop .rbx), .instr op.instr]))

/-- The lines that evaluate the expression and store its value. -/
def Assignment.code (a : Assignment) : List Line :=
  .comment (a.written ++ ": Codegen") :: (a.value.code ++
    [.comment (a.written ++ ": Writing expression value to var"),
      .instr (.mov a.target (.reg .rax))])

/-- The lines that run the body with the counter in `rcx`. -/
def Loop.code (l : Loop) : List Line :=
  .comment (l.written ++ ": Evaluating counter") :: (l.counter.code ++
    .comment (l.written ++ ": Storing counter in rcx") :: .instr (.mov .rcx (.reg .rax)) ::
    .label l.label.name :: .comment (l.written ++ ": Assignments code") :: (l.body.code ++
      [.instr (.loop l.label)]))

/-- The lines of a statement. -/
def Stmt.code : Stmt → List Line
  | .assign a => a.code
  | .loop l => l.code

/-- The lines of a statement in a program, with the call that prints its value. -/
def Stmt.printed (s : Stmt) : List Line :=
  .blank :: (s.code ++ [.instr (.call printRoutine)])

/-- The lines in front of the statements. -/
def prologue : List Line :=
  [.directive "global main", .label "main", .comment "Resetting r10, r11, r12, r13"] ++
  Register.storage.map fun r => .instr (.mov r (.imm 0))

/-- The lines that leave the program with status zero. -/
def epilogue : List Line :=
  [.blank, .instr (.mov .rax (.imm 60)), .instr (.mov .rdi (.imm 0)), .instr .syscall]

/-- The data of the program and the head of what follows. -/
def dataSection : List Line :=
  [.blank, .directive "section .data", .directive "format: db \"%lld\", 10", .blank,
    .directive "section .text", .directive "extern printf"]

/-- The lines of the print routine. -/
def printCode : List Line :=
  .label printRoutine :: (savedRegisters.map (fun r => .instr (.push r)) ++
    .instr (.mov .rdi (.sym "format")) :: .instr (.mov .rsi (.reg .rax)) ::
    .instr (.mov .rax (.imm 0)) :: .instr (.call "printf") ::
    (savedRegisters.reverse.map (fun r => .instr (.pop r)) ++ [.instr .ret]))

/-- The lines of a program. -/
def Program.code (p : Program) : List Line :=
  prologue ++ (p.stmts.flatMap Stmt.printed ++ (epilogue ++ (dataSection ++ printCode)))

/-! ### Literals that do not fit -/

/-- The first literal that stops the lowering of an expression: all of the right operand comes
before the left one. -/
def Expr.misfit : Expr → Option String
  | .num value => if value > maxLiteral then some (toString value) else none
  | .huge digits => some digits
  | .reg _ => none
  | .arith _ lhs rhs => rhs.misfit.or lhs.misfit

/-- The first literal that stops the lowering of a statement: the counter of a loop comes before
its body. -/
def Stmt.misfit : Stmt → Option String
  | .assign a => a.value.misfit
  | .loop l => l.counter.misfit.or l.body.value.misfit

/-- The first literal that stops the lowering of a program. -/
def Program.misfit (p : Program) : Option String := p.stmts.findSome? Stmt.misfit

/-! ### Lowering as a value -/

/-- Whatever the listing holds, the action appends `lines` to it, unless there is a misfit that
stops it halfway. -/
def Lowers (action : Lowering) (misfit : Option String) (lines : List Line) : Prop :=
  ∀ listing : Array Line,
    match misfit with
    | none => action.run listing = (.ok (), listing ++ lines.toArray)
    | some literal => ∃ begun : List Line,
        action.run listing = (.error (.tooLarge literal), listing ++ begun.toArray)

theorem lowers_emit (line : Line) : Lowers (emit line) none [line] := by
  intro listing
  change (Except.ok (), listing.push line) = _
  simp

theorem lowers_pure : Lowers (pure ()) none [] := by
  intro listing
  change (Except.ok (), listing) = _
  simp

theorem lowers_throw (literal : String) (lines : List Line) :
    Lowers (throw (.tooLarge literal)) (some literal) lines := by
  intro listing
  refine ⟨[], ?_⟩
  change (Except.error (Error.tooLarge literal), listing) = _
  simp

theorem run_bind (first second : Lowering) (listing : Array Line) :
    (first >>= fun _ => second).run listing =
      match first.run listing with
      | (.ok _, listing') => second.run listing'
      | (.error e, listing') => (.error e, listing') := by
  rw [ExceptT.run_bind]
  change (StateT.bind first.run _) listing = _
  rcases hfirst : first.run listing with ⟨e | _, listing'⟩ <;>
    simp only [StateT.bind, hfirst] <;> rfl

/-- One action after the other: the first misfit stops both. -/
theorem Lowers.bind {first second : Lowering} {m m' : Option String} {lines lines' : List Line}
    (h : Lowers first m lines) (h' : Lowers second m' lines') :
    Lowers (first >>= fun _ => second) (m.or m') (lines ++ lines') := by
  intro listing
  have hfirst := h listing
  cases m with
  | some literal =>
    obtain ⟨begun, hfirst⟩ := hfirst
    refine ⟨begun, ?_⟩
    rw [run_bind, hfirst]
  | none =>
    have hsecond := h' (listing ++ lines.toArray)
    cases m' with
    | some literal =>
      obtain ⟨begun, hsecond⟩ := hsecond
      refine ⟨lines ++ begun, ?_⟩
      rw [run_bind, hfirst, ← List.append_toArray, ← Array.append_assoc]
      exact hsecond
    | none =>
      change _ = (_, _)
      rw [run_bind, hfirst, ← List.append_toArray, ← Array.append_assoc]
      exact hsecond

/-- The lines, emitted one by one, and the action behind them. -/
def emitBefore (lines : List Line) (action : Lowering) : Lowering :=
  lines.foldr (fun line action => emit line >>= fun _ => action) action

theorem lowers_emitBefore (lines : List Line) {action : Lowering} {m : Option String}
    {rest : List Line} (h : Lowers action m rest) :
    Lowers (emitBefore lines action) m (lines ++ rest) := by
  induction lines with
  | nil => exact h
  | cons line lines ih => exact (lowers_emit line).bind ih

/-- An action for every member of a list. -/
theorem lowers_forM {α : Type} {action : α → Lowering} {misfit : α → Option String}
    {code : α → List Line} (h : ∀ x, Lowers (action x) (misfit x) (code x)) (xs : List α) :
    Lowers (xs.forM action) (xs.findSome? misfit) (xs.flatMap code) := by
  induction xs with
  | nil => exact lowers_pure
  | cons x xs ih =>
    have hcons := (h x).bind ih
    rw [List.findSome?_cons, List.flatMap_cons]
    cases hx : misfit x <;> rwa [hx] at hcons

/-- A lowering that succeeds met no misfit, and appended all of its lines. -/
theorem Lowers.eq_of_ok {action : Lowering} {misfit : Option String} {lines : List Line}
    (h : Lowers action misfit lines) {before : Array Line} (hok : (action.run before).1 = .ok ()) :
    misfit = none ∧ action.run before = (.ok (), before ++ lines.toArray) := by
  have hrun := h before
  cases misfit with
  | none => exact ⟨rfl, hrun⟩
  | some literal =>
    obtain ⟨begun, hrun⟩ := hrun
    rw [hrun] at hok
    cases hok

/-! ### Nodes -/

theorem Expr.lowers (e : Expr) : Lowers e.lower e.misfit e.code := by
  induction e with
  | num value =>
    rw [Expr.lower, Expr.misfit, Expr.code]
    split
    · exact lowers_throw _ _
    · exact lowers_emitBefore [_] (lowers_emit _)
  | huge digits => exact lowers_throw _ _
  | reg r => exact lowers_emitBefore [_] (lowers_emit _)
  | arith op lhs rhs ihl ihr =>
    have h : Lowers (Expr.arith op lhs rhs).lower (rhs.misfit.or (lhs.misfit.or none))
        (Expr.arith op lhs rhs).code :=
      lowers_emitBefore [_] (ihr.bind (lowers_emitBefore [_, _, _] (ihl.bind
        (lowers_emitBefore [_, _] (lowers_emit _)))))
    rwa [Option.or_none] at h

theorem Assignment.lowers (a : Assignment) : Lowers a.lower a.value.misfit a.code := by
  have h : Lowers a.lower (a.value.misfit.or none) a.code :=
    lowers_emitBefore [_] (a.value.lowers.bind (lowers_emitBefore [_] (lowers_emit _)))
  rwa [Option.or_none] at h

theorem Loop.lowers (l : Loop) :
    Lowers l.lower (l.counter.misfit.or l.body.value.misfit) l.code := by
  have h : Lowers l.lower (l.counter.misfit.or (l.body.value.misfit.or none)) l.code :=
    lowers_emitBefore [_] (l.counter.lowers.bind (lowers_emitBefore [_, _, _, _]
      (l.body.lowers.bind (lowers_emit _))))
  rwa [Option.or_none] at h

theorem Stmt.lowers (s : Stmt) : Lowers s.lower s.misfit s.code := by
  cases s with
  | assign a => exact a.lowers
  | loop l => exact l.lowers

theorem lowers_printRoutine : Lowers lowerPrintRoutine none printCode := by
  have hpush := lowers_forM (fun r => lowers_emit (.instr (.push r))) savedRegisters
  have hpop := lowers_forM (fun r => lowers_emit (.instr (.pop r))) savedRegisters.reverse
  exact lowers_emitBefore [_] (hpush.bind (lowers_emitBefore [_, _, _, _] (hpop.bind
    (lowers_emit _))))

theorem Program.lowers (p : Program) : Lowers p.lower p.misfit p.code := by
  have hreset := lowers_forM (fun r => lowers_emit (.instr (.mov r (.imm 0)))) Register.storage
  have hstmt (s : Stmt) : Lowers (do emit .blank; s.lower; emitInstr (.call printRoutine))
      (s.misfit.or none) s.printed :=
    lowers_emitBefore [.blank] (s.lowers.bind (lowers_emit _))
  simp only [Option.or_none] at hstmt
  have h : Lowers p.lower (p.misfit.or none) p.code :=
    lowers_emitBefore [_, _, _] (hreset.bind ((lowers_forM hstmt p.stmts).bind
      (lowers_emitBefore epilogue (lowers_emitBefore dataSection lowers_printRoutine))))
  rwa [Option.or_none] at h

/-! ### Texts -/

/-- If every literal fits, lowering gives the program's code. -/
theorem Program.run_lower {p : Program} (h : p.misfit = none) :
    p.lower.run #[] = (.ok (), p.code.toArray) := by
  have hlowers := p.lowers #[]
  rw [h] at hlowers
  simpa using hlowers

theorem generate_of_fits {p : Program} (h : p.misfit = none) :
    generate p = .ok (listingText p.code) := by
  rw [generate, Program.run_lower h]

theorem generate_of_misfit {p : Program} {literal : String} (h : p.misfit = some literal) :
    generate p = .error (.tooLarge literal) := by
  have hlowers := p.lowers #[]
  rw [h] at hlowers
  obtain ⟨begun, hrun⟩ := hlowers
  rw [generate, hrun]

/-- A text is produced only if every literal fits, and it is the text of the program's code. -/
theorem generate_eq_ok {p : Program} {text : String} (h : generate p = .ok text) :
    p.misfit = none ∧ p.lower.run #[] = (.ok (), p.code.toArray) ∧
      text = listingText p.code := by
  cases hmisfit : p.misfit with
  | none =>
    rw [generate_of_fits hmisfit] at h
    cases h
    exact ⟨rfl, Program.run_lower hmisfit, rfl⟩
  | some literal =>
    rw [generate_of_misfit hmisfit] at h
    cases h

theorem exists_eq_ok {ε α : Type} {x : Except ε α} (h : x.isOk = true) : ∃ a, x = .ok a := by
  cases x with
  | error e => cases h
  | ok a => exact ⟨a, rfl⟩

/-- A source is compiled by parsing it and lowering the program. -/
theorem compile_eq (source : String) (count : Nat) :
    compile source count = ((parse source count).1 >>= generate, (parse source count).2) := by
  simp only [compile, bind, StateT.bind]
  rcases parse source count with ⟨e | p, n⟩ <;> rfl

theorem compile_eq_ok {source : String} {count : Nat} {text : String}
    (h : (compile source count).1 = .ok text) :
    ∃ p, (parse source count).1 = .ok p ∧ generate p = .ok text := by
  rw [compile_eq] at h
  cases hparse : (parse source count).1 with
  | error e =>
    rw [hparse] at h
    cases h
  | ok p =>
    rw [hparse] at h
    exact ⟨p, rfl, h⟩

end RegArith
