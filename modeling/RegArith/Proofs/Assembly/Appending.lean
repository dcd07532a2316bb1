import RegArith.Proofs.Assembly.Range

/-!
# Appending to a listing

A phrase is a program or a part of one. Lowering it only appends to the listing, and what it appends
is the same whatever the listing holds, also if a literal stops the lowering halfway. So phrases can
be lowered one after the other into one listing, and none of them sees what the others left there.

A phrase that is stopped leaves a part of its code behind. To say which, its literals are mended:
each one out of range is replaced by zero. The mended phrase is lowered to its end, and the
instructions and labels that the stopped one left are the first of those. Comments are not compared,
since they show the literals.

## Main definitions

* `Phrase` — a program or a part of one
* `lowerEach` — phrases one after the other, whether or not one of them is stopped
* `Appends` — what an action appends to any listing, and its result
* `Expr.mended` and its companions — with zero for each literal out of range
* `codeLines` — the instructions and labels of a listing
* `CutOf` — an action that does what another one does, up to where it is stopped

## Main results

* `Phrase.cutOf_mended` — every phrase, as a cut of the mended one
* `lowerEach_eq` — the listing after any phrases
* `Phrase.lower_appends` — what lowering a phrase does to a listing
-/

namespace RegArith

/-! ### Phrases -/

/-- A program or a part of one: what can be lowered on its own. -/
inductive Phrase where
  | expr (e : Expr)
  | assignment (a : Assignment)
  | loop (l : Loop)
  | stmt (s : Stmt)
  | program (p : Program)

namespace Phrase

/-- Lowering a phrase. -/
def lower : Phrase → Lowering
  | expr e => e.lower
  | assignment a => a.lower
  | loop l => l.lower
  | stmt s => s.lower
  | program p => p.lower

/-- How lowering the phrase into an empty listing ends. -/
def result (phrase : Phrase) : Except Error Unit := (phrase.lower.run #[]).1

/-- What lowering the phrase leaves in a listing that was empty. -/
def lines (phrase : Phrase) : List Line := (phrase.lower.run #[]).2.toList

end Phrase

/-- Lowers phrases one after the other into a listing. Phrases that are stopped do not keep the
following ones from being lowered. -/
def lowerEach : List Phrase → Array Line → List (Except Error Unit) × Array Line
  | [], listing => ([], listing)
  | phrase :: phrases, listing =>
    let (result, listing) := phrase.lower.run listing
    let (results, listing) := lowerEach phrases listing
    (result :: results, listing)

/-! ### Literals that are mended -/

/-- The expression with zero for every literal out of range. -/
def Expr.mended : Expr → Expr
  | .arith op lhs rhs => .arith op lhs.mended rhs.mended
  | e => if e.outOfRange then .num 0 else e

/-- The assignment with zero for every literal out of range. -/
def Assignment.mended (a : Assignment) : Assignment := { a with value := a.value.mended }

/-- The loop with zero for every literal out of range, in the counter and in the body. -/
def Loop.mended (l : Loop) : Loop :=
  { l with counter := l.counter.mended, body := l.body.mended }

/-- The statement with zero for every literal out of range. -/
def Stmt.mended : Stmt → Stmt
  | .assign a => .assign a.mended
  | .loop l => .loop l.mended

/-- The program with zero for every literal out of range. -/
def Program.mended (p : Program) : Program := ⟨p.stmts.map Stmt.mended⟩

/-- The phrase with zero for every literal out of range. -/
def Phrase.mended : Phrase → Phrase
  | expr e => .expr e.mended
  | assignment a => .assignment a.mended
  | loop l => .loop l.mended
  | stmt s => .stmt s.mended
  | program p => .program p.mended

/-! ### What an action appends -/

/-- Whatever the listing holds, the action appends `lines` to it and ends with `result`. -/
def Appends (action : Lowering) (result : Except Error Unit) (lines : List Line) : Prop :=
  ∀ listing : Array Line, action.run listing = (result, listing ++ lines.toArray)

theorem appends_throw (e : Error) : Appends (throw e) (.error e) [] := by
  intro listing
  change (Except.error e, listing) = _
  simp

/-- An action that is stopped keeps the next one from being run. -/
theorem Appends.bind_error {first : Lowering} {e : Error} {lines : List Line}
    (h : Appends first (.error e) lines) (second : Lowering) :
    Appends (first >>= fun _ => second) (.error e) lines := by
  intro listing
  rw [run_bind, h]

theorem Appends.bind_ok {first second : Lowering} {result : Except Error Unit}
    {lines lines' : List Line} (h : Appends first (.ok ()) lines)
    (h' : Appends second result lines') :
    Appends (first >>= fun _ => second) result (lines ++ lines') := by
  intro listing
  rw [run_bind, h, ← List.append_toArray, ← Array.append_assoc]
  exact h' _

/-! ### Cuts -/

/-- The line holds an instruction or a label. -/
def Line.isCode : Line → Bool
  | .instr _ | .label _ => true
  | .comment _ | .directive _ | .blank => false

/-- The instructions and labels among the lines, without comments, directives and blank lines. -/
def codeLines (lines : List Line) : List Line := lines.filter Line.isCode

theorem codeLines_append (lines lines' : List Line) :
    codeLines (lines ++ lines') = codeLines lines ++ codeLines lines' := List.filter_append ..

/-- The action appends the instructions and labels that `whole` appends, up to where it is stopped.
Nothing stops `whole`. -/
def CutOf (action whole : Lowering) : Prop :=
  ∃ result lines lines', Appends action result lines ∧ Appends whole (.ok ()) lines' ∧
    codeLines lines <+: codeLines lines' ∧ (result = .ok () → codeLines lines = codeLines lines')

/-- An action that nothing stops is a cut of itself. -/
theorem Lowers.cutOf_self {action : Lowering} {lines : List Line} (h : Lowers action none lines) :
    CutOf action action := ⟨.ok (), lines, lines, h, h, List.prefix_rfl, fun _ => rfl⟩

theorem cutOf_comment (text text' : String) :
    CutOf (emit (.comment text)) (emit (.comment text')) :=
  ⟨.ok (), [.comment text], [.comment text'], lowers_emit _, lowers_emit _, List.prefix_rfl,
    fun _ => rfl⟩

/-- An action that is stopped at once is a cut of any that nothing stops. -/
theorem cutOf_throw {whole : Lowering} {lines : List Line} (e : Error)
    (h : Lowers whole none lines) : CutOf (throw e) whole := by
  refine ⟨.error e, [], lines, appends_throw e, h, List.nil_prefix, ?_⟩
  intro hok
  cases hok

/-- One action after the other. If the first is stopped, what it has appended is a cut of all that
both would append. -/
theorem CutOf.bind {first second whole whole' : Lowering} (h : CutOf first whole)
    (h' : CutOf second whole') :
    CutOf (first >>= fun _ => second) (whole >>= fun _ => whole') := by
  obtain ⟨result, lines, wholeLines, hfirst, hwhole, hprefix, hall⟩ := h
  obtain ⟨result', lines', wholeLines', hsecond, hwhole', hprefix', hall'⟩ := h'
  cases result with
  | error e =>
    refine ⟨.error e, lines, wholeLines ++ wholeLines', hfirst.bind_error second,
      hwhole.bind_ok hwhole', ?_, nofun⟩
    rw [codeLines_append]
    exact hprefix.trans (List.prefix_append _ _)
  | ok u =>
    refine ⟨result', lines ++ lines', wholeLines ++ wholeLines', hfirst.bind_ok hsecond,
      hwhole.bind_ok hwhole', ?_, ?_⟩
    · rw [codeLines_append, codeLines_append, hall rfl]
      exact (List.prefix_append_right_inj _).2 hprefix'
    · intro hok
      rw [codeLines_append, codeLines_append, hall rfl, hall' hok]

theorem cutOf_emitBefore (lines : List Line) {action whole : Lowering} (h : CutOf action whole) :
    CutOf (emitBefore lines action) (emitBefore lines whole) := by
  induction lines with
  | nil => exact h
  | cons line lines ih => exact (lowers_emit line).cutOf_self.bind ih

theorem cutOf_comment_bind {text text' : String} {second whole : Lowering}
    (h : CutOf second whole) :
    CutOf (emit (.comment text) >>= fun _ => second)
      (emit (.comment text') >>= fun _ => whole) :=
  (cutOf_comment text text').bind h

/-- An action for every member of a list, as a cut of those for the members that `f` gives. -/
theorem cutOf_forM {α : Type} {action : α → Lowering} {f : α → α}
    (h : ∀ x, CutOf (action x) (action (f x))) (xs : List α) :
    CutOf (xs.forM action) ((xs.map f).forM action) := by
  induction xs with
  | nil => exact lowers_pure.cutOf_self
  | cons x xs ih => exact (h x).bind ih

/-! ### Phrases as cuts -/

theorem Expr.cutOf_mended (e : Expr) : CutOf e.lower e.mended.lower := by
  have hzero : Lowers (Expr.num 0).lower none (Expr.num 0).code := (Expr.num 0).lowers
  induction e with
  | num value =>
    have hmended : (Expr.num value).mended =
        if (Expr.num value).outOfRange then .num 0 else .num value := rfl
    by_cases h : (Expr.num value).outOfRange
    · rw [hmended, if_pos h, Expr.lower, if_pos (outOfRange_num.1 h)]
      exact cutOf_throw _ hzero
    · have hfits : (Expr.num value).misfit = none := if_neg fun hgt => h (outOfRange_num.2 hgt)
      have hlowers := (Expr.num value).lowers
      rw [hfits] at hlowers
      rw [hmended, if_neg h]
      exact hlowers.cutOf_self
  | huge digits => exact cutOf_throw _ hzero
  | reg r => exact (Expr.reg r).lowers.cutOf_self
  | arith op lhs rhs ihl ihr =>
    exact cutOf_emitBefore [_] (ihr.bind (cutOf_emitBefore [_, _, _] (ihl.bind
      (lowers_emitBefore [_, _] (lowers_emit _)).cutOf_self)))

theorem Assignment.cutOf_mended (a : Assignment) : CutOf a.lower a.mended.lower :=
  cutOf_comment_bind (a.value.cutOf_mended.bind (cutOf_comment_bind (lowers_emit _).cutOf_self))

theorem Loop.cutOf_mended (l : Loop) : CutOf l.lower l.mended.lower :=
  cutOf_comment_bind (l.counter.cutOf_mended.bind (cutOf_comment_bind (cutOf_emitBefore [_, _]
    (cutOf_comment_bind (l.body.cutOf_mended.bind (lowers_emit _).cutOf_self)))))

theorem Stmt.cutOf_mended (s : Stmt) : CutOf s.lower s.mended.lower := by
  cases s with
  | assign a => exact a.cutOf_mended
  | loop l => exact l.cutOf_mended

theorem Program.cutOf_mended (p : Program) : CutOf p.lower p.mended.lower := by
  have hreset := lowers_forM (fun r => lowers_emit (.instr (.mov r (.imm 0)))) Register.storage
  have hstmt (s : Stmt) : CutOf (do emit .blank; s.lower; emitInstr (.call printRoutine))
      (do emit .blank; s.mended.lower; emitInstr (.call printRoutine)) :=
    cutOf_emitBefore [_] (s.cutOf_mended.bind (lowers_emit _).cutOf_self)
  exact cutOf_emitBefore [_, _, _] (hreset.cutOf_self.bind ((cutOf_forM hstmt p.stmts).bind
    (cutOf_emitBefore epilogue (cutOf_emitBefore dataSection lowers_printRoutine.cutOf_self))))

/-- **Every phrase is a cut of the mended one.** -/
theorem Phrase.cutOf_mended (phrase : Phrase) : CutOf phrase.lower phrase.mended.lower := by
  cases phrase with
  | expr e => exact e.cutOf_mended
  | assignment a => exact a.cutOf_mended
  | loop l => exact l.cutOf_mended
  | stmt s => exact s.cutOf_mended
  | program p => exact p.cutOf_mended

/-! ### Listings of phrases -/

theorem Appends.run_empty {action : Lowering} {result : Except Error Unit} {lines : List Line}
    (h : Appends action result lines) : action.run #[] = (result, lines.toArray) := by
  simpa using h #[]

/-- What a phrase does to an empty listing is what it does to any. -/
theorem Phrase.appends (phrase : Phrase) : Appends phrase.lower phrase.result phrase.lines := by
  obtain ⟨result, lines, -, happends, -⟩ := phrase.cutOf_mended
  rw [Phrase.result, Phrase.lines, happends.run_empty]
  exact happends

/-- **The listing after any phrases** holds what each of them would append to an empty one. -/
theorem lowerEach_eq (phrases : List Phrase) (listing : Array Line) :
    lowerEach phrases listing =
      (phrases.map Phrase.result, listing ++ (phrases.flatMap Phrase.lines).toArray) := by
  induction phrases generalizing listing with
  | nil => simp [lowerEach]
  | cons phrase phrases ih =>
    simp only [lowerEach, phrase.appends listing, ih, List.map_cons, List.flatMap_cons]
    rw [← List.append_toArray, ← Array.append_assoc]

/-- A mended phrase is lowered to its end, and the phrase itself leaves the first part of its
code. -/
theorem Phrase.isPrefix_mended (phrase : Phrase) :
    phrase.mended.result = .ok () ∧ codeLines phrase.lines <+: codeLines phrase.mended.lines := by
  obtain ⟨result, lines, lines', happends, hwhole, hprefix, -⟩ := phrase.cutOf_mended
  rw [Phrase.result, Phrase.lines, Phrase.lines, happends.run_empty, hwhole.run_empty]
  exact ⟨rfl, hprefix⟩

/-- **What lowering a phrase does to a listing.** All that the listing holds stays, and the phrase
appends to it the lines and has the result that it has with an empty listing, also if it is stopped.
So after any phrases, stopped ones among them, the listing holds what each of them appends on its
own. The instructions and labels of a phrase that is stopped are the first of those that it has with
zero for every literal out of range. -/
theorem Phrase.lower_appends (phrase : Phrase) :
    (∀ listing : Array Line,
      phrase.lower.run listing = (phrase.result, listing ++ phrase.lines.toArray)) ∧
    (∀ (phrases : List Phrase) (listing : Array Line), lowerEach phrases listing =
      (phrases.map result, listing ++ (phrases.flatMap lines).toArray)) ∧
    phrase.mended.result = .ok () ∧ codeLines phrase.lines <+: codeLines phrase.mended.lines :=
  ⟨phrase.appends, lowerEach_eq, phrase.isPrefix_mended⟩

/-- The left operand in the body of a loop is out of range. What is left of the loop ends where the
right operand is on the stack, and an assignment that is lowered next comes after it. -/
theorem Phrase.lower_appends_stopped_loop :
    ∃ phrase : Phrase, phrase = .loop ⟨⟨0⟩, .num 2,
        ⟨.r10, .arith .sub (.huge "-340282366920938463463374607431768211456") (.reg .r11)⟩⟩ ∧
      phrase.result = .error (.tooLarge "-340282366920938463463374607431768211456") ∧
      codeLines phrase.lines = [.instr (.mov .rax (.imm 2)), .instr (.mov .rcx (.reg .rax)),
        .label "loop_0", .instr (.mov .rax (.reg .r11)), .instr (.push .rax)] ∧
      codeLines phrase.lines <+: codeLines phrase.mended.lines ∧
      lowerEach [phrase, .assignment ⟨.r12, .num 7⟩] #[.blank] =
        ([phrase.result, .ok ()], #[.blank] ++ (phrase.lines ++
          (Assignment.mk .r12 (.num 7)).code).toArray) := by
  refine ⟨_, rfl, rfl, by decide, ?_, ?_⟩
  · exact (Phrase.lower_appends _).2.2.2
  · exact (Phrase.lower_appends (.expr (.num 0))).2.1 _ _

end RegArith
