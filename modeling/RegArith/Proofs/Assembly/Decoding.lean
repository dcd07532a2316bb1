import RegArith.Proofs.Assembly.Rendering

/-!
# Reading a program off its assembly

The text of a program's assembly tells what the program is. It is cut into lines; each line is
known by its text; and the lines are read from the front, where every node begins with a comment
and what stands behind that tells which node it is. The comments themselves are of no help, as they
write nested operations without parentheses.

An operand may be a symbol, and a symbol could be written like a number or a register. Directives
and labels could be written like any other line. Lines of generated code are none of these:
`Line.isLegible` says what the text of a line has to keep to for the line to be known by it.

## Main definitions

* `Line.isLegible` — a line that is known by its text

## Main results

* `Instr.text_injective`, `Line.text_injective` — lines by their text
* `Expr.code_append_inj` and its companions — nodes by their code, whatever follows
* `Program.code_injective` — programs by their code
* `generate_injective` — programs by their text
-/

namespace RegArith

/-! ### Instructions -/

theorem toString_injective {v w : Int} (h : toString v = toString w) : v = w := by
  have hminus (n : Nat) : '-' ∉ Nat.toDigits 10 n := fun hmem =>
    absurd (Nat.isDigit_of_mem_toDigits (by decide) (by decide) hmem) (by decide)
  have hlist := congrArg String.toList h
  rw [toList_toString, toList_toString] at hlist
  split at hlist <;> split at hlist
  · have hdigits := toDigits_ten_injective hlist
    omega
  · exact absurd (hlist ▸ List.mem_cons_self) (hminus _)
  · exact absurd (hlist ▸ List.mem_cons_self) (hminus _)
  · have hdigits := toDigits_ten_injective (List.cons.inj hlist).2
    omega

theorem ne_toString {text : String} (h : text.toList.any fun c => c ≠ '-' && !c.isDigit)
    (value : Int) : text ≠ toString value := by
  rintro rfl
  obtain ⟨c, hc, hother⟩ := List.any_eq_true.1 h
  obtain rfl | hdigit := isDigit_of_mem_toString hc
  · exact absurd hother (by decide)
  · simp [hdigit] at hother

/-- The operand is known by its text: a symbol is written neither like a register nor like a
number. -/
def Operand.isLegible : Operand → Bool
  | .reg _ | .imm _ => true
  | .sym name =>
    (Register.ofName? name).isNone && name.toList.any fun c => c ≠ '-' && !c.isDigit

theorem Operand.text_injective {o o' : Operand} (h : o.isLegible) (h' : o'.isLegible)
    (htext : o.text = o'.text) : o = o' := by
  have hreg (r : Register) (value : Int) : r.name ≠ toString value :=
    ne_toString (by cases r <;> decide) value
  have hsymReg {name : String} (hname : (sym name).isLegible) (r : Register) : name ≠ r.name := by
    rintro rfl
    simp [isLegible, Register.ofName?_name] at hname
  have hsymImm {name : String} (hname : (sym name).isLegible) (value : Int) :
      name ≠ toString value := by
    simp only [isLegible, Bool.and_eq_true] at hname
    exact ne_toString hname.2 value
  cases o with
  | reg r =>
    cases o' with
    | reg r' => rw [Register.name_injective htext]
    | imm value => exact absurd htext (hreg r value)
    | sym name => exact absurd htext.symm (hsymReg h' r)
  | imm value =>
    cases o' with
    | reg r => exact absurd htext.symm (hreg r value)
    | imm value' => rw [toString_injective htext]
    | sym name => exact absurd htext.symm (hsymImm h' value)
  | sym name =>
    cases o' with
    | reg r => exact absurd htext (hsymReg h r)
    | imm value => exact absurd htext (hsymImm h value)
    | sym name' => exact congrArg sym htext

/-- The instruction is known by its text. -/
def Instr.isLegible : Instr → Bool
  | .mov _ source => source.isLegible
  | _ => true

theorem Instr.text_injective {i i' : Instr} (h : i.isLegible) (h' : i'.isLegible)
    (htext : i.text = i'.text) : i = i' := by
  have hlist := congrArg String.toList htext
  -- the words in front differ unless the instructions are of one kind
  cases i <;> cases i' <;> simp [Instr.text] at hlist
  case mov.mov =>
    obtain ⟨rfl, hrest⟩ := Register.name_append_inj hlist
    simp only [List.cons.injEq, true_and, String.toList_inj] at hrest
    rw [Operand.text_injective h h' hrest]
  case add.add | sub.sub =>
    obtain ⟨rfl, hrest⟩ := Register.name_append_inj hlist
    simp only [List.cons.injEq, true_and, String.toList_inj] at hrest
    rw [Register.name_injective hrest]
  case mul.mul | div.div | push.push | pop.pop =>
    rw [Register.name_injective (String.toList_inj.1 hlist)]
  case loop.loop => rw [Label.name_injective (String.toList_inj.1 hlist)]
  case call.call => rw [String.toList_inj.1 hlist]
  case syscall.syscall | ret.ret => rfl

/-! ### Lines -/

/-- The kinds of lines. -/
inductive LineKind where
  | instr
  | label
  | comment
  | directive
  | blank

/-- The kind of a line. -/
def Line.kind : Line → LineKind
  | .instr _ => .instr
  | .label _ => .label
  | .comment _ => .comment
  | .directive _ => .directive
  | .blank => .blank

/-- The kind that a line appears to have, judging from its text. -/
def LineKind.ofText (text : List Char) : LineKind :=
  match text.head? with
  | none => .blank
  | some ' ' => .instr
  | some ';' => .comment
  | some _ => if text.getLast? = some ':' then .label else .directive

/-- The line is known by its text: labels and directives begin with a letter, and a directive does
not end like a label. -/
def Line.isLegible : Line → Bool
  | .instr i => i.isLegible
  | .label name => name.toList.head?.any Char.isAlpha
  | .comment _ | .blank => true
  | .directive text => text.toList.head?.any Char.isAlpha && text.toList.getLast? ≠ some ':'

theorem LineKind.ofText_of_isAlpha {text : List Char} (h : text.head?.any Char.isAlpha) :
    ofText text = if text.getLast? = some ':' then .label else .directive := by
  obtain ⟨c, hc, halpha⟩ := (Option.any_eq_true _ _).1 h
  rw [ofText, hc]
  split
  · next h => cases h
  · next h =>
    cases h
    exact absurd halpha (by decide)
  · next h =>
    cases h
    exact absurd halpha (by decide)
  · rfl

theorem Line.ofText_text {l : Line} (h : l.isLegible) : LineKind.ofText l.text.toList = l.kind := by
  cases l with
  | instr i =>
    rw [Line.text, String.toList_append]
    rfl
  | label name =>
    have hhead : (name ++ ":").toList.head?.any Char.isAlpha := by
      rw [Line.isLegible] at h
      rw [String.toList_append, List.head?_append]
      cases hname : name.toList.head? <;> simp_all
    rw [Line.text, LineKind.ofText_of_isAlpha hhead, String.toList_append, List.getLast?_append]
    rfl
  | comment text =>
    rw [Line.text, String.toList_append]
    rfl
  | directive text =>
    simp only [Line.isLegible, Bool.and_eq_true, decide_eq_true_eq] at h
    rw [Line.text, LineKind.ofText_of_isAlpha h.1, if_neg h.2]
    rfl
  | blank => rfl

theorem Line.text_injective {l l' : Line} (h : l.isLegible) (h' : l'.isLegible)
    (htext : l.text = l'.text) : l = l' := by
  have hkind : l.kind = l'.kind := by rw [← ofText_text h, ← ofText_text h', htext]
  have hlist := congrArg String.toList htext
  cases l <;> cases l' <;> cases hkind <;>
    simp only [Line.text, String.toList_append, List.append_cancel_left_eq,
      List.append_cancel_right_eq, String.toList_inj] at hlist
  case instr.instr => rw [Instr.text_injective h h' hlist]
  case label.label | comment.comment | directive.directive => rw [hlist]
  case blank.blank => rfl

/-- Legible lines are known by their texts. -/
theorem eq_of_map_text_eq {code code' : List Line} (h : ∀ l ∈ code, l.isLegible)
    (h' : ∀ l ∈ code', l.isLegible) (htexts : code.map Line.text = code'.map Line.text) :
    code = code' := by
  induction code generalizing code' with
  | nil => exact (List.map_eq_nil_iff.1 htexts.symm).symm
  | cons l code ih =>
    cases code' with
    | nil => cases htexts
    | cons l' code' =>
      rw [List.forall_mem_cons] at h h'
      obtain ⟨htext, htexts⟩ := List.cons.inj htexts
      rw [Line.text_injective h.1 h'.1 htext, ih h.2 h'.2 htexts]

/-! ### Generated code is legible -/

theorem Expr.isLegible_code (e : Expr) : ∀ l ∈ e.code, l.isLegible := by
  induction e with
  | num value => simp [Expr.code, Line.isLegible, Instr.isLegible, Operand.isLegible]
  | huge digits => simp [Expr.code]
  | reg r => simp [Expr.code, Line.isLegible, Instr.isLegible, Operand.isLegible]
  | arith op lhs rhs ihl ihr =>
    simp only [Expr.code, List.forall_mem_cons, List.forall_mem_append]
    refine ⟨rfl, ihr, rfl, rfl, rfl, ihl, rfl, rfl, ?_, by simp⟩
    cases op <;> rfl

theorem Assignment.isLegible_code (a : Assignment) : ∀ l ∈ a.code, l.isLegible := by
  simp only [Assignment.code, List.forall_mem_cons, List.forall_mem_append]
  exact ⟨rfl, a.value.isLegible_code, rfl, rfl, by simp⟩

theorem Loop.isLegible_code (l : Loop) : ∀ line ∈ l.code, line.isLegible := by
  have hlabel : (Line.label l.label.name).isLegible := by
    rw [Line.isLegible, Label.toList_name]
    rfl
  simp only [Loop.code, List.forall_mem_cons, List.forall_mem_append]
  exact ⟨rfl, l.counter.isLegible_code, rfl, rfl, hlabel, rfl, l.body.isLegible_code, rfl, by simp⟩

theorem Stmt.isLegible_printed (s : Stmt) : ∀ l ∈ s.printed, l.isLegible := by
  have hcode : ∀ l ∈ s.code, l.isLegible := by
    cases s with
    | assign a => exact a.isLegible_code
    | loop l => exact l.isLegible_code
  simp only [Stmt.printed, List.forall_mem_cons, List.forall_mem_append]
  exact ⟨rfl, hcode, rfl, by simp⟩

theorem Program.isLegible_code (p : Program) : ∀ l ∈ p.code, l.isLegible := by
  simp only [Program.code, List.forall_mem_append, List.forall_mem_flatMap]
  exact ⟨by decide, fun s _ => s.isLegible_printed, by decide, by decide, by decide⟩

/-! ### Nodes by their code -/

/-- Code begins with a comment. -/
theorem Expr.exists_code_eq {e : Expr} (h : e.misfit = none) :
    ∃ text code, e.code = .comment text :: code := by
  cases e with
  | num value => exact ⟨_, _, rfl⟩
  | huge digits => cases h
  | reg r => exact ⟨_, _, rfl⟩
  | arith op lhs rhs => exact ⟨_, _, rfl⟩

/-- At an operation, the code of the right operand comes behind the comment in front, with a comment
of its own. At a leaf there is an instruction. -/
theorem Expr.code_arith_append_ne {op : Op} {lhs rhs : Expr}
    (h : (Expr.arith op lhs rhs).misfit = none) (text : String) (i : Instr)
    (rest rest' : List Line) :
    .comment text :: .instr i :: rest ≠ (Expr.arith op lhs rhs).code ++ rest' := by
  obtain ⟨hr, -⟩ := Option.or_eq_none_iff.1 h
  obtain ⟨text', others, hcode⟩ := exists_code_eq hr
  simp [code, hcode]

/-- An expression is known by its code, and so is where the code ends. -/
theorem Expr.code_append_inj {e e' : Expr} (h : e.misfit = none) (h' : e'.misfit = none)
    {rest rest' : List Line} (heq : e.code ++ rest = e'.code ++ rest') : e = e' ∧ rest = rest' := by
  induction e generalizing e' rest rest' with
  | num value =>
    cases e' with
    | num value' =>
      simp only [code, List.cons_append, List.nil_append, List.cons.injEq, Line.instr.injEq,
        Instr.mov.injEq, Operand.imm.injEq] at heq
      exact ⟨by rw [heq.2.1.2], heq.2.2⟩
    | huge digits => cases h'
    | reg r => simp [code] at heq
    | arith op lhs rhs => exact absurd heq (code_arith_append_ne h' _ _ _ _)
  | huge digits => cases h
  | reg r =>
    cases e' with
    | num value => simp [code] at heq
    | huge digits => cases h'
    | reg r' =>
      simp only [code, List.cons_append, List.nil_append, List.cons.injEq, Line.instr.injEq,
        Instr.mov.injEq, Operand.reg.injEq] at heq
      exact ⟨by rw [heq.2.1.2], heq.2.2⟩
    | arith op lhs rhs => exact absurd heq (code_arith_append_ne h' _ _ _ _)
  | arith op lhs rhs ihl ihr =>
    cases e' with
    | num value | reg r => exact absurd heq.symm (code_arith_append_ne h _ _ _ _)
    | huge digits => cases h'
    | arith op' lhs' rhs' =>
      obtain ⟨hr, hl⟩ := Option.or_eq_none_iff.1 h
      obtain ⟨hr', hl'⟩ := Option.or_eq_none_iff.1 h'
      simp only [code, List.cons_append, List.append_assoc, List.cons.injEq] at heq
      obtain ⟨rfl, hpush⟩ := ihr hr hr' heq.2
      simp only [List.cons.injEq] at hpush
      obtain ⟨rfl, happly⟩ := ihl hl hl' hpush.2.2.2
      simp only [List.nil_append, List.cons.injEq, Line.instr.injEq] at happly
      have hop : op = op' := by
        have hinstr := happly.2.2.1
        cases op <;> cases op' <;> simp [Op.instr] at hinstr ⊢
      exact ⟨by rw [hop], happly.2.2.2⟩

theorem Assignment.code_append_inj {a a' : Assignment} (h : a.value.misfit = none)
    (h' : a'.value.misfit = none) {rest rest' : List Line}
    (heq : a.code ++ rest = a'.code ++ rest') : a = a' ∧ rest = rest' := by
  obtain ⟨target, value⟩ := a
  obtain ⟨target', value'⟩ := a'
  simp only [code, List.cons_append, List.append_assoc, List.cons.injEq] at heq
  obtain ⟨rfl, hstore⟩ := Expr.code_append_inj h h' heq.2
  simp only [List.nil_append, List.cons.injEq, Line.instr.injEq, Instr.mov.injEq] at hstore
  obtain ⟨-, ⟨rfl, -⟩, rfl⟩ := hstore
  exact ⟨rfl, rfl⟩

theorem Loop.code_append_inj {l l' : Loop} (hcounter : l.counter.misfit = none)
    (hbody : l.body.value.misfit = none) (hcounter' : l'.counter.misfit = none)
    (hbody' : l'.body.value.misfit = none) {rest rest' : List Line}
    (heq : l.code ++ rest = l'.code ++ rest') : l = l' ∧ rest = rest' := by
  obtain ⟨label, counter, body⟩ := l
  obtain ⟨label', counter', body'⟩ := l'
  simp only [code, List.cons_append, List.append_assoc, List.cons.injEq] at heq
  obtain ⟨rfl, hinner⟩ := Expr.code_append_inj hcounter hcounter' heq.2
  simp only [List.cons.injEq] at hinner
  obtain ⟨rfl, hjump⟩ := Assignment.code_append_inj hbody hbody' hinner.2.2.2.2
  simp only [List.nil_append, List.cons.injEq, Line.instr.injEq, Instr.loop.injEq] at hjump
  obtain ⟨rfl, rfl⟩ := hjump
  exact ⟨rfl, rfl⟩

/-- The comment in front of an assignment begins with a register, and the one in front of a loop
does not. -/
theorem Assignment.code_append_ne (a : Assignment) (l : Loop) (rest rest' : List Line) :
    a.code ++ rest ≠ l.code ++ rest' := by
  intro heq
  simp only [Assignment.code, Loop.code, List.cons_append, List.cons.injEq,
    Line.comment.injEq] at heq
  have hhead := congrArg (fun text => text.toList.head?) heq.1
  obtain ⟨target, value⟩ := a
  cases target <;> simp [Assignment.written, Loop.written, Register.name] at hhead

theorem Stmt.code_append_inj {s s' : Stmt} (h : s.misfit = none) (h' : s'.misfit = none)
    {rest rest' : List Line} (heq : s.code ++ rest = s'.code ++ rest') : s = s' ∧ rest = rest' := by
  cases s with
  | assign a =>
    cases s' with
    | assign a' =>
      obtain ⟨rfl, hrest⟩ := Assignment.code_append_inj h h' heq
      exact ⟨rfl, hrest⟩
    | loop l => exact absurd heq (a.code_append_ne l rest rest')
  | loop l =>
    cases s' with
    | assign a => exact absurd heq.symm (a.code_append_ne l rest' rest)
    | loop l' =>
      obtain ⟨hcounter, hbody⟩ := Option.or_eq_none_iff.1 h
      obtain ⟨hcounter', hbody'⟩ := Option.or_eq_none_iff.1 h'
      obtain ⟨rfl, hrest⟩ := Loop.code_append_inj hcounter hbody hcounter' hbody' heq
      exact ⟨rfl, hrest⟩

/-- Statements begin with a comment under a blank line, and the end of a program does not. -/
theorem Stmt.printed_append_ne (s : Stmt) (rest rest' : List Line) :
    epilogue ++ rest ≠ s.printed ++ rest' := by
  cases s <;> simp [epilogue, Stmt.printed, Stmt.code, Assignment.code, Loop.code]

theorem flatMap_printed_inj {ss ss' : List Stmt} (h : ∀ s ∈ ss, s.misfit = none)
    (h' : ∀ s ∈ ss', s.misfit = none) {rest : List Line}
    (heq : ss.flatMap Stmt.printed ++ (epilogue ++ rest) =
      ss'.flatMap Stmt.printed ++ (epilogue ++ rest)) : ss = ss' := by
  induction ss generalizing ss' with
  | nil =>
    cases ss' with
    | nil => rfl
    | cons s' ss' =>
      rw [List.flatMap_nil, List.nil_append, List.flatMap_cons, List.append_assoc] at heq
      exact absurd heq (s'.printed_append_ne _ _)
  | cons s ss ih =>
    cases ss' with
    | nil =>
      rw [List.flatMap_nil, List.nil_append, List.flatMap_cons, List.append_assoc] at heq
      exact absurd heq.symm (s.printed_append_ne _ _)
    | cons s' ss' =>
      rw [List.forall_mem_cons] at h h'
      simp only [List.flatMap_cons, Stmt.printed, List.cons_append, List.append_assoc,
        List.cons.injEq, true_and] at heq
      obtain ⟨rfl, hcall⟩ := Stmt.code_append_inj h.1 h'.1 heq
      rw [ih h.2 h'.2 (by simpa using hcall)]

/-- **A program is known by its code.** -/
theorem Program.code_injective {p q : Program} (hp : p.misfit = none) (hq : q.misfit = none)
    (heq : p.code = q.code) : p = q := by
  have hstmts : p.stmts = q.stmts := flatMap_printed_inj (List.findSome?_eq_none_iff.1 hp)
    (List.findSome?_eq_none_iff.1 hq) (List.append_cancel_left heq)
  exact congrArg Program.mk hstmts

/-- **The assembly text determines the program.** Two programs with the same text are the same,
although the comments in the text write different expressions alike. -/
theorem generate_injective (p q : Program) (text : String) (hp : generate p = .ok text)
    (hq : generate q = .ok text) : p = q := by
  obtain ⟨hfits, -, rfl⟩ := generate_eq_ok hp
  obtain ⟨hfits', -, htext⟩ := generate_eq_ok hq
  have htexts : p.code.map Line.text = q.code.map Line.text := by
    rw [← Program.textLines_code hfits, ← Program.textLines_code hfits', htext]
  exact Program.code_injective hfits hfits'
    (eq_of_map_text_eq p.isLegible_code q.isLegible_code htexts)

/-- The difference `1 - (2 - 3)` in a loop over `rcx`, which no source gives rise to. No other
program has its text, and in particular not the one with `(1 - 2) - 3`, which is written in the same
way. -/
theorem generate_injective_nested :
    ∃ text, ∀ p, generate p = .ok text ↔
      p = ⟨[.loop ⟨⟨7⟩, .reg .rcx,
        ⟨.rcx, .arith .sub (.num 1) (.arith .sub (.num 2) (.num 3))⟩⟩]⟩ := by
  have htext := generate_of_fits (p := ⟨[.loop ⟨⟨7⟩, .reg .rcx,
    ⟨.rcx, .arith .sub (.num 1) (.arith .sub (.num 2) (.num 3))⟩⟩]⟩) (by decide)
  refine ⟨_, fun p => ⟨fun hp => generate_injective p _ _ hp htext, ?_⟩⟩
  rintro rfl
  exact htext

end RegArith
