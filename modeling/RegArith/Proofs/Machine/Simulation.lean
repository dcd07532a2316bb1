import Mathlib.Control.Monad.Basic
import RegArith.Proofs.Machine.Expression

/-!
# Compiled programs behave as interpreted

The run of a compiled program from `main` has the behaviour that the interpreter gives its tree,
whatever the registers and the stack hold at the start and whatever `printf` leaves behind. The one
register whose first content matters is `rdx`, and the interpreter takes it as an argument.

Loops are by induction on the rounds that are left: `rcx` holds their number modulo `2 ^ 64`, which
is how a counter of zero comes to stand for `2 ^ 64` rounds. Statements are by induction on the
list, with the values printed so far as the index of the next leftover.

## Main results

* `Assignment.follows_times`, `Loop.follows` — the code of a loop
* `Machine.reaches_print` — the print routine
* `ends_stmts` — the code of a list of statements
* `run_compiled` — the whole program
-/

namespace RegArith

open Machine

variable {listing : List Line} {world : World}

/-! ### Loops -/

namespace Machine

variable {n : Nat} {regs : Registers} {d : Residue} {stack : List Slot} {output : List Word}
  {l : Label}

/-- The last round: the loop instruction goes on behind the loop. -/
theorem reaches_loop_last (h : listing[n]? = some (.instr (.loop l)))
    (hrcx : regs .rcx = BitVec.ofNat 64 1) :
    Reaches listing world ⟨n, regs, d, stack, output⟩
      ⟨n + 1, Function.update regs .rcx 0, d, stack, output⟩ := by
  refine .single ?_
  rw [step_instr h]
  simp [exec, State.write, hrcx]

/-- Any other round: the loop instruction jumps back. -/
theorem reaches_loop_again {m rounds : Nat} (h : listing[n]? = some (.instr (.loop l)))
    (hl : lineOf? listing l.name = some m) (hrcx : regs .rcx = BitVec.ofNat 64 (rounds + 1))
    (hpos : 0 < rounds) (hlt : rounds < 2 ^ 64) :
    Reaches listing world ⟨n, regs, d, stack, output⟩
      ⟨m, Function.update regs .rcx (BitVec.ofNat 64 rounds), d, stack, output⟩ := by
  have hsub : regs .rcx - 1 = BitVec.ofNat 64 rounds := by
    rw [hrcx, BitVec.ofNat_add]
    exact BitVec.add_sub_cancel _ _
  have hne : BitVec.ofNat 64 rounds ≠ 0 := by
    intro hzero
    have hmod := congrArg BitVec.toNat hzero
    rw [BitVec.toNat_ofNat, Nat.mod_eq_of_lt hlt] at hmod
    exact absurd hmod (Nat.ne_of_gt hpos)
  refine .single ?_
  rw [step_instr h]
  simp only [exec, State.write, Function.update_self, hsub, if_neg hne, goto, hl]

end Machine

/-- The rounds of a loop, from its label on. -/
theorem Assignment.follows_times {a : Assignment} (hfits : a.value.misfit = none)
    (ha : a.OnStorage) {l : Label} {text : String} {n : Nat}
    (hcode : CodeAt listing n (.label l.name :: .comment text :: (a.code ++ [.instr (.loop l)])))
    (hl : lineOf? listing l.name = some n) {rounds : Nat} (hpos : 0 < rounds)
    (hle : rounds ≤ 2 ^ 64) {env : Env} {regs : Registers} (hregs : env.Stored regs)
    (hrcx : regs .rcx = BitVec.ofNat 64 rounds) (d : Residue) (stack : List Slot)
    (output : List Word) :
    Follows listing world ⟨n, regs, d, stack, output⟩ (a.times rounds env) fun env' t =>
      ∃ regs' d', t = ⟨n + a.code.length + 3, regs', d', stack, output⟩ ∧
        env'.Stored regs' ∧ regs' .rax = env'.value := by
  obtain ⟨hlabel, hrest⟩ := codeAt_cons.1 hcode
  obtain ⟨hcomment, hrest⟩ := codeAt_cons.1 hrest
  obtain ⟨hbody, hrest⟩ := codeAt_append.1 hrest
  obtain ⟨hloop, -⟩ := codeAt_cons.1 hrest
  induction rounds generalizing env regs d with
  | zero => cases hpos
  | succ rounds ih =>
    rw [Assignment.times]
    refine ((reaches_idle hlabel rfl).trans (reaches_idle hcomment rfl)).follows rfl rfl
      ((Assignment.follows hfits ha hbody hregs d stack output).bind ?_)
    rintro env' _ ⟨regs', d', rfl, hregs', hrax, hrcx'⟩
    rw [hrcx] at hrcx'
    -- the storage and `rax` are kept when `rcx` is written
    have hkeep (w : Word) : env'.Stored (Function.update regs' .rcx w) ∧
        Function.update regs' .rcx w .rax = env'.value := by
      refine ⟨fun r hr => ?_, hrax⟩
      rw [Function.update_of_ne (Register.ne_of_mem_storage hr).2.2.1, hregs' r hr]
    rcases Nat.eq_zero_or_pos rounds with rfl | hpos'
    · refine .pure (reaches_loop_last hloop hrcx') rfl rfl ⟨_, d', ?_, hkeep 0⟩
      rw [show n + 1 + 1 + a.code.length + 1 = n + a.code.length + 3 by omega]
    · refine (reaches_loop_again hloop hl hrcx' hpos' (by omega)).follows rfl rfl ?_
      exact ih hpos' (by omega) (hkeep _).1 (Function.update_self _ _ _) d'

/-- The code of a loop. -/
theorem Loop.follows {l : Loop} (hfits : (Stmt.loop l).misfit = none)
    (hstorage : (Stmt.loop l).OnStorage) {n : Nat} (hcode : CodeAt listing n l.code)
    (hnodup : (labelNames listing).Nodup) {env : Env} {regs : Registers}
    (hregs : env.Stored regs) (d : Residue) (stack : List Slot) (output : List Word) :
    Follows listing world ⟨n, regs, d, stack, output⟩ (l.exec env) fun env' t =>
      ∃ regs' d', t = ⟨n + l.code.length, regs', d', stack, output⟩ ∧
        env'.Stored regs' ∧ regs' .rax = env'.value := by
  obtain ⟨hfitk, hfitb⟩ := Option.or_eq_none_iff.1 hfits
  obtain ⟨hk, hb⟩ := hstorage
  obtain ⟨hevaluating, hcode⟩ := codeAt_cons.1 hcode
  obtain ⟨hcounter, hcode⟩ := codeAt_append.1 hcode
  obtain ⟨hstoring, hcode⟩ := codeAt_cons.1 hcode
  obtain ⟨hmov, hcode⟩ := codeAt_cons.1 hcode
  have hl := lineOf?_eq_of_nodup hnodup (codeAt_cons.1 hcode).1
  rw [Loop.exec, ← hk.eval_eq hregs]
  refine (reaches_idle hevaluating rfl).follows rfl rfl ((l.counter.follows hfitk hk.ne_scratch
    hcounter regs d stack output).bind ?_)
  rintro k _ ⟨b, d₁, rfl⟩
  refine ((reaches_idle hstoring rfl).trans (reaches_mov hmov)).follows rfl rfl ?_
  have hregs' : Env.Stored ⟨k, env.store⟩ (Function.update (regs.scratch b k) .rcx k) := by
    intro r hr
    obtain ⟨hrax, hrbx, hrcx, -⟩ := Register.ne_of_mem_storage hr
    rw [Function.update_of_ne hrcx, Registers.scratch_of_ne _ _ _ hrax hrbx, hregs r hr]
  refine (Assignment.follows_times hfitb hb hcode hl k.rounds_pos k.rounds_le hregs'
    ((Function.update_self _ _ _).trans k.ofNat_rounds.symm) d₁ stack output).mono ?_
  rintro env' _ ⟨regs', d', rfl, hregs', hrax⟩
  refine ⟨regs', d', ?_, hregs', hrax⟩
  rw [Loop.code]
  simp only [List.length_cons, List.length_append, List.length_nil, State.mk.injEq, and_true]
  omega

/-! ### Printing -/

namespace Machine

variable {n : Nat} {regs : Registers} {d : Residue} {stack : List Slot} {output : List Word}

theorem reaches_pushes {rs : List Register}
    (h : CodeAt listing n (rs.map fun r => .instr (.push r))) :
    Reaches listing world ⟨n, regs, d, stack, output⟩
      ⟨n + rs.length, regs, d, rs.reverse.map (fun r => .data (regs r)) ++ stack, output⟩ := by
  induction rs generalizing n stack with
  | nil => exact .refl _
  | cons r rs ih =>
    obtain ⟨hpush, hrest⟩ := codeAt_cons.1 h
    rw [List.reverse_cons, List.map_append, List.append_assoc, List.length_cons,
      Nat.add_comm rs.length, ← Nat.add_assoc]
    exact (reaches_push hpush).trans (ih hrest)

theorem reaches_pops {rs : List Register} {saved : Registers}
    (h : CodeAt listing n (rs.map fun r => .instr (.pop r))) :
    Reaches listing world ⟨n, regs, d, rs.map (fun r => .data (saved r)) ++ stack, output⟩
      ⟨n + rs.length, fun r => if r ∈ rs then saved r else regs r, d, stack, output⟩ := by
  induction rs generalizing n regs with
  | nil => exact .refl _
  | cons r rs ih =>
    obtain ⟨hpop, hrest⟩ := codeAt_cons.1 h
    have hregs : (fun q => if q ∈ rs then saved q else Function.update regs r (saved r) q) =
        fun q => if q ∈ r :: rs then saved q else regs q := by
      funext q
      by_cases hq : q = r
      · subst hq
        simp
      · simp [hq]
    rw [← hregs, List.length_cons, Nat.add_comm rs.length, ← Nat.add_assoc]
    exact (reaches_pop hpop).trans (ih hrest)

theorem reaches_call {m : Nat} {target : String} (h : listing[n]? = some (.instr (.call target)))
    (hne : target ≠ "printf") (hm : lineOf? listing target = some m) :
    Reaches listing world ⟨n, regs, d, stack, output⟩
      ⟨m, regs, d, .back (n + 1) :: stack, output⟩ := by
  refine .single ?_
  rw [step_instr h]
  simp only [exec, if_neg hne, goto, hm]

theorem reaches_ret {m : Nat} (h : listing[n]? = some (.instr .ret)) :
    Reaches listing world ⟨n, regs, d, .back m :: stack, output⟩ ⟨m, regs, d, stack, output⟩ :=
  .single (by rw [step_instr h]; rfl)

theorem reaches_printf (h : listing[n]? = some (.instr (.call "printf")))
    (hrdi : regs .rdi = world.address "format") :
    Reaches listing world ⟨n, regs, d, stack, output⟩
      ⟨n + 1, (world.left output.length).spoil regs,
        { d with rdx := (world.left output.length).rdx }, stack, output ++ [regs .rsi]⟩ := by
  refine .single ?_
  rw [step_instr h]
  simp only [exec, callPrintf, ↓reduceIte, if_pos hrdi]

/-- **The print routine** prints `rax` and comes back. The registers it saved and the stack are as
before, and `rdx` is what `printf` left. -/
theorem reaches_print {m : Nat} (hcode : CodeAt listing m printCode)
    (hm : lineOf? listing printRoutine = some m)
    (hcall : listing[n]? = some (.instr (.call printRoutine))) :
    ∃ regs', Reaches listing world ⟨n, regs, d, stack, output⟩
        ⟨n + 1, regs', { d with rdx := (world.left output.length).rdx }, stack,
          output ++ [regs .rax]⟩ ∧
      ∀ r ∈ savedRegisters, regs' r = regs r := by
  obtain ⟨hlabel, hcode⟩ := codeAt_cons.1 hcode
  obtain ⟨hpush, hcode⟩ := codeAt_append.1 hcode
  obtain ⟨hrdi, hcode⟩ := codeAt_cons.1 hcode
  obtain ⟨hrsi, hcode⟩ := codeAt_cons.1 hcode
  obtain ⟨hrax, hcode⟩ := codeAt_cons.1 hcode
  obtain ⟨hprintf, hcode⟩ := codeAt_cons.1 hcode
  obtain ⟨hpop, hcode⟩ := codeAt_append.1 hcode
  obtain ⟨hret, -⟩ := codeAt_cons.1 hcode
  rw [List.length_map] at hrdi hrsi hrax hprintf hpop hret
  refine ⟨_, (reaches_call hcall (by decide) hm).trans ((reaches_idle hlabel rfl).trans
    ((reaches_pushes hpush).trans ((reaches_mov hrdi).trans ((reaches_mov hrsi).trans
      ((reaches_mov hrax).trans ((reaches_printf hprintf rfl).trans ((reaches_pops hpop).trans
        (reaches_ret hret)))))))), ?_⟩
  intro r hr
  exact if_pos (List.mem_reverse.2 hr)

end Machine

/-! ### Statements -/

/-- The code of a statement. -/
theorem Stmt.follows {s : Stmt} (hfits : s.misfit = none) (hstorage : s.OnStorage) {n : Nat}
    (hcode : CodeAt listing n s.code) (hnodup : (labelNames listing).Nodup) {env : Env}
    {regs : Registers} (hregs : env.Stored regs) (d : Residue) (stack : List Slot)
    (output : List Word) :
    Follows listing world ⟨n, regs, d, stack, output⟩ (s.exec env) fun env' t =>
      ∃ regs' d', t = ⟨n + s.code.length, regs', d', stack, output⟩ ∧
        env'.Stored regs' ∧ regs' .rax = env'.value := by
  cases s with
  | assign a =>
    refine (Assignment.follows hfits hstorage hcode hregs d stack output).mono ?_
    rintro env' t ⟨regs', d', ht, hregs', hrax, -⟩
    exact ⟨regs', d', ht, hregs', hrax⟩
  | loop l => exact Loop.follows hfits hstorage hcode hnodup hregs d stack output

/-- Behind the last statement the program leaves with status zero. -/
theorem ends_epilogue {n : Nat} (hcode : CodeAt listing n epilogue) (regs : Registers)
    (d : Residue) (stack : List Slot) (output : List Word) :
    Ends listing world ⟨n, regs, d, stack, output⟩ ⟨output, .exited 0⟩ := by
  obtain ⟨hblank, hcode⟩ := codeAt_cons.1 hcode
  obtain ⟨hrax, hcode⟩ := codeAt_cons.1 hcode
  obtain ⟨hrdi, hcode⟩ := codeAt_cons.1 hcode
  obtain ⟨hsyscall, -⟩ := codeAt_cons.1 hcode
  refine ⟨_, (reaches_idle hblank rfl).trans ((reaches_mov hrax).trans (reaches_mov hrdi)), ?_,
    rfl⟩
  rw [step_instr hsyscall]
  rfl

/-- **The code of the statements**, and of what comes behind them. -/
theorem ends_stmts {ss : List Stmt} (hfits : ∀ s ∈ ss, s.misfit = none)
    (hstorage : ∀ s ∈ ss, s.OnStorage) (hnodup : (labelNames listing).Nodup) {m : Nat}
    (hprint : CodeAt listing m printCode) {n : Nat}
    (hcode : CodeAt listing n (ss.flatMap Stmt.printed ++ epilogue)) {env : Env}
    {regs : Registers} (hregs : env.Stored regs) (d : Residue) (stack : List Slot)
    (output : List Word) :
    Ends listing world ⟨n, regs, d, stack, output⟩
      ⟨output ++ (interpretFrom ss (fun i => (world.left (output.length + i)).rdx) env d).printed,
        (interpretFrom ss (fun i => (world.left (output.length + i)).rdx) env d).ending⟩ := by
  have hm := lineOf?_eq_of_nodup hnodup (codeAt_cons.1 hprint).1
  induction ss generalizing n env regs d output with
  | nil =>
    rw [interpretFrom, List.append_nil]
    exact ends_epilogue hcode regs d stack output
  | cons s ss ih =>
    obtain ⟨hfit, hfits⟩ := List.forall_mem_cons.1 hfits
    obtain ⟨hs, hstorage⟩ := List.forall_mem_cons.1 hstorage
    rw [List.flatMap_cons, List.append_assoc, Stmt.printed, List.cons_append,
      List.append_assoc] at hcode
    obtain ⟨hblank, hcode⟩ := codeAt_cons.1 hcode
    obtain ⟨hstmt, hcode⟩ := codeAt_append.1 hcode
    obtain ⟨hcall, hcode⟩ := codeAt_cons.1 hcode
    have hfollows : Follows listing world ⟨n + 1, regs, d, stack, output⟩ (s.exec env) _ :=
      Stmt.follows hfit hs hstmt hnodup hregs d stack output
    refine (reaches_idle hblank rfl).ends ?_
    rw [interpretFrom]
    unfold Follows at hfollows
    cases hexec : s.exec env d with
    | error faults =>
      rw [hexec] at hfollows
      rw [List.append_nil]
      exact hfollows
    | ok r =>
      obtain ⟨env', d'⟩ := r
      rw [hexec] at hfollows
      obtain ⟨_, hreaches, -, rfl, regs', d', rfl, hregs', hrax⟩ := hfollows
      obtain ⟨regs'', hprinted, hsaved⟩ := reaches_print hprint hm hcall
      refine hreaches.ends (hprinted.ends ?_)
      -- one more value is printed, so the leftovers that are still to come are one further on
      have hleft : (fun i => (world.left ((output ++ [regs' .rax]).length + i)).rdx) =
          fun i => (world.left (output.length + (i + 1))).rdx := by
        funext i
        rw [List.length_append, List.length_singleton, Nat.add_right_comm, Nat.add_assoc]
      have hstored : env'.Stored regs'' := by
        intro q hq
        rw [hsaved q (List.mem_cons_of_mem _ (List.mem_cons_of_mem _ hq)), hregs' q hq]
      have hrest := ih hfits hstorage hcode hstored
        { d' with rdx := (world.left output.length).rdx } (output ++ [regs' .rax])
      rw [hleft, List.append_assoc, hrax] at hrest
      rw [hrax]
      exact hrest

/-! ### Programs -/

/-- From `main` on, storage is set to zero and the statements are run. -/
theorem behaves_code {p : Program} (hfits : p.misfit = none)
    (hstorage : ∀ s ∈ p.stmts, s.OnStorage) (hlabels : (p.loops.map (·.label)).Nodup)
    (world : World) (regs : Registers) (rdx : Word) (stack : List Slot) :
    Behaves p.code world regs rdx stack (p.interpret rdx fun n => (world.left n).rdx) := by
  have hnodup := nodup_labelNames hlabels
  have hcode := codeAt_zero p.code
  obtain ⟨hprologue, hcode⟩ := codeAt_append.1 hcode
  obtain ⟨hstmts, hcode⟩ := codeAt_append.1 hcode
  obtain ⟨hepilogue, hcode⟩ := codeAt_append.1 hcode
  obtain ⟨-, hprint⟩ := codeAt_append.1 hcode
  obtain ⟨-, hprologue⟩ := codeAt_cons.1 hprologue
  obtain ⟨hmain, hprologue⟩ := codeAt_cons.1 hprologue
  obtain ⟨hcomment, hprologue⟩ := codeAt_cons.1 hprologue
  obtain ⟨hr10, hprologue⟩ := codeAt_cons.1 hprologue
  obtain ⟨hr11, hprologue⟩ := codeAt_cons.1 hprologue
  obtain ⟨hr12, hprologue⟩ := codeAt_cons.1 hprologue
  obtain ⟨hr13, -⟩ := codeAt_cons.1 hprologue
  refine ⟨_, lineOf?_eq_of_nodup hnodup hmain, ?_⟩
  refine ((reaches_idle hmain rfl).trans ((reaches_idle hcomment rfl).trans
    ((reaches_mov hr10).trans ((reaches_mov hr11).trans ((reaches_mov hr12).trans
      (reaches_mov hr13)))))).ends ?_
  have hmisfit : ∀ s ∈ p.stmts, s.misfit = none := List.findSome?_eq_none_iff.1 hfits
  have hstored : Env.first.Stored (Function.update (Function.update (Function.update
      (Function.update regs .r10 0) .r11 0) .r12 0) .r13 0) := by
    intro r hr
    revert hr
    cases r <;> first | exact fun _ => rfl | exact fun hr => absurd hr (by decide)
  have hends : Ends p.code world _ _ := ends_stmts hmisfit hstorage hnodup hprint
    (codeAt_append.2 ⟨hstmts, hepilogue⟩) hstored ⟨rdx, 0⟩ stack []
  simp only [List.nil_append, List.length_nil, Nat.zero_add] at hends
  exact hends

/-- **Simulation.** If a source compiles, the emitted listing, entered at `main`, behaves exactly
as its program is interpreted: for all contents of the registers and the stack and whatever
`printf` leaves. Unless a division faults, one value is printed for each statement and the program
leaves with status zero. -/
theorem run_compiled (source : String) (count : Nat) (text : String)
    (h : (compile source count).1 = .ok text) :
    ∃ p listing, (parse source count).1 = .ok p ∧
      p.lower.run #[] = (.ok (), listing.toArray) ∧ text = listingText listing ∧
      ∀ world regs rdx stack,
        (∀ b, Behaves listing world regs rdx stack b ↔
          b = p.interpret rdx fun n => (world.left n).rdx) ∧
        ∀ status, (p.interpret rdx fun n => (world.left n).rdx).ending = .exited status →
          status = 0 ∧
          (p.interpret rdx fun n => (world.left n).rdx).printed.length = p.stmts.length := by
  obtain ⟨p, hparse, hgenerate⟩ := compile_eq_ok h
  obtain ⟨hfits, hlower, htext⟩ := generate_eq_ok hgenerate
  refine ⟨p, p.code, hparse, hlower, htext, fun world regs rdx stack => ⟨fun b => ?_, ?_⟩⟩
  · have hbehaves := behaves_code hfits (onStorage_of_parse hparse) (nodup_labels_of_parse hparse)
      world regs rdx stack
    constructor
    · exact fun hb => hb.unique hbehaves
    · rintro rfl
      exact hbehaves
  · exact fun status => length_printed_interpretFrom

/-- A product and three rounds of a loop: the same two values on every machine. -/
theorem run_compiled_loop :
    ∃ text, (compile "r10 = 6 * 7; loop 3 \x7b r11 = r11 + r10; \x7d" 5).1 = .ok text ∧
      ∃ listing, text = listingText listing ∧ ∀ world regs rdx stack,
        Behaves listing world regs rdx stack ⟨[42, 126], .exited 0⟩ := by
  obtain ⟨text, htext⟩ := exists_eq_ok
    (show (compile "r10 = 6 * 7; loop 3 \x7b r11 = r11 + r10; \x7d" 5).1.isOk = true by
      decide +kernel)
  have hparse : (parse "r10 = 6 * 7; loop 3 \x7b r11 = r11 + r10; \x7d" 5).1 =
      .ok ⟨[.assign ⟨.r10, .arith .mul (.num 6) (.num 7)⟩,
        .loop ⟨⟨5⟩, .num 3, ⟨.r11, .arith .add (.reg .r11) (.reg .r10)⟩⟩]⟩ := by
    decide +kernel
  obtain ⟨p, listing, hp, -, heq, hrun⟩ := run_compiled _ 5 text htext
  rw [hparse] at hp
  cases hp
  refine ⟨text, htext, listing, heq, fun world regs rdx stack => ?_⟩
  exact ((hrun world regs rdx stack).1 _).2 rfl

end RegArith
