import RegArith.Proofs.Assembly.Relabelling

/-!
# Which labels a session hands out

Handles on one counter are a family. Every request to a handle takes numbers from the counter of
its family: one for each loop in its answer, from the old count on, in source order, and none
besides. A source that is no program takes numbers too, for the loops among the statements in
front of the place where it goes wrong. Where the count stood decides nothing else about an
answer.

So the numbers of one family follow each other without a gap, over all requests of a session, and
no number is handed out twice.

## Main definitions

* `ReadsUpTo` — the statements that a source starts with, numbered
* `Request.Takes` — the numbers that a request takes
* `Answer.Shifted` — the same answer from another count on
* `Counters.Step`, `Counters.Session` — one request, and requests one after the other

## Main results

* `Counters.step_perform` — what every request does
* `Counters.Session.handedOut_eq` — the numbers of a family in a session
* `Counters.labels_gap_free` — the whole account
-/

namespace RegArith

/-! ### Sources -/

/-- The source starts with the statements of `p`, with loops numbered from `count` on, and no
statement can be read from the text that is left. -/
structure ReadsUpTo (source : String) (count : Nat) (p : Program) (left : List Char) : Prop where
  read : ∃ ts, Derives.Program count ts p.stmts ∧ Spells ts (skip source.toList) left
  stuck : NoStatement left

/-- What a source starts with is the same from every count on, and so is the answer to it. The
labels are taken whether something is left or not. -/
theorem exists_readsUpTo (source : String) :
    ∃ (p : Program) (left : List Char) (result : Except Error Program),
      (∀ n, ReadsUpTo source n (p.shift n) left) ∧
      (∀ n, loopNumbers (p.shift n).loops = List.range' n p.loops.length) ∧
      (∀ n, parse source n = (result.map (Program.shift n), n + p.loops.length)) ∧
      (left = [] ∧ result = .ok p ∨ left ≠ [] ∧ ∃ i, result = .error (.noParse i)) := by
  obtain ⟨us, left, hlead⟩ := exists_leading source.toList
  obtain ⟨ss, hss⟩ := numbers_labelAll us
  simp only [Labelled.loops_list_stmt] at hss
  have hreads (n : Nat) : ReadsUpTo source n (Program.shift n ⟨ss⟩) left := by
    obtain ⟨ts, hts, hspells⟩ := hlead.read
    have hderives := derives_program_labelAll hts n
    rw [(hss n).1] at hderives
    exact ⟨⟨ts, hderives, hspells⟩, hlead.stuck⟩
  by_cases hleft : left = []
  · subst hleft
    refine ⟨⟨ss⟩, [], .ok ⟨ss⟩, hreads, fun n => (hss n).2, fun n => ?_, .inl ⟨rfl, rfl⟩⟩
    rw [hlead.parse_eq_ok n, (hss n).1]
    rfl
  · obtain ⟨i, hi⟩ := hlead.parse_eq_error hleft
    refine ⟨⟨ss⟩, left, .error (.noParse i), hreads, fun n => (hss n).2, fun n => ?_,
      .inr ⟨hleft, i, rfl⟩⟩
    rw [hi n, (hss n).1]
    rfl

/-! ### Requests and answers -/

/-- The numbers that a request takes from a counter at `count`. A label is its own number, and
matches have those of their loops. For a source they are the numbers of the loops among the
statements it starts with, also if it goes on with something else, and whether it is to be
compiled or not. -/
inductive Request.Takes (count : Nat) : Request → Answer → List Nat → Prop
  | addNew (h : Nat) : Takes count .addNew (.handle h) []
  | share (h : Nat) : Takes count .share (.handle h) []
  | count : Takes count .count (.count count) []
  | fresh (l : Label) : Takes count .fresh (.label l) [l.index]
  | parse {source : String} {p : Program} (h : ReadsUpTo source count p []) :
      Takes count (.parse source) (.program (.ok p)) (loopNumbers p.loops)
  | parse_error {source : String} {p : Program} {left : List Char} {i : Nat}
      (h : ReadsUpTo source count p left) (hleft : left ≠ []) :
      Takes count (.parse source) (.program (.error (.noParse i))) (loopNumbers p.loops)
  | compile {source : String} {p : Program} (h : ReadsUpTo source count p []) :
      Takes count (.compile source) (.assembly (generate p)) (loopNumbers p.loops)
  | compile_error {source : String} {p : Program} {left : List Char} {i : Nat}
      (h : ReadsUpTo source count p left) (hleft : left ≠ []) :
      Takes count (.compile source) (.assembly (.error (.noParse i))) (loopNumbers p.loops)
  | rule (r : Rule) (trace : Option String) (mode : Mode) (source : String)
      (result : Except NoMatch (List (Output r.Value))) (log : String) :
      Takes count (.rule r trace mode source) (.found r result log)
        (loopNumbers (Answer.found r result log).loops)

/-- The second answer is the first one with all labels raised by `n`. Handles are numbered by the
session, and printed lines are not looked at. -/
inductive Answer.Shifted (n : Nat) : Answer → Answer → Prop
  | handle (h h' : Nat) : Shifted n (.handle h) (.handle h')
  | label (l : Label) : Shifted n (.label l) (.label (l.shift n))
  | count (k : Nat) : Shifted n (.count k) (.count (n + k))
  | program (result : Except Error Program) :
      Shifted n (.program result) (.program (result.map (Program.shift n)))
  | assembly {result result' : Except Error String} (h : AssemblyShifted n result result') :
      Shifted n (.assembly result) (.assembly result')
  | found (r : Rule) (result : Except NoMatch (List (Output r.Value))) (log log' : String) :
      Shifted n (.found r result log)
        (.found r (result.map (List.map (Output.map (r.shift n)))) log')

/-! ### One request -/

/-- What a request to a counter at `n` comes to. -/
structure Request.Allocates (request : Request) (n : Nat) (answer : Answer) (count : Nat)
    (ns : List Nat) : Prop where
  /-- The numbers are those that the request takes. -/
  takes : request.Takes n answer ns
  /-- They are consecutive from the old count on. -/
  consecutive : ns = List.range' n ns.length
  /-- The count is raised by as many. -/
  count_eq : count = n + ns.length
  /-- Apart from its labels, the answer is that of a new counter. -/
  shifted : Answer.Shifted n (Counters.new.perform 0 request).1 answer

/-- Requests about a source differ only in what they make of the program that it is. -/
theorem allocates_source {request : Request} {source : String}
    (respond : Except Error Program → Answer)
    (hnew : (Counters.new.perform 0 request).1 = respond (parse source 0).1)
    (hok : ∀ {n p}, ReadsUpTo source n p [] →
      request.Takes n (respond (.ok p)) (loopNumbers p.loops))
    (herror : ∀ {n p left i}, ReadsUpTo source n p left → left ≠ [] →
      request.Takes n (respond (.error (.noParse i))) (loopNumbers p.loops))
    (hshift : ∀ n result,
      Answer.Shifted n (respond result) (respond (result.map (Program.shift n))))
    (n : Nat) :
    ∃ ns, request.Allocates n (respond (parse source n).1) (parse source n).2 ns := by
  obtain ⟨p, left, result, hreads, hnumbers, hparse, hresult⟩ := exists_readsUpTo source
  have hlength : (loopNumbers (p.shift n).loops).length = p.loops.length := by
    rw [hnumbers, List.length_range']
  rw [hparse n]
  refine ⟨loopNumbers (p.shift n).loops, ?_, by rw [hlength, hnumbers], by rw [hlength], ?_⟩
  · obtain ⟨rfl, rfl⟩ | ⟨hleft, i, rfl⟩ := hresult
    · exact hok (hreads n)
    · exact herror (hreads n) hleft
  · have hzero : (result.map (Program.shift 0)).map (Program.shift n) =
        result.map (Program.shift n) := by
      cases result <;> simp [Except.map, Program.shift_shift]
    rw [hnew, hparse 0, ← hzero]
    exact hshift n _

theorem allocates_parse (source : String) (n : Nat) :
    ∃ ns, (Request.parse source).Allocates n (.program (parse source n).1) (parse source n).2 ns :=
  allocates_source .program rfl .parse .parse_error (fun _ => .program) n

theorem allocates_compile (source : String) (n : Nat) :
    ∃ ns, (Request.compile source).Allocates n (.assembly (compile source n).1)
      (compile source n).2 ns := by
  rw [compile_eq]
  refine allocates_source (fun result => .assembly (result >>= generate)) ?_ .compile
    .compile_error (fun n result => .assembly ?_) n
  · change Answer.assembly (compile source 0).1 = _
    rw [compile_eq]
  · cases result with
    | error e => exact .error e
    | ok p => exact assemblyShifted_generate p

theorem Rule.loops_labelledFound (r : Rule) (result : Except NoMatch (List (Output r.Value)))
    (log : String) : r.labelledFound.loops result = (Answer.found r result log).loops := by
  cases result <;> rfl

theorem allocates_rule (r : Rule) (trace : Option String) (mode : Mode) (source : String)
    (n : Nat) :
    ∃ ns, (Request.rule r trace mode source).Allocates n ((r.find trace mode source).run n).1
      ((r.find trace mode source).run n).2 ns := by
  obtain ⟨found, hfound⟩ := r.run_find trace mode source
  obtain ⟨log, hrun, hlabels⟩ := hfound n
  obtain ⟨log', hrun', -⟩ := hfound 0
  rw [r.loops_labelledFound _ log] at hlabels
  rw [hrun]
  refine ⟨_, .rule r trace mode source _ log, ?_, ?_, ?_⟩
  · rw [hlabels, List.length_range']
  · rw [hlabels, List.length_range']
  · change Answer.Shifted n ((r.find trace mode source).run 0).1 _
    rw [hrun', ← Nat.add_zero n, ← r.labelledFound.shift_shift, Nat.add_zero]
    exact .found r _ log' log

/-! ### Families -/

namespace Counters

/-- How many labels a family has handed out. Families are known by the numbers of their counters;
one that does not exist yet has handed out none. -/
def total (c : Counters) (family : Nat) : Nat := c.counts.getD family 0

theorem total_addNew (c : Counters) (f : Nat) : c.addNew.2.total f = c.total f := by
  simp only [total, addNew, Array.getD_eq_getD_getElem?, Array.getElem?_push]
  split
  · next h => rw [h, Array.getElem?_eq_none (Nat.le_refl _)]; rfl
  · rfl

theorem total_use {α : Type} (c : Counters) (handle : Nat) (action : StateM Nat α) (f : Nat) :
    (c.use handle action).2.total f =
      if f = c.counter handle then (action.run (c.total (c.counter handle))).2 else c.total f := by
  have hlt := c.counter_lt handle
  have hcounts : (c.use handle action).2.counts =
      c.counts.setIfInBounds (c.counter handle) (action.run (c.count handle)).2 := rfl
  rw [total, hcounts, Array.getD_eq_getD_getElem?, Array.getElem?_setIfInBounds]
  by_cases hf : f = c.counter handle
  · subst hf
    rw [if_pos rfl, if_pos rfl, if_pos hlt]
    rfl
  · rw [if_neg (Ne.symm hf), if_neg hf, total, Array.getD_eq_getD_getElem?]

/-- A new family is none that a handle was on. -/
theorem counter_ne_addNew (c : Counters) (h : Nat) :
    c.counter h ≠ c.addNew.2.counter c.handles.size := by
  have hnew : c.addNew.2.counter c.handles.size = c.counts.size := by simp [counter, addNew]
  rw [hnew]
  exact Nat.ne_of_lt (c.counter_lt h)

theorem counter_share_self (c : Counters) (handle : Nat) :
    (c.share handle).2.counter c.handles.size = c.counter handle := by
  simp [counter, share]

/-- The handle that a request opens: on a family that no handle was on before, or on the family of
the handle that was asked. Other requests open none. -/
def Opens (c : Counters) (handle : Nat) (c' : Counters) : Request → Answer → Prop
  | .addNew, answer => answer = .handle c.handles.size ∧ c'.handles.size = c.handles.size + 1 ∧
      ∀ h, c.counter h ≠ c'.counter c.handles.size
  | .share, answer => answer = .handle c.handles.size ∧ c'.handles.size = c.handles.size + 1 ∧
      c'.counter c.handles.size = c.counter handle
  | _, _ => c'.handles = c.handles

/-- One request to a handle, which hands out the numbers `ns`. -/
structure Step (c : Counters) (handle : Nat) (request : Request) (answer : Answer)
    (c' : Counters) (ns : List Nat) : Prop where
  /-- The request takes the numbers from the counter of its family. -/
  allocates : request.Allocates (c.total (c.counter handle)) answer (c'.total (c.counter handle)) ns
  /-- Other families are left alone. -/
  total_eq : ∀ f, f ≠ c.counter handle → c'.total f = c.total f
  /-- Every handle stays in its family. -/
  counter_eq : ∀ h, h < c.handles.size → c'.counter h = c.counter h
  /-- New handles are in the right family. -/
  opens : c.Opens handle c' request answer

theorem step_use {c : Counters} {handle : Nat} {request : Request} (action : StateM Nat Answer)
    (hopens : c.Opens handle (c.use handle action).2 request (c.use handle action).1)
    (h : ∃ ns, request.Allocates (c.count handle) (action.run (c.count handle)).1
      (action.run (c.count handle)).2 ns) :
    ∃ ns, c.Step handle request (c.use handle action).1 (c.use handle action).2 ns := by
  obtain ⟨ns, h⟩ := h
  refine ⟨ns, ?_, fun f hf => ?_, fun _ _ => rfl, hopens⟩
  · rw [total_use, if_pos rfl]
    exact h
  · rw [total_use, if_neg hf]

/-- **One request.** Whatever is asked of a handle, its family hands out the next numbers for the
loops of the answer, and no other family hands out any. -/
theorem step_perform (c : Counters) (handle : Nat) (request : Request) :
    ∃ ns, c.Step handle request (c.perform handle request).1 (c.perform handle request).2 ns := by
  cases request with
  | addNew =>
    exact ⟨[], ⟨.addNew _, rfl, c.total_addNew _, .handle _ _⟩, fun f _ => c.total_addNew f,
      fun _ => counter_addNew, rfl, Array.size_push .., c.counter_ne_addNew⟩
  | share =>
    exact ⟨[], ⟨.share _, rfl, rfl, .handle _ _⟩, fun _ _ => rfl, fun _ => counter_share, rfl,
      Array.size_push .., c.counter_share_self handle⟩
  | fresh =>
    have hfresh : Request.fresh.Allocates (c.count handle) (.label ⟨c.count handle⟩)
        (c.count handle + 1) [c.count handle] := ⟨.fresh _, rfl, rfl, .label ⟨0⟩⟩
    exact step_use (Answer.label <$> Label.fresh) rfl ⟨_, hfresh⟩
  | count => exact ⟨[], ⟨.count, rfl, rfl, .count 0⟩, fun _ _ => rfl, fun _ _ => rfl, rfl⟩
  | parse source => exact step_use _ rfl (allocates_parse source _)
  | compile source => exact step_use _ rfl (allocates_compile source _)
  | rule r trace mode source => exact step_use _ rfl (allocates_rule r trace mode source _)

/-! ### Whole sessions -/

/-- Requests one after the other. The last part is the account: for each request the family that
it went to and the numbers that it took. -/
inductive Session :
    Counters → List (Nat × Request) → List Answer → Counters → List (Nat × List Nat) → Prop
  | nil (c : Counters) : Session c [] [] c []
  | cons {c c' c'' : Counters} {handle : Nat} {request : Request} {answer : Answer}
      {ns : List Nat} {steps : List (Nat × Request)} {answers : List Answer}
      {account : List (Nat × List Nat)} (h : c.Step handle request answer c' ns)
      (hrest : Session c' steps answers c'' account) :
      Session c ((handle, request) :: steps) (answer :: answers) c''
        ((c.counter handle, ns) :: account)

theorem session_performAll (c : Counters) (steps : List (Nat × Request)) :
    ∃ account, c.Session steps (c.performAll steps).1 (c.performAll steps).2 account := by
  induction steps generalizing c with
  | nil => exact ⟨[], .nil c⟩
  | cons step steps ih =>
    obtain ⟨handle, request⟩ := step
    obtain ⟨ns, hstep⟩ := c.step_perform handle request
    obtain ⟨account, hrest⟩ := ih (c.perform handle request).2
    exact ⟨_, .cons hstep hrest⟩

/-- The numbers that a family handed out, in order. -/
def handedOut (account : List (Nat × List Nat)) (family : Nat) : List Nat :=
  (account.filter (·.1 = family)).flatMap (·.2)

theorem handedOut_cons_self (f : Nat) (ns : List Nat) (account : List (Nat × List Nat)) :
    handedOut ((f, ns) :: account) f = ns ++ handedOut account f := by
  simp [handedOut]

theorem handedOut_cons_of_ne {f g : Nat} (h : f ≠ g) (ns : List Nat)
    (account : List (Nat × List Nat)) : handedOut ((g, ns) :: account) f = handedOut account f := by
  simp [handedOut, Ne.symm h]

/-- A family hands out the numbers from its count on, and its count is raised by as many. -/
theorem Session.handedOut_eq {c c' : Counters} {steps : List (Nat × Request)}
    {answers : List Answer} {account : List (Nat × List Nat)}
    (h : c.Session steps answers c' account) (f : Nat) :
    handedOut account f = List.range' (c.total f) (handedOut account f).length ∧
      c'.total f = c.total f + (handedOut account f).length := by
  induction h with
  | nil c => exact ⟨rfl, rfl⟩
  | @cons c c₁ c' handle request answer ns steps answers account hstep _ ih =>
    obtain ⟨hnumbers, htotal⟩ := ih
    by_cases hf : f = c.counter handle
    · subst hf
      have hns := hstep.allocates.consecutive
      rw [hstep.allocates.count_eq] at hnumbers htotal
      rw [handedOut_cons_self, List.length_append, ← List.range'_append_1, ← hns, ← hnumbers]
      exact ⟨rfl, by omega⟩
    · rw [handedOut_cons_of_ne hf, ← hstep.total_eq f hf]
      exact ⟨hnumbers, htotal⟩

/-- **Labels without gaps.** In a session every request takes the next numbers of its family for
the loops it answers with, and its answer is otherwise that of a new counter. A family therefore
hands out consecutive numbers from its count on, and no number twice. -/
theorem labels_gap_free (c : Counters) (steps : List (Nat × Request)) :
    ∃ account, c.Session steps (c.performAll steps).1 (c.performAll steps).2 account ∧
      ∀ f, handedOut account f = List.range' (c.total f) (handedOut account f).length ∧
        (c.performAll steps).2.total f = c.total f + (handedOut account f).length ∧
        (handedOut account f).Nodup := by
  obtain ⟨account, hsession⟩ := c.session_performAll steps
  refine ⟨account, hsession, fun f => ?_⟩
  obtain ⟨hnumbers, htotal⟩ := hsession.handedOut_eq f
  refine ⟨hnumbers, htotal, ?_⟩
  rw [hnumbers]
  exact List.nodup_range'

end Counters

end RegArith
