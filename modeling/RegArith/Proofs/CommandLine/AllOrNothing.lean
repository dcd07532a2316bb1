import RegArith.CommandLine.Run
import RegArith.Proofs.Session.Allocation

/-!
# Runs that write all or nothing

A run can fail at five places, and it prints something at each of them. Its status and what it does
to files are much simpler: it reads once, compiles, and writes once if there is anything to write.
That is a function of the two paths. No flag comes into it, and this holds for every kind of access
to files.

If writing a file either stores the whole text or has no effect, runs are all or nothing as well. A
run with status zero has changed the one place that the output path leads to, and every other run
has changed nothing. The paths may be the same, as the text is complete before anything is written.

## Main definitions

* `exitStatus` — reading, compiling and writing, without a report
* `Disk`, `FileAccess.IsAtomic` — places in a file system, and access to them

## Main results

* `Arguments.status_run` — a run apart from what it prints
* `FileSystem.isAtomic_access` — the access to a `FileSystem` is atomic
* `runCommandLine_all_or_nothing` — runs on files with atomic access
-/

namespace RegArith

/-! ### A run without its report -/

section

variable {m : Type → Type} [Monad m]

/-- Reads, compiles and writes; the answer is the exit status. -/
def exitStatus (files : FileAccess m) (input output : String) : m Nat := do
  match ← files.read input with
  | none => return 1
  | some source =>
    match (compile source 0).1 with
    | .error _ => return 1
    | .ok text => return if ← files.write output text then 0 else 1

/-- What is built is what compiling gives, whatever is printed on the way. -/
theorem Arguments.build_fst (args : Arguments) (source : String) :
    (args.build source).1 = (compile source 0).1 := by
  rw [compile_eq, build, StateT.run]
  rcases parse source 0 with ⟨e | p, labels⟩
  · rfl
  · change _ = generate p
    dsimp only
    generalize generate p = result
    cases result <;> rfl

/-- **The status of a run and its effects** depend on the two paths. -/
theorem Arguments.status_run [LawfulMonad m] (files : FileAccess m) (args : Arguments) :
    Report.status <$> args.run files = exitStatus files args.input args.output := by
  rw [run, exitStatus, map_bind]
  refine congrArg (files.read args.input >>= ·) (funext fun source? => ?_)
  cases source? with
  | none => exact map_pure _ _
  | some source =>
    dsimp only
    rw [← args.build_fst source]
    rcases args.build source with ⟨e | code, printed⟩
    · exact map_pure _ _
    · dsimp only
      rw [map_bind]
      refine congrArg (files.write args.output code >>= ·) (funext fun written => ?_)
      cases written <;> exact map_pure _ _

end

/-! ### Arguments -/

/-- Arguments that ask for the given paths and flags. -/
def Arguments.toList (args : Arguments) : List String :=
  (if args.ast then ["--ast"] else []) ++ (if args.dump then ["--dump"] else []) ++
    ["--", args.input, args.output]

/-- All paths can be asked for, with all combinations of flags. -/
theorem Arguments.ofList_toList (args : Arguments) : Arguments.ofList args.toList = .ok args := by
  obtain ⟨input, output, ast, dump⟩ := args
  cases ast <;> cases dump <;> rfl

/-! ### Counts that are printed -/

/-- The labels that a program has taken from a new counter are those of its loops. -/
theorem count_parse {source : String} {n : Nat} {p : Program}
    (h : (parse source n).1 = .ok p) : (parse source n).2 = n + p.loops.length := by
  obtain ⟨p₀, left, result, -, hnumbers, hparse, hresult⟩ := exists_readsUpTo source
  rw [hparse] at h ⊢
  obtain ⟨-, rfl⟩ | ⟨-, i, rfl⟩ := hresult
  · cases h
    rw [← length_loopNumbers (p₀.shift n).loops, hnumbers, List.length_range']
  · cases h

theorem Arguments.exists_build_snd (args : Arguments) {source : String} {p : Program}
    (h : (parse source 0).1 = .ok p) :
    ∃ rest, (args.build source).2 =
      "2. Parse\n" ++ s!"  {p.stmts.length} statements, {p.loops.length} loops\n" ++ rest := by
  have hcount := count_parse h
  rw [Nat.zero_add] at hcount
  have hparse : (parse source).run 0 = (.ok p, p.loops.length) := Prod.ext h hcount
  rw [build, hparse]
  obtain ⟨rest, hrest⟩ : ∃ rest, parsedText args p p.loops.length =
      s!"  {p.stmts.length} statements, {p.loops.length} loops\n" ++ rest :=
    ⟨_, String.append_assoc⟩
  dsimp only
  rw [hrest]
  cases generate p with
  | error e => exact ⟨rest, String.append_assoc.symm⟩
  | ok code => exact ⟨rest ++ generatedText args code, by simp only [String.append_assoc]⟩

/-- The report of a run that could read its input starts with what was printed until it wrote. -/
theorem Arguments.exists_output_run {W : Type} (files : FileAccess (StateM W)) (args : Arguments)
    {w w' : W} {source : String} (h : (files.read args.input).run w = (some source, w')) :
    ∃ rest, ((args.run files).run w).1.output =
      "1. Read File\n  < " ++ args.input ++ "\n" ++ (args.build source).2 ++ rest := by
  rw [run, StateT.run_bind, h]
  change ∃ rest, ((_ : StateM W Report).run w').1.output = _ ++ rest
  dsimp only
  rcases args.build source with ⟨e | code, printed⟩
  · exact ⟨_, rfl⟩
  · dsimp only
    rw [StateT.run_bind]
    rcases (files.write args.output code).run w' with ⟨_ | _, w''⟩
    · exact ⟨_, rfl⟩
    · exact ⟨_, rfl⟩

/-! ### Files -/

/-- A way to look at the states of a file system. -/
structure Disk (W : Type) where
  /-- Places for files. -/
  Place : Type
  /-- What a place can hold. -/
  Content : Type
  /-- Where a path leads. -/
  locate : W → String → Option Place
  /-- What a place holds. -/
  content : W → Place → Content
  /-- A file with the given bytes. -/
  file : ByteArray → Content
  /-- The bytes that a path can be read as. -/
  bytes : W → String → Option ByteArray

/-- The text of a file that can be read and is UTF-8. -/
def Disk.text {W : Type} (disk : Disk W) (w : W) (path : String) : Option String :=
  (disk.bytes w path).bind String.fromUTF8?

/-- Files are read as text, which changes nothing. Writing a file stores the whole text where the
path leads, and leaves other places alone; or it fails without effect. -/
structure FileAccess.IsAtomic {W : Type} (files : FileAccess (StateM W)) (disk : Disk W) :
    Prop where
  read : ∀ path w, (files.read path).run w = (disk.text w path, w)
  write_done : ∀ {path text w w'}, (files.write path text).run w = (true, w') →
    ∃ place, disk.locate w path = some place ∧ disk.content w' place = disk.file text.toUTF8 ∧
      ∀ q, q ≠ place → disk.content w' q = disk.content w q
  write_failed : ∀ {path text w w'}, (files.write path text).run w = (false, w') → w' = w

/-- The places of a `FileSystem`. -/
def FileSystem.disk : Disk FileSystem where
  Place := Location
  Content := Option Node
  locate := FileSystem.resolve
  content := FileSystem.get?
  file content := some (.file content)
  bytes fs path :=
    match (fs.resolve path).bind fs.get? with
    | some (.file content) => some content
    | _ => none

theorem FileSystem.text_disk (fs : FileSystem) (path : String) :
    FileSystem.disk.text fs path = fs.read path := by
  change Option.bind (match (fs.resolve path).bind fs.get? with
    | some (.file content) => some content
    | _ => none) String.fromUTF8? = _
  unfold FileSystem.read
  rcases (fs.resolve path).bind fs.get? with _ | (_ | _) <;> rfl

theorem FileSystem.run_write_some {fs after : FileSystem} {path text : String}
    (h : fs.write path text = some after) :
    (FileSystem.access.write path text).run fs = (true, after) := by
  simp only [FileSystem.access, StateT.run_bind, StateT.run_get, pure_bind, h]
  rfl

theorem FileSystem.run_write_none {fs : FileSystem} {path text : String}
    (h : fs.write path text = none) :
    (FileSystem.access.write path text).run fs = (false, fs) := by
  simp only [FileSystem.access, StateT.run_bind, StateT.run_get, pure_bind, h]
  rfl

/-- A write to a `FileSystem` has all of its effect or none. -/
theorem FileSystem.isAtomic_access : FileSystem.access.IsAtomic FileSystem.disk := by
  constructor
  · intro path fs
    rw [text_disk]
    rfl
  · intro path text fs fs' h
    cases hwrite : fs.write path text with
    | none =>
      rw [run_write_none hwrite] at h
      cases h
    | some after =>
      rw [run_write_some hwrite] at h
      cases h
      exact get?_write hwrite
  · intro path text fs fs' h
    cases hwrite : fs.write path text with
    | none =>
      rw [run_write_none hwrite] at h
      cases h
      rfl
    | some after =>
      rw [run_write_some hwrite] at h
      cases h

/-! ### All or nothing -/

section

variable {W : Type} {files : FileAccess (StateM W)} {disk : Disk W}

theorem FileAccess.IsAtomic.run_exitStatus (h : files.IsAtomic disk) (input output : String)
    (w : W) :
    (exitStatus files input output).run w =
      match disk.text w input with
      | none => (1, w)
      | some source =>
        match (compile source 0).1 with
        | .error _ => (1, w)
        | .ok text =>
          match (files.write output text).run w with
          | (true, w') => (0, w')
          | (false, w') => (1, w') := by
  rw [exitStatus, StateT.run_bind, h.read]
  cases disk.text w input with
  | none => rfl
  | some source =>
    change (_ : StateM W Nat).run w = _
    dsimp only
    cases (compile source 0).1 with
    | error e => rfl
    | ok text =>
      dsimp only
      rw [StateT.run_bind]
      rcases (files.write output text).run w with ⟨_ | _, w'⟩ <;> rfl

/-- **The two ways in which a run ends.** There is a text and it was written, with status zero. Or
there is no text, or it cannot be written; then the status is one and nothing has changed. -/
theorem FileAccess.IsAtomic.exitStatus_cases (h : files.IsAtomic disk) (input output : String)
    (w : W) :
    (∃ source text w', disk.text w input = some source ∧ (compile source 0).1 = .ok text ∧
      (files.write output text).run w = (true, w') ∧
      ((exitStatus files input output).run w).1 = 0 ∧
      ((exitStatus files input output).run w).2 = w') ∨
    (∀ source text, disk.text w input = some source → (compile source 0).1 = .ok text →
      ((files.write output text).run w).1 = false) ∧
      ((exitStatus files input output).run w).1 = 1 ∧
      ((exitStatus files input output).run w).2 = w := by
  rw [h.run_exitStatus]
  cases disk.text w input with
  | none => exact .inr ⟨fun _ _ hsource => (by cases hsource), rfl, rfl⟩
  | some source =>
    dsimp only
    cases hcompile : (compile source 0).1 with
    | error e =>
      refine .inr ⟨fun source' text hsource htext => ?_, rfl, rfl⟩
      cases hsource
      rw [hcompile] at htext
      cases htext
    | ok text =>
      dsimp only
      rcases hwrite : (files.write output text).run w with ⟨_ | _, w'⟩
      · obtain rfl := h.write_failed hwrite
        refine .inr ⟨fun source' text' hsource htext => ?_, rfl, rfl⟩
        cases hsource
        rw [hcompile] at htext
        cases htext
        rw [hwrite]
      · exact .inl ⟨source, text, w', rfl, hcompile, hwrite, rfl, rfl⟩

/-- A run ends with the status that its paths lead to, and leaves files as they do. -/
theorem exists_run_of_ofList {arguments : List String} {args : Arguments}
    (hargs : Arguments.ofList arguments = .ok args) (w : W) :
    ∃ report w', (runCommandLine files arguments).run w = (report, w') ∧
      (args.run files).run w = (report, w') ∧
      ((exitStatus files args.input args.output).run w).1 = report.status ∧
      ((exitStatus files args.input args.output).run w).2 = w' := by
  have hrun : runCommandLine files arguments = args.run files := by
    unfold runCommandLine
    rw [hargs]
  rw [hrun, ← args.status_run]
  exact ⟨_, _, rfl, rfl, rfl, rfl⟩

/-- **Runs on files with atomic access.** The status is zero exactly if the input can be read as
UTF-8, compiles from a new counter, and the text can be written. Then the place that the output path
leads to holds that text, and no other place has changed; otherwise the status is one and nothing
has changed at all. Other flags lead to the same status and the same files. And what is printed
about a source that can be parsed is the number of its statements and the number of the loops among
them. -/
theorem runCommandLine_all_or_nothing (hfiles : files.IsAtomic disk) {arguments : List String}
    {args : Arguments} (hargs : Arguments.ofList arguments = .ok args) (w : W) :
    ∃ report w', (runCommandLine files arguments).run w = (report, w') ∧
    (report.status = 0 ↔ ∃ content source text, disk.bytes w args.input = some content ∧
      String.fromUTF8? content = some source ∧ (compile source 0).1 = .ok text ∧
      ((files.write args.output text).run w).1 = true) ∧
    (report.status = 0 → ∀ source text, disk.text w args.input = some source →
      (compile source 0).1 = .ok text → ∃ place, disk.locate w args.output = some place ∧
        disk.content w' place = disk.file text.toUTF8 ∧
        ∀ q, q ≠ place → disk.content w' q = disk.content w q) ∧
    (report.status ≠ 0 → report.status = 1 ∧ w' = w) ∧
    (∀ arguments' ast dump, Arguments.ofList arguments' = .ok { args with ast, dump } →
      ∃ report', (runCommandLine files arguments').run w = (report', w') ∧
        report'.status = report.status) ∧
    ∀ source p, disk.text w args.input = some source → (parse source 0).1 = .ok p →
      ∃ rest, report.output = "1. Read File\n  < " ++ args.input ++ "\n" ++ "2. Parse\n" ++
        s!"  {p.stmts.length} statements, {p.loops.length} loops\n" ++ rest := by
  obtain ⟨report, w', hrun, hreport, hstatus, hafter⟩ := exists_run_of_ofList hargs w
  have hcases := hfiles.exitStatus_cases args.input args.output w
  rw [hstatus, hafter] at hcases
  refine ⟨report, w', hrun, ?_, ?_, ?_, fun arguments' ast dump hargs' => ?_, ?_⟩
  · rcases hcases with ⟨source, text, w₁, hsource, htext, hwrite, hzero, -⟩ | ⟨hnone, hone, -⟩
    · obtain ⟨content, hcontent, hutf8⟩ := Option.bind_eq_some_iff.1 hsource
      exact iff_of_true hzero ⟨content, source, text, hcontent, hutf8, htext, by rw [hwrite]⟩
    · refine iff_of_false (by omega) ?_
      rintro ⟨content, source, text, hcontent, hutf8, htext, hwrite⟩
      rw [hnone source text (Option.bind_eq_some_iff.2 ⟨content, hcontent, hutf8⟩) htext] at hwrite
      cases hwrite
  · intro hzero source text hsource htext
    rcases hcases with ⟨source', text', w₁, hsource', htext', hwrite, -, rfl⟩ | ⟨-, hone, -⟩
    · cases hsource.symm.trans hsource'
      cases htext.symm.trans htext'
      exact hfiles.write_done hwrite
    · omega
  · intro hne
    rcases hcases with ⟨_, _, _, -, -, -, hzero, -⟩ | ⟨-, hone, hsame⟩
    · exact absurd hzero hne
    · exact ⟨hone, hsame⟩
  · obtain ⟨report', w₁, hrun', -, hstatus', hafter'⟩ := exists_run_of_ofList hargs' w
    exact ⟨report', by rw [hrun', ← hafter', hafter], hstatus'.symm.trans hstatus⟩
  · intro source p hsource hp
    have hread : (files.read args.input).run w = (some source, w) := by rw [hfiles.read, hsource]
    obtain ⟨rest, hrest⟩ := args.exists_output_run files hread
    obtain ⟨rest', hrest'⟩ := args.exists_build_snd hp
    rw [hreport, hrest'] at hrest
    refine ⟨rest' ++ rest, hrest.trans ?_⟩
    simp only [String.append_assoc]

end

/-- A source that is overwritten with its assembly. -/
theorem runCommandLine_same_path :
    ∃ text report after, (compile "r10 = 1;" 0).1 = .ok text ∧
      (runCommandLine FileSystem.access (Arguments.toList ⟨"a", "a", false, true⟩)).run
        ⟨[(["a"], .file "r10 = 1;".toUTF8)]⟩ = (report, after) ∧
      report.status = 0 ∧ after.get? ["a"] = some (.file text.toUTF8) := by
  have hsplit : "a".splitOn "/" = ["a"] := by
    rw [String.splitOn, if_neg (by decide), String.splitOnAux, String.splitOnAux]
    decide +kernel
  have hresolve : FileSystem.resolve ⟨[(["a"], .file "r10 = 1;".toUTF8)]⟩ "a" = some ["a"] := by
    rw [FileSystem.resolve, if_neg (by decide +kernel), hsplit]
    rfl
  obtain ⟨text, htext⟩ := exists_eq_ok
    (show (compile "r10 = 1;" 0).1.isOk = true by decide +kernel)
  obtain ⟨report, after, hrun, hiff, hwritten, -⟩ :=
    runCommandLine_all_or_nothing FileSystem.isAtomic_access
      (Arguments.ofList_toList ⟨"a", "a", false, true⟩) ⟨[(["a"], .file "r10 = 1;".toUTF8)]⟩
  have hbytes : FileSystem.disk.bytes ⟨[(["a"], .file "r10 = 1;".toUTF8)]⟩ "a" =
      some "r10 = 1;".toUTF8 := by
    dsimp only [FileSystem.disk]
    rw [hresolve]
    rfl
  have hwritable : ((FileSystem.access.write "a" text).run
      ⟨[(["a"], .file "r10 = 1;".toUTF8)]⟩).1 = true := by
    have hwrite : FileSystem.write ⟨[(["a"], .file "r10 = 1;".toUTF8)]⟩ "a" text =
        some ⟨[(["a"], .file text.toUTF8)]⟩ := by
      rw [FileSystem.write, hresolve]
      rfl
    rw [FileSystem.run_write_some hwrite]
  have hutf8 : String.fromUTF8? "r10 = 1;".toUTF8 = some "r10 = 1;" := by decide +kernel
  have hzero := hiff.2 ⟨_, _, text, hbytes, hutf8, htext, hwritable⟩
  obtain ⟨place, hplace, hholds, -⟩ := hwritten hzero _ text
    (Option.bind_eq_some_iff.2 ⟨_, hbytes, hutf8⟩) htext
  cases hresolve.symm.trans hplace
  exact ⟨text, report, after, htext, hrun, hzero, hholds⟩

end RegArith
