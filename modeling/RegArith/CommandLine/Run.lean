import RegArith.CommandLine.Arguments
import RegArith.CommandLine.FileSystem
import RegArith.Compiler
import RegArith.Diagnostic
import RegArith.Language.Yaml

/-!
# Runs of the command line

A run reads the source, compiles it, writes the assembly, and reports each step. Nothing is
written unless the whole source has been compiled.

Access to files is a parameter: a run on a `FileSystem` is a function of it.

## Main definitions

* `FileAccess` — reading and writing whole texts
* `Report` — what a run leaves besides files
* `Arguments.run`, `runCommandLine`
-/

namespace RegArith

/-- Reading and writing whole texts by path. -/
structure FileAccess (m : Type → Type) where
  /-- The text of a file, unless it cannot be read. -/
  read : String → m (Option String)
  /-- Replaces the text of a file; whether that was possible. -/
  write : String → String → m Bool

/-- Access to the files of a `FileSystem`. -/
def FileSystem.access : FileAccess (StateM FileSystem) where
  read path := do return (← get).read path
  write path text := do
    match (← get).write path text with
    | some after =>
      set after
      return true
    | none => return false

/-- The exit status of a run and what it printed. -/
structure Report where
  /-- The exit status. -/
  status : Nat
  /-- The text on standard output. -/
  output : String := ""
  /-- The text on standard error. -/
  errors : String := ""
deriving DecidableEq

/-- What is printed about a parsed program. -/
def parsedText (args : Arguments) (program : Program) (labels : Nat) : String :=
  s!"  {program.stmts.length} statements, {labels} loops\n" ++
    (if args.ast then program.yaml else "") ++
    "3. Generate Code\n"

/-- What is printed before the assembly is written. -/
def generatedText (args : Arguments) (code : String) : String :=
  (if args.dump then code ++ "\n" else "") ++
    "4. Write File\n  > " ++ args.output ++ "\n"

/-- What is printed at the end. -/
def compiledText (args : Arguments) : String :=
  styled [.green, .bold] "Compiled" ++ s!" {args.input} to {args.output}\n"

/-- A source made into assembly, with what is printed on the way. -/
def Arguments.build (args : Arguments) (source : String) : Except Error String × String :=
  let opening := "2. Parse\n"
  match (parse source).run 0 with
  | (.error e, _) => (.error e, opening)
  | (.ok program, labels) =>
    let parsed := opening ++ parsedText args program labels
    match generate program with
    | .error e => (.error e, parsed)
    | .ok code => (.ok code, parsed ++ generatedText args code)

/-- Reads, compiles and writes. -/
def Arguments.run {m : Type → Type} [Monad m] (files : FileAccess m) (args : Arguments) :
    m Report := do
  let opening := "1. Read File\n  < " ++ args.input ++ "\n"
  let failed (printed : String) (e : Error) (source : String) : Report :=
    { status := 1, output := opening ++ printed ++ e.diagnostic args.input source }
  match ← files.read args.input with
  | none => return failed "" (.cannotRead args.input) ""
  | some source =>
    match args.build source with
    | (.error e, printed) => return failed printed e source
    | (.ok code, printed) =>
      if ← files.write args.output code then
        return { status := 0, output := opening ++ printed ++ compiledText args }
      else
        return failed printed (.cannotWrite args.output) source

/-- The report of a run that stops at its arguments. -/
def Stop.report (stop : Stop) : Report :=
  if stop.isAnswer then { status := 0, output := stop.message }
  else { status := 2, errors := stop.message }

/-- A whole run with the given arguments. -/
def runCommandLine {m : Type → Type} [Monad m] (files : FileAccess m) (arguments : List String) :
    m Report :=
  match Arguments.ofList arguments with
  | .error stop => return stop.report
  | .ok args => args.run files

end RegArith
