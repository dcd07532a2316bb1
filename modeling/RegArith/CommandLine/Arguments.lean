import RegArith.Text.Plain
import RegArith.Text.Similarity

/-!
# Command-line arguments

The program takes an input path, an output path and flags. Flags may stand anywhere, short ones
may be joined, and `--` ends them. Arguments are taken from left to right, and the first one that
asks for information or is wrong decides.

## Main definitions

* `Flag`, `Arguments`
* `Stop` — why the program does not go on to compile
* `Arguments.ofList` — what a list of arguments means
-/

namespace RegArith

/-- A flag of the command line. -/
inductive Flag where
  | ast
  | dump
  | help
  | version
deriving DecidableEq

namespace Flag

/-- All flags. -/
def all : List Flag := [ast, dump, help, version]

/-- The name after two dashes. -/
def long : Flag → String
  | ast => "ast"
  | dump => "dump"
  | help => "help"
  | version => "version"

/-- The letter after one dash. -/
def short : Flag → Char
  | ast => 'a'
  | dump => 'd'
  | help => 'h'
  | version => 'V'

/-- Whether the flag asks for information. -/
def isAnswered : Flag → Bool
  | ast | dump => false
  | help | version => true

/-- The flag as it is shown in messages. -/
def shown (f : Flag) : String := "--" ++ f.long

/-- The flag whose name is most similar to `name`, if any is similar enough; of equally similar
ones the last. -/
def suggestion (name : String) : Option Flag :=
  let score (f : Flag) := similarity name.toList f.long.toList
  (all.filter fun f => score f > 0.7).foldl
    (fun best f =>
      match best with
      | some g => if score g > score f then best else some f
      | none => some f)
    none

end Flag

/-- What the program is asked to do. -/
structure Arguments where
  /-- The path of the source. -/
  input : String
  /-- The path of the assembly. -/
  output : String
  /-- Whether the syntax tree is shown. -/
  ast : Bool
  /-- Whether the assembly is shown. -/
  dump : Bool
deriving DecidableEq

/-- What stands under the heading of a usage message. -/
inductive Usage where
  /-- All flags at once. -/
  | general
  /-- The flags that were given, and both paths. -/
  | given (flags : List Flag)
  /-- The flags that answer a question, and one choice of all that a compilation takes. -/
  | choice (flags : List Flag)
deriving DecidableEq

/-- Advice in a usage message. -/
inductive Tip where
  | none
  /-- How to pass the text as a path. -/
  | asPath (text : String)
  /-- A flag that may have been meant. -/
  | similar (flag : Flag)
deriving DecidableEq

/-- Why the program does not go on to compile. -/
inductive Stop where
  /-- The user asked for help. -/
  | help
  /-- The user asked for the version. -/
  | version
  /-- Paths are missing. -/
  | missing (names : List String) (usage : Usage)
  /-- An argument has no meaning. -/
  | unexpected (argument : String) (tip : Tip) (usage : Usage)
  /-- A flag came with a value. -/
  | valued (flag : Flag) (value : String) (usage : Usage)
  /-- A flag came twice. -/
  | repeated (flag : Flag) (usage : Usage)
deriving DecidableEq

/-- The arguments taken so far. -/
structure Scan where
  /-- The paths, in order. -/
  paths : List String := []
  /-- The flags, in order. -/
  flags : List Flag := []

namespace Scan

/-- Adds a flag, unless the list has it. -/
def addFlag (flags : List Flag) (f : Flag) : List Flag :=
  if f ∈ flags then flags else flags ++ [f]

/-- The usage that shows what was given: with nothing given, the general one. -/
def usage (s : Scan) (flags : List Flag) : Usage :=
  if s.paths.isEmpty && flags.isEmpty then .general else .given flags

/-- The usage shown when `f` came with a value. As soon as something besides a first path was
given, all that a compilation takes is shown as one choice. -/
def valuedUsage (s : Scan) (f : Flag) : Usage :=
  if s.flags.isEmpty && s.paths.length < 2 then .given [f]
  else .choice (if f.isAnswered then [f] else [])

/-- Takes a path. -/
def path (s : Scan) (text : String) : Except Stop Scan :=
  if s.paths.length < 2 then .ok { s with paths := s.paths ++ [text] }
  else .error (.unexpected text .none .general)

/-- Takes a flag. -/
def flag (s : Scan) : Flag → Except Stop Scan
  | .help => .error .help
  | .version => .error .version
  | f =>
    if f ∈ s.flags then .error (.repeated f .general)
    else .ok { s with flags := s.flags ++ [f] }

/-- Takes the letters after one dash. -/
def shorts (s : Scan) : List Char → Except Stop Scan
  | [] => .ok s
  | c :: rest =>
    match Flag.all.find? (·.short == c) with
    | some f => do (← s.flag f).shorts rest
    | none =>
      let text := String.ofList ['-', c]
      .error (.unexpected text (.asPath text) .general)

/-- Takes the name after two dashes, with the value after an equals sign if there is one. -/
def long (s : Scan) (name : String) (value : Option String) : Except Stop Scan :=
  match Flag.all.find? (·.long == name), value with
  | some f, none => s.flag f
  | some f, some v => .error (.valued f v (s.valuedUsage f))
  | none, _ =>
    let text := "--" ++ name
    match Flag.suggestion name with
    | some f => .error (.unexpected text (.similar f) (s.usage (addFlag s.flags f)))
    | none => .error (.unexpected text (.asPath text) (s.usage s.flags))

/-- Takes an argument in front of `--`. -/
def argument (s : Scan) (text : String) : Except Stop Scan :=
  match text.toList with
  | '-' :: '-' :: rest =>
    let name := rest.takeWhile (· != '=')
    let value := if '=' ∈ rest then some (String.ofList (rest.drop (name.length + 1))) else none
    s.long (String.ofList name) value
  | '-' :: c :: rest => s.shorts (c :: rest)
  | _ => s.path text

/-- Takes all arguments. -/
def arguments (s : Scan) : List String → Except Stop Scan
  | [] => .ok s
  | text :: rest =>
    if text = "--" then rest.foldlM path s
    else do (← s.argument text).arguments rest

end Scan

/-- What a list of arguments asks for. -/
def Arguments.ofList (arguments : List String) : Except Stop Arguments := do
  let s ← ({} : Scan).arguments arguments
  match s.paths with
  | input :: output :: _ => return ⟨input, output, .ast ∈ s.flags, .dump ∈ s.flags⟩
  | [_] => throw (.missing ["<OUTPUT>"] (.given s.flags))
  | [] => throw (.missing ["<INPUT>", "<OUTPUT>"] (.given s.flags))

/-! ### Messages

Messages repeat arguments as plain text, without the control sequences in them. -/

/-- The name and version of the program. -/
def versionText : String := "arithc 0.1.0\n"

/-- What follows the name of the program in a usage. -/
def Usage.parts : Usage → List String
  | .general => ["[OPTIONS]", "<INPUT>", "<OUTPUT>"]
  | .given flags => flags.map Flag.shown ++ ["<INPUT>", "<OUTPUT>"]
  | .choice flags => flags.map Flag.shown ++ ["<INPUT|OUTPUT|--ast|--dump>"]

/-- The usage of the program. -/
def Usage.text (u : Usage) : String := " ".intercalate ("arithc" :: u.parts)

/-- The help of the program. -/
def helpText : String :=
  versionText ++
    "  Kanade <kanade.k.1228@gmail.com>\n" ++
    "  Compiler for a tiny register arithmetic language to x86-64 assembly\n\n" ++
    "Usage:\n  " ++ Usage.general.text ++ "\n\n" ++
    "Arguments:\n" ++
    "  <INPUT>   Input source file\n" ++
    "  <OUTPUT>  Output assembly file (overwritten)\n\n" ++
    "Options:\n" ++
    "  -a, --ast      Dump the parsed AST as YAML\n" ++
    "  -d, --dump     Dump generated assembly code\n" ++
    "  -h, --help     Print help\n" ++
    "  -V, --version  Print version\n"

/-- The paragraph of a tip. -/
def Tip.text : Tip → String
  | .none => ""
  | .asPath text =>
    let shown := plainText text
    s!"\n\n  tip: to pass '{shown}' as a value, use '-- {shown}'"
  | .similar flag => "\n\n  tip: a similar argument exists: '" ++ flag.shown ++ "'"

/-- A message about wrong arguments. -/
def usageMessage (problem : String) (tip : Tip) (usage : Usage) : String :=
  "error: " ++ problem ++ tip.text ++ "\n\nUsage: " ++ usage.text ++
    "\n\nFor more information, try '--help'.\n"

/-- The message of a stop. -/
def Stop.message : Stop → String
  | .help => helpText
  | .version => versionText
  | .missing names usage =>
    usageMessage ("the following required arguments were not provided:" ++
      String.join (names.map ("\n  " ++ ·))) .none usage
  | .unexpected argument tip usage =>
    usageMessage ("unexpected argument '" ++ plainText argument ++ "' found") tip usage
  | .valued flag value usage =>
    usageMessage ("unexpected value '" ++ plainText value ++ "' for '" ++ flag.shown ++
      "' found; no more were expected") .none usage
  | .repeated flag usage =>
    usageMessage ("the argument '" ++ flag.shown ++ "' cannot be used multiple times") .none usage

/-- Whether the stop answers a question of the user. -/
def Stop.isAnswer : Stop → Bool
  | .help | .version => true
  | _ => false

end RegArith
