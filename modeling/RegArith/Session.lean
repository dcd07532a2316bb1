import RegArith.Compiler

/-!
# Sessions

A session is a sequence of requests that share label counters. Every request goes to a handle and
takes its labels from the counter of that handle.

## Main definitions

* `Request`, `Answer`
* `Counters.perform` — one request
* `Counters.performAll` — one after the other
* `Answer.loops` — the loops that an answer holds
-/

namespace RegArith

/-- What can be asked of a handle. -/
inductive Request where
  /-- A handle on a new counter. -/
  | addNew
  /-- Another handle on the same counter. -/
  | share
  /-- The next label. -/
  | fresh
  /-- How many labels were handed out. -/
  | count
  /-- The program that a source is. -/
  | parse (source : String)
  /-- The assembly of a source. -/
  | compile (source : String)
  /-- The matches of one production, which may be traced under a name. -/
  | rule (r : Rule) (trace : Option String) (mode : Mode) (source : String)

/-- The answer to a request. -/
inductive Answer where
  | handle (handle : Nat)
  | label (label : Label)
  | count (count : Nat)
  | program (result : Except Error Program)
  | assembly (result : Except Error String)
  /-- Matches of a production, and the lines that tracing printed. -/
  | found (r : Rule) (result : Except NoMatch (List (Output r.Value))) (log : String)

/-- The matches of a production in a source. -/
def Rule.find (r : Rule) (trace : Option String) (mode : Mode) (source : String) :
    StateM Nat Answer := fun count =>
  let (result, journal) := (r.parser trace).find mode (sourceTokens source) (.new count)
  (.found r result journal.log, journal.state)

namespace Counters

/-- Answers one request to a handle. -/
def perform (c : Counters) (handle : Nat) : Request → Answer × Counters
  | .addNew => let (h, c) := c.addNew; (.handle h, c)
  | .share => let (h, c) := c.share handle; (.handle h, c)
  | .fresh => let (l, c) := c.fresh handle; (.label l, c)
  | .count => (.count (c.count handle), c)
  | .parse source => c.use handle do return .program (← RegArith.parse source)
  | .compile source => c.use handle do return .assembly (← RegArith.compile source)
  | .rule r trace mode source => c.use handle (r.find trace mode source)

/-- Answers requests one after the other. -/
def performAll (c : Counters) : List (Nat × Request) → List Answer × Counters
  | [] => ([], c)
  | (handle, request) :: rest =>
    let (answer, c) := c.perform handle request
    let (answers, c) := c.performAll rest
    (answer :: answers, c)

end Counters

/-! ### Loops in answers -/

/-- The loops in what a production reads. -/
def Rule.loops : (r : Rule) → r.Value → List Loop
  | .loop, l => [l]
  | .statement, s => s.loop?.toList
  | .program, p => p.loops
  | .register, _ | .int, _ | .operand, _ | .mulDivExpr, _ | .addSubExpr, _ | .expr, _
  | .assignment, _ => []

/-- The loops that an answer holds, in source order. -/
def Answer.loops : Answer → List Loop
  | .program (.ok p) => p.loops
  | .found r (.ok outputs) _ => outputs.flatMap fun o => r.loops o.value
  | _ => []

end RegArith
