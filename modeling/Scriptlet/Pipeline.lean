import Scriptlet.Eval.Call
import Scriptlet.Grammar.Read
import Scriptlet.Token.Scan
import Scriptlet.Typing.Check

/-!
# From source to result

A source is read, checked and run.  Each stage may be the last one; the trace names the stages that
were reached.
-/

namespace Scriptlet

/-- Why a source gave no value. -/
inductive Failure
  /-- It is not a program. -/
  | malformed (e : SyntaxError)
  /-- It breaks the typing rules. -/
  | illTyped (diagnostics : List Diagnostic)
  /-- Its run stopped. -/
  | stopped (why : Stop)
deriving DecidableEq

/-- What came of a source. -/
structure Execution where
  /-- The value of the run, or why there is none. -/
  outcome : Except Failure Value
  /-- The state at the end. -/
  state : State

namespace Execution

/-- Everything that was printed. -/
def output (x : Execution) : String := x.state.console.output

/-- The trace, if one was kept. -/
def trace? (x : Execution) : Option String := x.state.trace.render?

end Execution

/-- Reads a source. -/
def Program.ofSource (source : String) : Except SyntaxError Program :=
  Program.ofLexemes (Scan.lexemes source)

namespace Program

/-- Runs a program from a state. -/
def execute (p : Program) (o : Settings) (s : State) : Execution :=
  let (outcome, t) := (p.run o).run s
  ⟨outcome.mapError .stopped, t⟩

/-- Checks a program that was read, and notes both in the trace. -/
def checkNoted (p : Program) (s : State) : List Diagnostic × State :=
  let trace := s.trace.write 1 ("parse: " ++ toString p.functions.length ++ " functions")
  let (diagnostics, trace) := p.check trace
  (diagnostics, { s with trace })

/-- Checks a program, and goes on with `next` if nothing is wrong with it. -/
def checkThen (p : Program) (s : State) (next : State → Execution) : Execution :=
  match p.checkNoted s with
  | ([], s) => next s
  | (diagnostics, s) => ⟨.error (.illTyped diagnostics), s⟩

end Program

namespace Pipeline

/-- The state before anything has happened. -/
def initial (input : String) (verbosity : Nat) : State :=
  { console := .ofInput input, trace := { verbosity } }

/-- Reads, checks and runs a source. -/
def run (o : Settings) (source input : String) (verbosity : Nat) : Execution :=
  let s := initial input verbosity
  let count := (Scan.lexemes source).length
  let s := { s with trace := s.trace.write 1 ("tokenize: " ++ toString count ++ " tokens") }
  match Program.ofSource source with
  | .error e => ⟨.error (.malformed e), s⟩
  | .ok p => p.checkThen s (p.execute o)

/-- Reads and runs a source without checking it.  There is no trace when it cannot be read. -/
def runUnchecked (o : Settings) (source input : String) (verbosity : Nat) : Execution :=
  match Program.ofSource source with
  | .error e => ⟨.error (.malformed e), initial input 0⟩
  | .ok p => p.execute o (initial input verbosity)

/-- Reads, checks and runs the text of a file, in which all line ends count as line feeds. -/
def runFile (o : Settings) (text input : String) (verbosity : Nat) : Execution :=
  run o (String.ofList (Text.unifyLineEnds text.toList)) input verbosity

end Pipeline

end Scriptlet
