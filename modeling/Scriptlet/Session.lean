import Scriptlet.Pipeline
import Scriptlet.Value.Tree

/-!
# Sessions

A session holds a program whose functions can be called, and variables with their values and types.
Pieces of source are read, run and checked one after the other; what a piece did stays, also when
it ended with an error.
-/

namespace Scriptlet

/-- The state of a session. -/
structure Session where
  /-- The program whose functions can be called. -/
  program : Program
  /-- How pieces of source are run. -/
  settings : Settings
  /-- The signatures of the functions, and the result type that a `return` must have. -/
  context : Context
  /-- The types of the variables. -/
  types : Scope Ty := .empty
  /-- The variables, arrays, console and trace. -/
  state : State

namespace Session

variable {α : Type}

/-- Starts a session: the session, and what is wrong with the functions as a whole. -/
def start (p : Program) (settings : Settings) (input : String) (verbosity : Nat) :
    Session × List Diagnostic :=
  let s := Pipeline.initial input verbosity
  let (signatures, c) := (Check.signatures p).run { trace := s.trace }
  ({ program := p, settings, context := { signatures }, state := { s with trace := c.trace } },
   c.diagnostics)

/-! ## Reading pieces of source -/

/-- Reads a piece of source that leaves nothing over. -/
def read (code : String) (p : Production) : Except SyntaxError Fragment := do
  let lexemes := Scan.lexemes code
  let (fragment, rest) ← p.read lexemes ⟨0, lexemes.length⟩
  match rest.get? lexemes.toArray 0 with
  | some l => throw (.leftover l)
  | none => return fragment

/-! ## Blocks -/

/-- Enters a block. -/
def push (s : Session) : Session :=
  { s with types := s.types.push, state := { s.state with scope := s.state.scope.push } }

/-- Leaves a block. -/
def pop (s : Session) : Session :=
  { s with types := s.types.pop, state := { s.state with scope := s.state.scope.pop } }

/-! ## Running -/

/-- Runs an action in the session. -/
def perform (s : Session) (act : Run α) : Except Stop α × Session :=
  let (result, t) := act.run s.state
  (result, { s with state := t })

/-- Brings a value into the session. -/
def load (s : Session) (t : Tree) : Value × Session :=
  let (v, heap) := s.state.heap.load t
  (v, { s with state := { s.state with heap } })

/-- Brings several values into the session. -/
def loadAll (s : Session) (ts : List Tree) : List Value × Session :=
  let (vs, heap) := s.state.heap.loadAll ts
  (vs, { s with state := { s.state with heap } })

/-- The machine that runs pieces of source. -/
def machine (s : Session) : Machine := s.program.machine s.settings

/-- Runs a fragment as a statement. -/
def exec (s : Session) : Fragment → Run Completion
  | .expr e => s.machine.exec e
  | f =>
    match f.span? with
    | none => throw .noPlace
    | some span => do
      Run.note 4 ("exec " ++ f.kind ++ " at " ++ span.render)
      throw (.breach (.notEvaluable f.kind))

/-- Runs a fragment for its value. -/
def eval (s : Session) : Fragment → Run Value
  | .expr e => s.machine.eval e
  | f => throw (.breach (.notEvaluable f.kind))

/-- Calls a function. -/
def call (s : Session) (name : String) (args : List Value) : Run Value :=
  s.program.call s.settings name args

/-! ## Checking -/

/-- Sets the type that a `return` must have. -/
def expectReturn (s : Session) (t : Ty) : Session :=
  { s with context := { s.context with result := t } }

/-- The type of a fragment, and the new diagnostics. -/
def check (s : Session) : Fragment → Except Breach (Option Ty × List Diagnostic) × Session
  | .expr e =>
    let (t, c) := (Check.expr s.context e).run { scope := s.types, trace := s.state.trace }
    (.ok (t, c.diagnostics),
     { s with types := c.scope, state := { s.state with trace := c.trace } })
  | f => (.error (.notCheckable f.kind), s)

end Session

end Scriptlet
