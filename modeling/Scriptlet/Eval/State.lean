import Scriptlet.Console
import Scriptlet.Eval.Stop
import Scriptlet.Scope
import Scriptlet.Trace
import Scriptlet.Value.Heap

/-!
# The state of a run

Running changes variables, arrays, the console and the trace.  The state outlives a stop: what was
done before stays done.
-/

namespace Scriptlet

/-- What running changes. -/
structure State where
  /-- The variables. -/
  scope : Scope Value := .empty
  /-- The arrays. -/
  heap : Heap := {}
  /-- The console. -/
  console : Console := {}
  /-- The trace. -/
  trace : Trace

/-- A step of a run: it ends with a result or stops, and in both cases leaves a state. -/
abbrev Run := ExceptT Stop (StateM State)

namespace Run

variable {α : Type}

/-- Writes to the trace. -/
@[inline] def note (level : Nat) (text : String) : Run Unit :=
  modify fun s => { s with trace := s.trace.write level text }

/-- Whether the trace keeps entries of a level. -/
def keeps (level : Nat) : Run Bool := return (← get).trace.keeps level

/-- Writes to the trace a text in which surrogates may stand.  Where the line is kept it is encoded,
and the run stops if it cannot be. -/
def noteText (level : Nat) (text : CodeText) : Run Unit := do
  if ← keeps level then
    match text.encode? with
    | some line => note level line
    | none => throw (.untraceable level)

/-- The text of a value. -/
def textOf (v : Value) : Run CodeText := do
  match (← get).heap.text? v with
  | some t => return t
  | none => throw .tooDeep

/-- The texts of several values. -/
def textsOf (vs : List Value) : Run (List CodeText) := do
  match (← get).heap.texts? vs with
  | some ts => return ts
  | none => throw .tooDeep

/-- Writes a value to the trace, behind a label.  Its text is composed even if the line is not kept. -/
def noteValue (level : Nat) (label : String) (v : Value) : Run Unit := do
  noteText level (label ++ (← textOf v))

/-! ## Variables -/

/-- The value of a variable. -/
def lookup (name : String) : Run Value := do
  match (← get).scope.get? name with
  | some v => return v
  | none => throw (.breach (.undefinedVariable name))

/-- Declares a variable in the innermost frame. -/
def declare (name : String) (v : Value) : Run Unit :=
  modify fun s => { s with scope := s.scope.declare name v }

/-- Changes the value of a variable. -/
def assign (name : String) (v : Value) : Run Unit := do
  match (← get).scope.set? name v with
  | some scope => modify fun s => { s with scope := scope }
  | none => throw (.breach (.undefinedTarget name))

/-- Runs in a block of its own, which is left on every way out. -/
def inBlock (act : Run α) : Run α := fun s =>
  let (result, t) := act.run { s with scope := s.scope.push }
  (result, { t with scope := t.scope.pop })

/-- Runs with the variables in `frame` alone; afterwards the old variables are back. -/
def inCall (frame : Frame Value) (act : Run α) : Run α := fun s =>
  let (result, t) := act.run { s with scope := [frame] }
  (result, { t with scope := s.scope })

/-! ## Arrays and console -/

/-- The elements of an array. -/
def itemsOf (h : Handle) : Run (Array Value) := return (← get).heap.items h

/-- Makes an array. -/
def alloc (items : List Value) : Run Value := do
  let (h, heap) := (← get).heap.alloc items.toArray
  modify fun s => { s with heap := heap }
  return .array h

/-- Replaces an element of an array. -/
def store (h : Handle) (i : Nat) (v : Value) : Run Unit :=
  modify fun s => { s with heap := s.heap.store h i v }

/-- Prints a text, if it can be encoded. -/
def print (text : CodeText) : Run Unit := do
  match text.encode? with
  | some shown => modify fun s => { s with console := s.console.print shown }
  | none => throw .unprintable

/-- Reads a line. -/
def readLine : Run String := do
  match (← get).console.readLine? with
  | some (line, console) =>
    modify fun s => { s with console := console }
    return line
  | none => throw (.fault .inputExhausted)

end Run

end Scriptlet
