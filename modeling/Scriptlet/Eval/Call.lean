import Scriptlet.Eval.Builtins
import Scriptlet.Eval.Step

/-!
# Calls and programs

A call finds a function by its name, built-in functions first, and runs its body with nothing but
the parameters in scope.  Calls may be nested to a given depth.
-/

namespace Scriptlet

/-- The function of a program that a name refers to: the first one of that name. -/
def Program.find? (p : Program) (name : String) : Option Fun :=
  p.functions.find? fun f => f.name = name

/-- The variables at the start of a call: parameters with their arguments.  Parameters without an
argument, and arguments without a parameter, are left out. -/
def Fun.frame (f : Fun) (args : List Value) : Frame Value :=
  (f.params.zip args).foldl (fun frame (p, v) => frame.declare p.name v) []

/-- How programs are run. -/
structure Settings where
  /-- How deep calls may be nested. -/
  calls : Nat
  /-- How many rounds a `while` loop may take. -/
  rounds : Nat
  /-- The scope of `for` loops. -/
  forScope : ForScope := .shared

/-- Settings whose bounds are only meant to stop runaway programs. -/
def Settings.standard : Settings where
  calls := 500
  rounds := 1000000000000000

namespace Run

/-- The value of a function from how its body ends. -/
def resultOf (body : Run Completion) : Run Value := fun s =>
  match body.run s with
  | (.ok .normal, t) => (.ok .unit, t)
  | (.ok (.returned v), t) => (.ok v, t)
  | (.error (.returned v), t) => (.ok v, t)
  | (.error e, t) => (.error e, t)

/-- Writes a call to the trace, with the texts of its arguments. -/
def writeCall (what : String) (args : List Value) : Run Unit := do
  noteText 2 ("call " ++ what ++ "(" ++ CodeText.joinWith ", " (← textsOf args) ++ ")")

/-- Notes a call, where the trace keeps calls. -/
def noteCall (what : String) (args : List Value) : Run Unit := do
  if ← keeps 2 then writeCall what args

end Run

namespace Program

open Run

/-- Calls a function by name, where `user` runs the functions of the program. -/
def dispatch (p : Program) (user : Fun → List Value → Run Value) (name : String)
    (args : List Value) : Run Value := do
  match Builtin.ofName? name with
  | some b =>
    noteCall ("builtin " ++ name) args
    b.apply args
  | none =>
    match p.find? name with
    | none => throw (.breach (.undefinedFunction name))
    | some f =>
      noteCall name args
      let v ← user f args
      noteValue 2 ("return from " ++ name ++ ": ") v
      return v

/-- Runs a function of the program, unless calls are nested `depth` deep. -/
def invoke (p : Program) (o : Settings) : (depth : Nat) → Fun → List Value → Run Value
  | 0, _, _ => throw .tooDeep
  | depth + 1, f, args =>
    let m : Machine := ⟨p.dispatch (p.invoke o depth), o.rounds, o.forScope⟩
    inCall (f.frame args) (resultOf (m.block f.body))

/-- Calls a function by name. -/
def call (p : Program) (o : Settings) : String → List Value → Run Value :=
  p.dispatch (p.invoke o o.calls)

/-- The machine that runs forms of a program. -/
def machine (p : Program) (o : Settings) : Machine := ⟨p.call o, o.rounds, o.forScope⟩

/-- Runs a program from the function to start with. -/
def run (p : Program) (o : Settings) : Run Value := do
  note 1 "run: main"
  let v ← p.call o "main" []
  note 1 "run: finished"
  return v

end Program

end Scriptlet
