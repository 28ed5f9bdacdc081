import Scriptlet.Builtin
import Scriptlet.Eval.Operators
import Scriptlet.Text.Blank
import Scriptlet.Token.Literal

/-!
# What built-in functions do

Printing, reading and making arrays.  How a line is read as a number or a truth value is pure and
stands first.
-/

namespace Scriptlet

namespace Text

/-- The number denoted by decimal digits, at least one, most significant first. -/
def digits? (cs : List Char) : Option Nat :=
  if cs ≠ [] ∧ cs.all Char.isDigit then
    some (cs.foldl (fun n c => n * 10 + (c.toNat - '0'.toNat)) 0)
  else none

/-- The number denoted by decimal digits behind an optional sign. -/
def signed? : List Char → Option Int
  | '-' :: cs => (digits? cs).map fun n => -(n : Int)
  | '+' :: cs => (digits? cs).map Int.ofNat
  | cs => (digits? cs).map Int.ofNat

/-- What stands behind an optional sign. -/
def unsigned : List Char → List Char
  | '-' :: cs => cs
  | '+' :: cs => cs
  | cs => cs

/-- The number written in a line, blanks around it left out, or why the run stops there.  Too many
digits are no fault: converting them is not even tried. -/
def readInt (line : String) : Except Stop Int :=
  let cs := strip line.toList
  match signed? cs with
  | none => .error (.fault .notAnInt)
  | some n =>
    if Literal.maxDecimalDigits < (unsigned cs).length then .error .overlong
    else if Word.InRange n then .ok n
    else .error (.fault .notAnInt)

/-- The truth value written in a line, blanks around it left out. -/
def readBoolean? (line : String) : Option Bool :=
  match String.ofList (strip line.toList) with
  | "true" => some true
  | "false" => some false
  | _ => none

end Text

/-- Runs a built-in function. -/
def Builtin.apply (b : Builtin) (args : List Value) : Run Value := do
  match b with
  | .print =>
    Run.print (CodeText.join (← Run.textsOf args))
    return .unit
  | .println =>
    Run.print (CodeText.join (← Run.textsOf args) ++ "\n")
    return .unit
  | .readln => return .str (← Run.readLine)
  | .readlnInt =>
    match Text.readInt (← Run.readLine) with
    | .ok n => return .int n
    | .error stop => throw stop
  | .readlnBoolean =>
    match Text.readBoolean? (← Run.readLine) with
    | some b => return .bool b
    | none => throw (.fault .notABoolean)
  | .arrayOf => Run.alloc args

end Scriptlet
