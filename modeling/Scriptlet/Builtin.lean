import Scriptlet.Typing.Ty

/-!
# Built-in functions

The functions that every program can call.  A name of one of them never refers to a function of
the program.
-/

namespace Scriptlet

/-- A built-in function. -/
inductive Builtin
  | arrayOf | print | println | readln | readlnBoolean | readlnInt
deriving DecidableEq

namespace Builtin

/-- Every built-in function, by name. -/
def all : List Builtin := [arrayOf, print, println, readln, readlnBoolean, readlnInt]

/-- The name it is called by. -/
def name : Builtin → String
  | arrayOf => "arrayOf"
  | print => "print"
  | println => "println"
  | readln => "readln"
  | readlnBoolean => "readlnBoolean"
  | readlnInt => "readlnInt"

/-- The built-in function of a name. -/
def ofName? (name : String) : Option Builtin := all.find? fun b => b.name = name

/-- Number of arguments, where it is fixed. -/
def arity? : Builtin → Option Nat
  | arrayOf | print | println => none
  | readln | readlnBoolean | readlnInt => some 0

/-- Whether so many arguments are taken. -/
def takes (b : Builtin) (count : Nat) : Bool := b.arity?.all fun arity => count = arity

/-- Type of the result, where it does not depend on the arguments. -/
def result? : Builtin → Option Ty
  | arrayOf => none
  | print | println => some .unit
  | readln => some .string
  | readlnBoolean => some .boolean
  | readlnInt => some .int

/-- How a built-in function is shown. -/
def describe (b : Builtin) : String := "<builtin " ++ b.name ++ ">"

end Builtin

end Scriptlet
