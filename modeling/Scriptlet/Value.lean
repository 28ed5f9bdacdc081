import Scriptlet.Token

/-!
# Values

What programs compute with.  Arrays are kept in a heap and values refer to them by handles, so two
variables may share an array.
-/

namespace Scriptlet

/-- The place of an array in the heap. -/
structure Handle where
  /-- The number of the array, counted in the order of creation. -/
  id : Nat
deriving DecidableEq

/-- A value. -/
inductive Value
  /-- A number. -/
  | int (n : Int)
  /-- A truth value. -/
  | bool (b : Bool)
  /-- A text. -/
  | str (s : CodeText)
  /-- A character, or a place between characters that a range passes over. -/
  | char (c : CodePoint)
  /-- The value of what has none. -/
  | unit
  /-- An array in the heap. -/
  | array (h : Handle)
  /-- A range with both ends included. -/
  | range (start stop : Value)
deriving DecidableEq

namespace Value

/-- The kind of a value as messages name it. -/
def kind : Value → String
  | int _ => "Int"
  | bool _ => "Boolean"
  | str _ => "String"
  | char _ => "Char"
  | unit => "Unit"
  | array _ => "Array"
  | range _ _ => "Range"

/-- Whether a value counts as true where a condition is wanted. -/
def truth : Value → Bool
  | bool b => b
  | int n => n ≠ 0
  | str s => !s.isEmpty
  | _ => true

/-- A value as it is shown inside arrays and ranges; `array` shows the arrays. -/
def describe? (array : Handle → Option CodeText) : Value → Option CodeText
  | int n => some (toString n)
  | bool b => some (Token.describeBool b)
  | str s => some (Text.Quoted.quote s)
  | char c => some ("'" ++ CodeText.singleton c ++ "'")
  | unit => some "Unit"
  | .array h => array h
  | range a b => do return (← a.describe? array) ++ ".." ++ (← b.describe? array)

end Value

end Scriptlet
