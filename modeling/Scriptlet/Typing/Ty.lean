import Scriptlet.Syntax

/-!
# Types

The types of values, and how a written type is resolved.  Types are compared as they are; nothing
is converted.
-/

namespace Scriptlet

/-- A type. -/
inductive Ty
  | int | string | boolean | char | unit
  /-- Arrays of one element type. -/
  | array (elem : Ty)
  /-- Ranges whose two ends have one type. -/
  | range (elem : Ty)
deriving DecidableEq

namespace Ty

/-- The outermost name of a type. -/
def kind : Ty → String
  | int => "Int"
  | string => "String"
  | boolean => "Boolean"
  | char => "Char"
  | unit => "Unit"
  | array _ => "Array"
  | range _ => "Range"

/-- The type of the elements of an array or of the ends of a range. -/
def elem? : Ty → Option Ty
  | array t | range t => some t
  | _ => none

/-- A type as it is written. -/
def render : Ty → String
  | array t => "Array<" ++ t.render ++ ">"
  | range t => "Range<" ++ t.render ++ ">"
  | t => t.kind

/-- Whether values of the type can be printed and compared as they are. -/
def isPrimitive : Ty → Bool
  | int | string | boolean | char => true
  | _ => false

/-- The types that are known by a plain name. -/
def ofName : String → Ty
  | "Int" => int
  | "String" => string
  | "Boolean" => boolean
  | "Char" => char
  | _ => unit

/-- An array type, where an array of `Unit` is no type of its own. -/
def arrayOf : Ty → Ty
  | unit => unit
  | t => array t

mutual

/-- The type that a written type denotes; one that is not recognised denotes `Unit`. -/
def ofRef : TypeRef → Ty
  | .simple _ name => ofName name
  | .generic _ name args =>
    match name, ofRefs args with
    | "Array", [t] => arrayOf t
    | _, _ => unit

/-- The types that several written types denote. -/
def ofRefs : List TypeRef → List Ty
  | [] => []
  | r :: rs => ofRef r :: ofRefs rs

end

/-- The type that an optional written type denotes; without one it is `Unit`. -/
def ofRef? : Option TypeRef → Ty
  | some r => ofRef r
  | none => unit

end Ty

end Scriptlet
