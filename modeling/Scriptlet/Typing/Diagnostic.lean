import Scriptlet.Typing.Ty

/-!
# Diagnostics

What the checker finds wrong with a program: the causes and their wording.
-/

namespace Scriptlet

/-- A violation of the typing rules. -/
inductive Problem
  /-- A second function of the same name. -/
  | functionRedefined (name : String)
  /-- There is no function to start with. -/
  | mainMissing
  /-- The function to start with has parameters. -/
  | mainHasParams
  /-- A second declaration of a name in one frame. -/
  | variableRedefined (name : String)
  /-- A name that no frame declares. -/
  | variableUnknown (name : String)
  /-- Assignment of a value of another type. -/
  | variableMismatch (name : String)
  /-- A sign before something that is no number. -/
  | negNotInt
  /-- A logical negation of something that is no truth value. -/
  | notNotBoolean
  /-- Truth values have no order. -/
  | compareBooleans
  /-- Values of the type have no order. -/
  | compareOthers
  /-- An operand of a connective that is no truth value. -/
  | connectiveNotBoolean
  /-- Two operands of different types. -/
  | operandsDiffer (left right : Ty)
  /-- Addition of something without a value. -/
  | addUnit
  /-- A position that is no number. -/
  | indexNotInt
  /-- Something that has no elements. -/
  | notIndexable
  /-- A value that cannot be printed. -/
  | unprintable (t : Ty)
  /-- An array without elements. -/
  | arrayEmpty
  /-- An array with elements of different types. -/
  | arrayMixed
  /-- Arguments for a function that takes none. -/
  | takesNoArguments (name : String)
  /-- A call of a function that does not exist. -/
  | functionUnknown (name : String)
  /-- Arguments of other types, or another number of them. -/
  | argumentsMismatch (name : String)
  /-- A condition that is no truth value. -/
  | conditionNotBoolean
  /-- A loop over something that is neither an array nor a range. -/
  | notIterable
  /-- A `return` of another type than the function declares. -/
  | returnMismatch (expected found : Ty)
deriving DecidableEq

/-- The wording of a problem. -/
def Problem.message : Problem → String
  | functionRedefined name => "function " ++ name ++ " already defined"
  | mainMissing => "main function not found"
  | mainHasParams => "main must accept no arguments"
  | variableRedefined name => "variable " ++ name ++ " already defined in this scope"
  | variableUnknown name => "variable " ++ name ++ " not found in scope"
  | variableMismatch name => "variable " ++ name ++ " found but it has different type"
  | negNotInt => "negation only applicable to Int type"
  | notNotBoolean => "boolean negation only applicable to Boolean type"
  | compareBooleans => "can't compare booleans"
  | compareOthers => "can't compare types"
  | connectiveNotBoolean => "boolean operators only applicable to booleans"
  | operandsDiffer left right => "wrong operands: " ++ left.render ++ " and " ++ right.render
  | addUnit => "it isn't possible to add items of unit type"
  | indexNotInt => "index must have Int type"
  | notIndexable => "only arrays and strings can be indexed"
  | unprintable t => "can't print value of type " ++ t.render
  | arrayEmpty => "arrayOf requires at least one argument"
  | arrayMixed => "arguments must have the same type"
  | takesNoArguments name => name ++ " takes no arguments"
  | functionUnknown name => "function " ++ name ++ " not found"
  | argumentsMismatch name => "function " ++ name ++ " found but wrong arguments"
  | conditionNotBoolean => "condition must have boolean type"
  | notIterable => "only array and range are iterable types"
  | returnMismatch expected found =>
    "wrong return type: expected " ++ expected.render ++ ", found " ++ found.render

/-- A problem with the place it points at. -/
structure Diagnostic where
  /-- The place. -/
  span : Span
  /-- The problem. -/
  problem : Problem
deriving DecidableEq

/-- The wording of a diagnostic. -/
def Diagnostic.message (d : Diagnostic) : String := d.problem.message

end Scriptlet
