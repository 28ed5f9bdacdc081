import Scriptlet.Syntax
import Scriptlet.Value

/-!
# Why a run stops

A run may stop before its end for a fault of the program that no check can exclude, for a breach of
what checking is meant to guarantee, or because a bound on the run is reached.
-/

namespace Scriptlet

/-- Faults that also checked programs have. -/
inductive Fault
  /-- A position outside of an array or a text. -/
  | indexOutOfRange
  /-- A division by zero. -/
  | divisionByZero
  /-- Reading behind the last line. -/
  | inputExhausted
  /-- A line that is no number. -/
  | notAnInt
  /-- A line that is no truth value. -/
  | notABoolean
deriving DecidableEq

/-- The wording of a fault. -/
def Fault.message : Fault → String
  | indexOutOfRange => "Index out of range"
  | divisionByZero => "Division by zero"
  | inputExhausted => "Failed to read line"
  | notAnInt => "Failed to parse Int from input"
  | notABoolean => "Failed to parse Boolean from input"

/-- Breaches of what checking is meant to guarantee. -/
inductive Breach
  /-- A variable that is not declared. -/
  | undefinedVariable (name : String)
  /-- An assignment to a variable that is not declared. -/
  | undefinedTarget (name : String)
  /-- A call of a function that does not exist. -/
  | undefinedFunction (name : String)
  /-- Something else where a number is wanted. -/
  | notAnInt (kind : String)
  /-- An element of something that has none. -/
  | notIndexable (kind : String)
  /-- An assignment to an element that cannot be assigned. -/
  | notStorable (kind : String)
  /-- A loop over something that has no elements. -/
  | notIterable (kind : String)
  /-- A comparison of values that have no order. -/
  | notComparable (left right : String)
  /-- An operator that does not work on two values. -/
  | unsupported (op : BinOp)
  /-- A fragment of a program that has no value. -/
  | notEvaluable (kind : String)
  /-- A fragment of a program that has no type. -/
  | notCheckable (kind : String)
deriving DecidableEq

/-- The wording of a breach. -/
def Breach.message : Breach → String
  | undefinedVariable name => "undefined variable " ++ name
  | undefinedTarget name => "assignment to undefined variable " ++ name
  | undefinedFunction name => "function " ++ name ++ " not found"
  | notAnInt kind => "expected Int, got " ++ kind
  | notIndexable kind => "cannot index " ++ kind
  | notStorable kind => "cannot assign to index on type " ++ kind
  | notIterable kind => "cannot iterate over " ++ kind
  | notComparable left right => "cannot compare " ++ left ++ " and " ++ right
  | unsupported op => "unsupported operator " ++ op.kind
  | notEvaluable kind => "evaluate: unexpected node type " ++ kind
  | notCheckable kind => "check: unexpected node type " ++ kind

/-- Why a run stopped. -/
inductive Stop
  /-- A `return` inside an expression, on its way to the call around it. -/
  | returned (v : Value)
  /-- A fault. -/
  | fault (f : Fault)
  /-- A breach. -/
  | breach (b : Breach)
  /-- A comparison of two units, for which not even a breach is defined. -/
  | unitOrder
  /-- A range from a character to something else, for which not even a breach is defined. -/
  | rangeEnd
  /-- Statements without a place, for which not even a breach is defined. -/
  | noPlace
  /-- A line with more digits than a number can be converted from, for which not even a breach is
  defined. -/
  | overlong
  /-- A text to print in which a surrogate stands, so that it cannot be encoded. -/
  | unprintable
  /-- A line for this level of the trace in which a surrogate stands, so that it cannot be encoded. -/
  | untraceable (level : Nat)
  /-- Calls, or arrays inside arrays, are nested too deep. -/
  | tooDeep
  /-- A loop took more rounds than the run was given. -/
  | outOfRounds
deriving DecidableEq

end Scriptlet
