import Scriptlet.Token

/-!
# Syntax trees

Expressions, type references, functions and programs.  Statements are expressions too: they may
stand wherever an expression may.  Every node says with a span where it was read.
-/

namespace Scriptlet

/-- Operators with two operands. -/
inductive BinOp
  | range | sub | add | mul | div | less | greater | and | or
deriving DecidableEq

namespace BinOp

/-- The token of an operator. -/
def token : BinOp → Token
  | range => .rangeOp
  | sub => .symbol .minus
  | add => .symbol .plus
  | mul => .symbol .star
  | div => .symbol .slash
  | less => .symbol .less
  | greater => .symbol .greater
  | and => .andOp
  | or => .orOp

/-- The operator as messages name it. -/
def kind : BinOp → String
  | range => "Range"
  | sub => "Sub"
  | add => "Add"
  | mul => "Mul"
  | div => "Div"
  | less => "LessThan"
  | greater => "MoreThan"
  | and => "And"
  | or => "Or"

end BinOp

/-- An identifier with its place. -/
structure Name where
  /-- The identifier. -/
  text : String
  /-- Where it stands. -/
  span : Span
deriving DecidableEq

/-- Expressions and statements. -/
inductive Expr
  /-- A number. -/
  | int (span : Span) (value : Nat)
  /-- A truth value. -/
  | bool (span : Span) (value : Bool)
  /-- A character. -/
  | char (span : Span) (value : Char)
  /-- A text. -/
  | str (span : Span) (value : String)
  /-- The variable `name`. -/
  | var (span : Span) (name : String)
  /-- The element `base[position]`. -/
  | index (span : Span) (base : Name) (position : Expr)
  /-- The negation `-operand`. -/
  | neg (span : Span) (operand : Expr)
  /-- The negation `!operand`. -/
  | not (span : Span) (operand : Expr)
  /-- The expression `(inner)`. -/
  | parens (span : Span) (inner : Expr)
  /-- The operation `left op right`. -/
  | binary (span : Span) (op : BinOp) (left right : Expr)
  /-- The declaration `var name = value`, or `val name = value` when not mutable. -/
  | declare (span : Span) (mutable : Bool) (name : String) (value : Expr)
  /-- The assignment `name = value`. -/
  | assign (span : Span) (name : String) (value : Expr)
  /-- The call `name(args)`. -/
  | call (span : Span) (name : String) (args : List Expr)
  /-- The assignment `base[position] = value`, with the place of `base[position]`. -/
  | store (span target : Span) (base : Name) (position value : Expr)
  /-- The conditional `if (cond) body else otherwise`; without `else` the last list is empty. -/
  | branch (span : Span) (cond : Expr) (body otherwise : List Expr)
  /-- The loop `for (name in iterable) body`. -/
  | forIn (span : Span) (name : String) (iterable : Expr) (body : List Expr)
  /-- The loop `while (cond) body`. -/
  | loop (span : Span) (cond : Expr) (body : List Expr)
  /-- A `return` without a value. -/
  | returnUnit (span : Span)
  /-- A `return` of `value`. -/
  | returnValue (span : Span) (value : Expr)

namespace Expr

/-- Where an expression stands. -/
def span : Expr → Span
  | int s _ | bool s _ | char s _ | str s _ | var s _ | index s _ _ | neg s _ | not s _
  | parens s _ | binary s _ _ _ | declare s _ _ _ | assign s _ _ | call s _ _ | store s _ _ _ _
  | branch s _ _ _ | forIn s _ _ _ | loop s _ _ | returnUnit s | returnValue s _ => s

/-- The form of an expression as messages name it. -/
def kind : Expr → String
  | int .. => "IntLiteral"
  | bool .. => "BoolLiteral"
  | char .. => "CharLiteral"
  | str .. => "StrLiteral"
  | var .. => "Ident"
  | index .. => "GetByIndex"
  | neg .. => "Neg"
  | not .. => "BoolNeg"
  | parens .. => "Parens"
  | binary _ op _ _ => op.kind
  | declare .. => "Binding"
  | assign .. => "Set"
  | call .. => "Call"
  | store .. => "SetByIndex"
  | branch .. => "If"
  | forIn .. => "For"
  | loop .. => "While"
  | returnUnit .. | returnValue .. => "Return"

/-- Whether an expression is run for its effect and has no value of its own. -/
def isStatement : Expr → Bool
  | declare .. | assign .. | store .. | branch .. | forIn .. | loop .. | returnUnit ..
  | returnValue .. => true
  | _ => false

end Expr

/-- A type as it is written. -/
inductive TypeRef
  /-- A plain name. -/
  | simple (span : Span) (name : String)
  /-- A name with arguments between angle brackets. -/
  | generic (span : Span) (name : String) (args : List TypeRef)

namespace TypeRef

/-- Where a type stands. -/
def span : TypeRef → Span
  | simple s _ | generic s _ _ => s

/-- The form of a type as messages name it. -/
def kind : TypeRef → String
  | simple .. => "SimpleType"
  | generic .. => "GenericType"

end TypeRef

/-- A parameter of a function. -/
structure Param where
  /-- Where it stands. -/
  span : Span
  /-- Its name. -/
  name : String
  /-- Its declared type. -/
  type : TypeRef

/-- A function. -/
structure Fun where
  /-- Where it stands. -/
  span : Span
  /-- Its name. -/
  name : String
  /-- Its parameters. -/
  params : List Param
  /-- Its declared result type. -/
  result : Option TypeRef
  /-- Its statements. -/
  body : List Expr

/-- A program: its functions in order. -/
structure Program where
  /-- The stretch from the first to the last token. -/
  span : Span
  /-- The functions in the order in which they stand. -/
  functions : List Fun

/-- Anything that a rule of the grammar reads. -/
inductive Fragment
  /-- A whole program. -/
  | program (p : Program)
  /-- A function. -/
  | function (f : Fun)
  /-- A parameter. -/
  | param (p : Param)
  /-- A type. -/
  | type (t : TypeRef)
  /-- An expression or statement. -/
  | expr (e : Expr)
  /-- The statements between two braces. -/
  | body (statements : List Expr)

/-- The form of a fragment as messages name it. -/
def Fragment.kind : Fragment → String
  | program _ => "Program"
  | function _ => "Fun"
  | param _ => "Param"
  | type t => t.kind
  | expr e => e.kind
  | body _ => "list"

/-- Where a fragment stands; a list of statements has no place of its own. -/
def Fragment.span? : Fragment → Option Span
  | program p => some p.span
  | function f => some f.span
  | param p => some p.span
  | type t => some t.span
  | expr e => some e.span
  | body _ => none

end Scriptlet
