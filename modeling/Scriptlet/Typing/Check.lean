import Scriptlet.Builtin
import Scriptlet.Scope
import Scriptlet.Trace
import Scriptlet.Typing.Diagnostic

/-!
# The checker

One pass over a program collects everything that is wrong with it.  Checking an expression gives
its type, or `none` when it has none; whatever gave `none` has been reported already, so nobody
reports it a second time, and checking goes on with what follows.
-/

namespace Scriptlet

/-- The types of the parameters and of the result of a function. -/
structure Signature where
  /-- Types of the parameters. -/
  params : List Ty
  /-- Type of the result. -/
  result : Ty
deriving DecidableEq

/-- The signature that a function declares. -/
def Signature.ofFun (f : Fun) : Signature :=
  ⟨f.params.map fun p => Ty.ofRef p.type, Ty.ofRef? f.result⟩

/-- What is fixed while an expression is checked. -/
structure Context where
  /-- The signatures of the functions of the program. -/
  signatures : Frame Signature := []
  /-- The declared result type of the function around the expression. -/
  result : Ty := .unit

/-- What checking changes. -/
structure Checking where
  /-- The types of the variables. -/
  scope : Scope Ty := .empty
  /-- What was reported, in order. -/
  diagnostics : List Diagnostic := []
  /-- The trace. -/
  trace : Trace

/-- A step of checking. -/
abbrev Check := StateM Checking

namespace Check

/-! ## Steps -/

/-- Writes to the trace. -/
def note (level : Nat) (text : String) : Check Unit :=
  modify fun c => { c with trace := c.trace.write level text }

/-- Reports a problem. -/
def report (span : Span) (problem : Problem) : Check Unit := do
  modify fun c => { c with diagnostics := c.diagnostics ++ [⟨span, problem⟩] }
  note 2 ("error at " ++ span.render ++ ": " ++ problem.message)

/-- Reports a problem unless all is well. -/
def reportUnless (ok : Bool) (span : Span) (problem : Problem) : Check Unit :=
  if ok then return () else report span problem

/-- Reports a problem of an expression, which then has no type. -/
def reject (span : Span) (problem : Problem) : Check (Option Ty) := do
  report span problem
  return none

/-- The type of a variable. -/
def typeOf? (name : String) : Check (Option Ty) := return (← get).scope.get? name

/-- Declares a variable in the innermost frame. -/
def declare (name : String) (t : Ty) : Check Unit :=
  modify fun c => { c with scope := c.scope.declare name t }

/-- Checks inside a block of its own. -/
def inBlock {α : Type} (act : Check α) : Check α := do
  modify fun c => { c with scope := c.scope.push }
  let a ← act
  modify fun c => { c with scope := c.scope.pop }
  return a

/-! ## Types of forms from types of their parts -/

/-- The type of a variable that must be declared. -/
def variableType (span : Span) (name : String) : Check (Option Ty) := do
  match ← typeOf? name with
  | some t => return some t
  | none => reject span (.variableUnknown name)

/-- The type of an operand that must have one particular type. -/
def require (span : Span) (wanted : Ty) (problem : Problem) :
    Option Ty → Check (Option Ty)
  | none => return none
  | some t => if t = wanted then return some t else reject span problem

/-- The common type of two operands. -/
def sameType (span : Span) : Option Ty → Option Ty → Check (Option Ty)
  | some l, some r => if l = r then return some l else reject span (.operandsDiffer l r)
  | _, _ => return none

/-- The type of a sum, which is a text as soon as one operand is. -/
def sumType (span : Span) : Option Ty → Option Ty → Check (Option Ty)
  | some l, some r =>
    if l = .unit ∨ r = .unit then reject span .addUnit
    else if l = .string ∨ r = .string then return some .string
    else sameType span (some l) (some r)
  | _, _ => return none

/-- The type of a comparison. -/
def comparisonType (span : Span) (l r : Option Ty) : Check (Option Ty) := do
  match ← sameType span l r with
  | none => return none
  | some t =>
    if t = .boolean then reject span .compareBooleans
    else if t.isPrimitive then return some .boolean
    else reject span .compareOthers

/-- The type of a connective. -/
def connectiveType (span : Span) : Option Ty → Option Ty → Check (Option Ty)
  | some l, some r =>
    if l = .boolean ∧ r = .boolean then return some .boolean
    else reject span .connectiveNotBoolean
  | _, _ => return none

/-- The type of an operation. -/
def operationType (span : Span) (op : BinOp) (l r : Option Ty) : Check (Option Ty) :=
  match op with
  | .add => sumType span l r
  | .sub | .mul | .div => sameType span l r
  | .range => do return (← sameType span l r).map .range
  | .less | .greater => comparisonType span l r
  | .and | .or => connectiveType span l r

/-- The type of the elements of `base`; everything that is wrong with it is reported. -/
def baseElement (span : Span) : Option Ty → Check (Option Ty)
  | none => return none
  | some (.array t) => return some t
  | some .string => return some .char
  | some _ => reject span .notIndexable

/-- The type of an element at a position. -/
def elementType (span : Span) (base position : Option Ty) : Check (Option Ty) := do
  let position ← require span .int .indexNotInt position
  let elem ← baseElement span base
  return position.bind fun _ => elem

/-- Whether a condition is a truth value. -/
def condition (span : Span) (t : Option Ty) : Check Bool := do
  return (← require span .boolean .conditionNotBoolean t).isSome

/-- What a statement that succeeded under a condition gives. -/
def unitIf (ok : Bool) : Option Ty := if ok then some .unit else none

/-- Reports each argument that cannot be printed. -/
def printable (span : Span) : List Ty → Check Bool
  | [] => return true
  | t :: ts => do
    if t.isPrimitive then printable span ts
    else
      report span (.unprintable t)
      let _ ← printable span ts
      return false

/-- The type of a call of a built-in function with arguments of these types. -/
def builtinType (span : Span) (b : Builtin) (args : List Ty) : Check (Option Ty) :=
  match b with
  | .print | .println => do return unitIf (← printable span args)
  | .arrayOf =>
    match args with
    | [] => reject span .arrayEmpty
    | t :: ts =>
      if ts.all (· = t) then return some (.array t) else reject span .arrayMixed
  | .readln | .readlnBoolean | .readlnInt =>
    if b.takes args.length then return b.result? else reject span (.takesNoArguments b.name)

/-- The types of all arguments, if each of them has one. -/
def allTypes : List (Option Ty) → Option (List Ty)
  | [] => some []
  | t :: ts => t.bind fun t => (allTypes ts).map (t :: ·)

/-- The type of a call.  Where an argument has no type, the call has the type it would have with
the right arguments. -/
def callType (Γ : Context) (span : Span) (name : String) (args : List (Option Ty)) :
    Check (Option Ty) :=
  match Builtin.ofName? name with
  | some b =>
    match allTypes args with
    | none => return b.result?
    | some ts => builtinType span b ts
  | none =>
    match Γ.signatures.get? name with
    | none => reject span (.functionUnknown name)
    | some sig =>
      match allTypes args with
      | none => return some sig.result
      | some ts =>
        if ts = sig.params then return some sig.result
        else reject span (.argumentsMismatch name)

/-- Declares a variable for a value of this type. -/
def declaration (span : Span) (name : String) : Option Ty → Check (Option Ty)
  | none => return none
  | some t => do
    if (← get).scope.declaredHere name then reject span (.variableRedefined name)
    else
      declare name t
      note 2 ("declare " ++ name ++ ": " ++ t.render)
      return some .unit

/-- The type of an assignment of a value of this type. -/
def assignment (span : Span) (name : String) (value : Option Ty) : Check (Option Ty) := do
  match ← typeOf? name, value with
  | none, _ => reject span (.variableUnknown name)
  | some _, none => return none
  | some expected, some t =>
    if t = expected then return some .unit else reject span (.variableMismatch name)

/-- The type of an assignment to an element. -/
def storeType (span : Span) (target value : Option Ty) : Check (Option Ty) := do
  return (← sameType span target value).map fun _ => .unit

/-- The type of a `return` of a value of this type. -/
def returnType (Γ : Context) (span : Span) : Option Ty → Check (Option Ty)
  | none => return none
  | some t => do
    reportUnless (t = Γ.result) span (.returnMismatch Γ.result t)
    return some .unit

/-! ## Expressions -/

mutual

/-- The type of an expression. -/
def expr (Γ : Context) : Expr → Check (Option Ty)
  | .int .. => return some .int
  | .bool .. => return some .boolean
  | .char .. => return some .char
  | .str .. => return some .string
  | .var span name => variableType span name
  | .index span base position => do
    let b ← variableType base.span base.text
    let p ← expr Γ position
    elementType span b p
  | .neg span e => do require span .int .negNotInt (← expr Γ e)
  | .not span e => do require span .boolean .notNotBoolean (← expr Γ e)
  | .parens _ e => expr Γ e
  | .binary span op l r => do
    let lt ← expr Γ l
    let rt ← expr Γ r
    operationType span op lt rt
  | .declare span _ name value => do declaration span name (← expr Γ value)
  | .assign span name value => do assignment span name (← expr Γ value)
  | .call span name args => do callType Γ span name (← exprs Γ args)
  | .store span target base position value => do
    let b ← variableType base.span base.text
    let p ← expr Γ position
    -- Problems of the target are reported before the value is looked at.
    let t ← elementType target b p
    let v ← expr Γ value
    storeType span t v
  | .branch span cond body otherwise => do
    let ok ← condition span (← expr Γ cond)
    let _ ← inBlock (exprs Γ body)
    let _ ← inBlock (exprs Γ otherwise)
    return unitIf ok
  | .forIn span name iterable body => do
    match ← expr Γ iterable with
    | none => return none
    | some t =>
      match t.elem? with
      | none => reject span .notIterable
      | some elem =>
        -- The loop variable and the body share one block.
        let _ ← inBlock (do declare name elem; exprs Γ body)
        return some .unit
  | .loop span cond body => do
    let ok ← condition span (← expr Γ cond)
    let _ ← inBlock (exprs Γ body)
    return unitIf ok
  | .returnUnit span => returnType Γ span (some .unit)
  | .returnValue span value => do returnType Γ span (← expr Γ value)

/-- The types of several expressions, checked in order. -/
def exprs (Γ : Context) : List Expr → Check (List (Option Ty))
  | [] => return []
  | e :: es => do
    let t ← expr Γ e
    let ts ← exprs Γ es
    return t :: ts

end

/-! ## Programs -/

/-- Declares a parameter. -/
def param (p : Param) : Check Unit := do
  if (← get).scope.declaredHere p.name then report p.span (.variableRedefined p.name)
  else declare p.name (Ty.ofRef p.type)

/-- Declares the parameters of a function. -/
def params : List Param → Check Unit
  | [] => return ()
  | p :: ps => do
    param p
    params ps

/-- Checks a function in a scope of its own. -/
def function (signatures : Frame Signature) (f : Fun) : Check Unit := do
  note 2 ("check function " ++ f.name)
  modify fun c => { c with scope := .empty }
  params f.params
  let _ ← exprs ⟨signatures, Ty.ofRef? f.result⟩ f.body

/-- Checks several functions. -/
def functions (signatures : Frame Signature) : List Fun → Check Unit
  | [] => return ()
  | f :: fs => do
    function signatures f
    functions signatures fs

/-- The signatures of functions; of two functions of one name the first counts. -/
def collect (known : Frame Signature) : List Fun → Check (Frame Signature)
  | [] => return known
  | f :: fs => do
    if known.has f.name then
      report f.span (.functionRedefined f.name)
      collect known fs
    else collect (known ++ [(f.name, Signature.ofFun f)]) fs

/-- Checks that there is a function to start with. -/
def entryPoint (fs : List Fun) : Check Unit :=
  match fs.find? fun f => f.name = "main" with
  | none => report .zero .mainMissing
  | some f => if f.params.isEmpty then return () else report f.span .mainHasParams

/-- Collects the signatures of a program and checks that it can be started. -/
def signatures (p : Program) : Check (Frame Signature) := do
  let known ← collect [] p.functions
  entryPoint p.functions
  return known

/-- Checks a whole program. -/
def program (p : Program) : Check Unit := do
  let known ← signatures p
  functions known p.functions
  note 1 ("check: " ++ toString (← get).diagnostics.length ++ " diagnostics")

end Check

/-- Everything that is wrong with a program, and the trace of finding out. -/
def Program.check (p : Program) (trace : Trace) : List Diagnostic × Trace :=
  let c := ((Check.program p).run { trace }).2
  (c.diagnostics, c.trace)

end Scriptlet
