import Scriptlet.Typing.Check

/-!
# The typing rules

What it means that an expression has a type.  The rules say nothing about errors or about the order
in which they are found.  A declaration adds to the innermost frame, so a derivation relates the
scope before an expression to the scope behind it; a block leaves nothing behind.
-/

namespace Scriptlet

/-- The type of an operation on operands of these types. -/
inductive BinOp.Typed : BinOp → Ty → Ty → Ty → Prop
  | concatRight {t : Ty} : t ≠ .unit → Typed .add .string t .string
  | concatLeft {t : Ty} : t ≠ .unit → Typed .add t .string .string
  | sum {t : Ty} : t ≠ .unit → Typed .add t t t
  | difference {t : Ty} : Typed .sub t t t
  | product {t : Ty} : Typed .mul t t t
  | quotient {t : Ty} : Typed .div t t t
  | range {t : Ty} : Typed .range t t (.range t)
  | less {t : Ty} : t.isPrimitive → t ≠ .boolean → Typed .less t t .boolean
  | greater {t : Ty} : t.isPrimitive → t ≠ .boolean → Typed .greater t t .boolean
  | and : Typed .and .boolean .boolean .boolean
  | or : Typed .or .boolean .boolean .boolean

/-- The type of the elements of a type. -/
inductive Ty.Indexed : Ty → Ty → Prop
  | array {t : Ty} : Indexed (.array t) t
  | string : Indexed .string .char

/-- The type of what a loop visits. -/
inductive Ty.Visited : Ty → Ty → Prop
  | array {t : Ty} : Visited (.array t) t
  | range {t : Ty} : Visited (.range t) t

/-- The type of a call of a built-in function with arguments of these types. -/
inductive Builtin.Typed : Builtin → List Ty → Ty → Prop
  | print {ts : List Ty} : (∀ t ∈ ts, t.isPrimitive) → Typed .print ts .unit
  | println {ts : List Ty} : (∀ t ∈ ts, t.isPrimitive) → Typed .println ts .unit
  | arrayOf {t : Ty} {ts : List Ty} : (∀ u ∈ ts, u = t) → Typed .arrayOf (t :: ts) (.array t)
  | readln : Typed .readln [] .string
  | readlnInt : Typed .readlnInt [] .int
  | readlnBoolean : Typed .readlnBoolean [] .boolean

/-- The type of a call; a name of a built-in function means that function. -/
inductive Context.Calls (Γ : Context) : String → List Ty → Ty → Prop
  | builtin {name : String} {b : Builtin} {ts : List Ty} {t : Ty} :
      Builtin.ofName? name = some b → b.Typed ts t → Calls Γ name ts t
  | user {name : String} {sig : Signature} :
      Builtin.ofName? name = none → Γ.signatures.get? name = some sig →
      Calls Γ name sig.params sig.result

mutual

/-- Derives that an expression has a type in a scope and leaves another scope behind. -/
inductive HasType (Γ : Context) : Scope Ty → Expr → Ty → Scope Ty → Prop
  | int {Δ : Scope Ty} {s : Span} {n : Nat} : HasType Γ Δ (.int s n) .int Δ
  | bool {Δ : Scope Ty} {s : Span} {b : Bool} : HasType Γ Δ (.bool s b) .boolean Δ
  | char {Δ : Scope Ty} {s : Span} {c : Char} : HasType Γ Δ (.char s c) .char Δ
  | str {Δ : Scope Ty} {s : Span} {v : String} : HasType Γ Δ (.str s v) .string Δ
  | var {Δ : Scope Ty} {s : Span} {name : String} {t : Ty} :
      Δ.get? name = some t → HasType Γ Δ (.var s name) t Δ
  | index {Δ Δ' : Scope Ty} {s : Span} {base : Name} {position : Expr} {t u : Ty} :
      Δ.get? base.text = some t → HasType Γ Δ position .int Δ' → t.Indexed u →
      HasType Γ Δ (.index s base position) u Δ'
  | neg {Δ Δ' : Scope Ty} {s : Span} {e : Expr} :
      HasType Γ Δ e .int Δ' → HasType Γ Δ (.neg s e) .int Δ'
  | not {Δ Δ' : Scope Ty} {s : Span} {e : Expr} :
      HasType Γ Δ e .boolean Δ' → HasType Γ Δ (.not s e) .boolean Δ'
  | parens {Δ Δ' : Scope Ty} {s : Span} {e : Expr} {t : Ty} :
      HasType Γ Δ e t Δ' → HasType Γ Δ (.parens s e) t Δ'
  | binary {Δ Δ' Δ'' : Scope Ty} {s : Span} {op : BinOp} {l r : Expr} {t u v : Ty} :
      HasType Γ Δ l t Δ' → HasType Γ Δ' r u Δ'' → op.Typed t u v →
      HasType Γ Δ (.binary s op l r) v Δ''
  | declare {Δ Δ' : Scope Ty} {s : Span} {mutable : Bool} {name : String} {value : Expr} {t : Ty} :
      HasType Γ Δ value t Δ' → Δ'.declaredHere name = false →
      HasType Γ Δ (.declare s mutable name value) .unit (Δ'.declare name t)
  | assign {Δ Δ' : Scope Ty} {s : Span} {name : String} {value : Expr} {t : Ty} :
      HasType Γ Δ value t Δ' → Δ'.get? name = some t →
      HasType Γ Δ (.assign s name value) .unit Δ'
  | call {Δ Δ' : Scope Ty} {s : Span} {name : String} {args : List Expr} {ts : List Ty} {t : Ty} :
      HasTypes Γ Δ args ts Δ' → Γ.Calls name ts t → HasType Γ Δ (.call s name args) t Δ'
  | store {Δ Δ' Δ'' : Scope Ty} {s target : Span} {base : Name} {position value : Expr}
      {t u : Ty} :
      Δ.get? base.text = some t → HasType Γ Δ position .int Δ' → t.Indexed u →
      HasType Γ Δ' value u Δ'' →
      HasType Γ Δ (.store s target base position value) .unit Δ''
  | branch {Δ Δ' Δ₁ Δ₂ : Scope Ty} {s : Span} {cond : Expr} {body otherwise : List Expr}
      {ts us : List Ty} :
      HasType Γ Δ cond .boolean Δ' → HasTypes Γ Δ'.push body ts Δ₁ →
      HasTypes Γ Δ'.push otherwise us Δ₂ →
      HasType Γ Δ (.branch s cond body otherwise) .unit Δ'
  | forIn {Δ Δ' Δ₁ : Scope Ty} {s : Span} {name : String} {iterable : Expr} {body : List Expr}
      {t u : Ty} {ts : List Ty} :
      HasType Γ Δ iterable t Δ' → t.Visited u →
      HasTypes Γ (Δ'.push.declare name u) body ts Δ₁ →
      HasType Γ Δ (.forIn s name iterable body) .unit Δ'
  | loop {Δ Δ' Δ₁ : Scope Ty} {s : Span} {cond : Expr} {body : List Expr} {ts : List Ty} :
      HasType Γ Δ cond .boolean Δ' → HasTypes Γ Δ'.push body ts Δ₁ →
      HasType Γ Δ (.loop s cond body) .unit Δ'
  | returnUnit {Δ : Scope Ty} {s : Span} :
      Γ.result = .unit → HasType Γ Δ (.returnUnit s) .unit Δ
  | returnValue {Δ Δ' : Scope Ty} {s : Span} {value : Expr} :
      HasType Γ Δ value Γ.result Δ' → HasType Γ Δ (.returnValue s value) .unit Δ'

/-- Derives the types of several expressions, one after the other. -/
inductive HasTypes (Γ : Context) : Scope Ty → List Expr → List Ty → Scope Ty → Prop
  | nil {Δ : Scope Ty} : HasTypes Γ Δ [] [] Δ
  | cons {Δ Δ' Δ'' : Scope Ty} {e : Expr} {es : List Expr} {t : Ty} {ts : List Ty} :
      HasType Γ Δ e t Δ' → HasTypes Γ Δ' es ts Δ'' → HasTypes Γ Δ (e :: es) (t :: ts) Δ''

end

/-- The scope at the start of a function: its parameters. -/
def Fun.scope (f : Fun) : Scope Ty := [f.params.map fun p => (p.name, Ty.ofRef p.type)]

/-- A function whose body obeys the rules. -/
def Fun.WellTyped (signatures : Frame Signature) (f : Fun) : Prop :=
  (f.params.map Param.name).Nodup ∧
    ∃ ts Δ, HasTypes ⟨signatures, Ty.ofRef? f.result⟩ f.scope f.body ts Δ

/-- The signatures of the functions of a program, by name. -/
def Program.signatures (p : Program) : Frame Signature :=
  p.functions.map fun f => (f.name, Signature.ofFun f)

/-- A program that obeys the rules: function names are distinct, there is a function to start with
and it has no parameters, and every function is well typed. -/
def Program.WellTyped (p : Program) : Prop :=
  (p.functions.map Fun.name).Nodup ∧
    (∃ f ∈ p.functions, f.name = "main" ∧ f.params = []) ∧
    ∀ f ∈ p.functions, f.WellTyped p.signatures

end Scriptlet
