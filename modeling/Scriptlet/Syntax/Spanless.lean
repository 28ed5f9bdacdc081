import Scriptlet.Syntax

/-!
# Trees without places

Two trees are the same program if they differ in spans alone.  Forgetting the spans makes this
equality.
-/

namespace Scriptlet

/-- An identifier without its place. -/
def Name.spanless (n : Name) : Name := ⟨n.text, .zero⟩

namespace Expr

mutual

/-- An expression whose spans are all forgotten. -/
@[simp]
def spanless : Expr → Expr
  | int _ n => int .zero n
  | bool _ b => bool .zero b
  | char _ c => char .zero c
  | str _ t => str .zero t
  | var _ name => var .zero name
  | index _ base position => index .zero base.spanless position.spanless
  | neg _ e => neg .zero e.spanless
  | not _ e => not .zero e.spanless
  | parens _ e => parens .zero e.spanless
  | binary _ op l r => binary .zero op l.spanless r.spanless
  | declare _ mutable name value => declare .zero mutable name value.spanless
  | assign _ name value => assign .zero name value.spanless
  | call _ name args => call .zero name (spanlessAll args)
  | store _ _ base position value =>
    store .zero .zero base.spanless position.spanless value.spanless
  | branch _ cond body otherwise =>
    branch .zero cond.spanless (spanlessAll body) (spanlessAll otherwise)
  | forIn _ name iterable body => forIn .zero name iterable.spanless (spanlessAll body)
  | loop _ cond body => loop .zero cond.spanless (spanlessAll body)
  | returnUnit _ => returnUnit .zero
  | returnValue _ value => returnValue .zero value.spanless

/-- Several expressions whose spans are all forgotten. -/
@[simp]
def spanlessAll : List Expr → List Expr
  | [] => []
  | e :: es => e.spanless :: spanlessAll es

end

end Expr

namespace TypeRef

mutual

/-- A type whose spans are all forgotten. -/
@[simp]
def spanless : TypeRef → TypeRef
  | simple _ name => simple .zero name
  | generic _ name args => generic .zero name (spanlessAll args)

/-- Several types whose spans are all forgotten. -/
@[simp]
def spanlessAll : List TypeRef → List TypeRef
  | [] => []
  | t :: ts => t.spanless :: spanlessAll ts

end

end TypeRef

/-- A parameter whose spans are all forgotten. -/
def Param.spanless (p : Param) : Param := ⟨.zero, p.name, p.type.spanless⟩

/-- A function whose spans are all forgotten. -/
def Fun.spanless (f : Fun) : Fun :=
  ⟨.zero, f.name, f.params.map Param.spanless, f.result.map TypeRef.spanless,
   Expr.spanlessAll f.body⟩

/-- A program whose spans are all forgotten. -/
def Program.spanless (p : Program) : Program := ⟨.zero, p.functions.map Fun.spanless⟩

end Scriptlet
