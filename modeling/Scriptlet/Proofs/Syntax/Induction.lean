import Scriptlet.Syntax

/-!
# Parts of expressions

Expressions hold lists of expressions: arguments, and the statements of blocks.  The induction
principle here gives, for such a list, the hypothesis for every expression in it.  `Expr.Within` says
that an expression occurs in another one.
-/

namespace Scriptlet

/-- Induction over expressions, with the hypothesis for each member of a list of expressions. -/
@[elab_as_elim]
theorem Expr.induction {P : Expr → Prop}
    (int : ∀ s n, P (.int s n))
    (bool : ∀ s b, P (.bool s b))
    (char : ∀ s c, P (.char s c))
    (str : ∀ s v, P (.str s v))
    (var : ∀ s name, P (.var s name))
    (index : ∀ s base position, P position → P (.index s base position))
    (neg : ∀ s e, P e → P (.neg s e))
    (not : ∀ s e, P e → P (.not s e))
    (parens : ∀ s e, P e → P (.parens s e))
    (binary : ∀ s op l r, P l → P r → P (.binary s op l r))
    (declare : ∀ s mutable name value, P value → P (.declare s mutable name value))
    (assign : ∀ s name value, P value → P (.assign s name value))
    (call : ∀ s name args, (∀ e ∈ args, P e) → P (.call s name args))
    (store : ∀ s target base position value,
      P position → P value → P (.store s target base position value))
    (branch : ∀ s cond body otherwise,
      P cond → (∀ e ∈ body, P e) → (∀ e ∈ otherwise, P e) → P (.branch s cond body otherwise))
    (forIn : ∀ s name iterable body,
      P iterable → (∀ e ∈ body, P e) → P (.forIn s name iterable body))
    (loop : ∀ s cond body, P cond → (∀ e ∈ body, P e) → P (.loop s cond body))
    (returnUnit : ∀ s, P (.returnUnit s))
    (returnValue : ∀ s value, P value → P (.returnValue s value))
    (e : Expr) : P e := by
  refine Expr.rec (motive_1 := P) (motive_2 := fun es => ∀ e ∈ es, P e)
    int bool char str var index neg not parens binary declare assign call store branch forIn loop
    returnUnit returnValue ?_ ?_ e
  · intro e he
    cases he
  · intro e es he hes x hx
    rcases List.mem_cons.1 hx with rfl | hx
    · exact he
    · exact hes x hx

/-- The expressions directly inside an expression, in the order in which they stand. -/
def Expr.parts : Expr → List Expr
  | .int .. | .bool .. | .char .. | .str .. | .var .. | .returnUnit .. => []
  | .index _ _ e | .neg _ e | .not _ e | .parens _ e | .declare _ _ _ e | .assign _ _ e
  | .returnValue _ e => [e]
  | .binary _ _ l r => [l, r]
  | .call _ _ args => args
  | .store _ _ _ position value => [position, value]
  | .branch _ cond body otherwise => cond :: body ++ otherwise
  | .forIn _ _ iterable body => iterable :: body
  | .loop _ cond body => cond :: body

/-- Induction over expressions, with the hypothesis for each expression directly inside. -/
theorem Expr.induction_parts {P : Expr → Prop} (h : ∀ e, (∀ e' ∈ e.parts, P e') → P e)
    (e : Expr) : P e := by
  induction e using Expr.induction with
  | int | bool | char | str | var | returnUnit => exact h _ (List.forall_mem_nil _)
  | index _ _ _ ih | neg _ _ ih | not _ _ ih | parens _ _ ih | declare _ _ _ _ ih
  | assign _ _ _ ih | returnValue _ _ ih => exact h _ (List.forall_mem_singleton.2 ih)
  | binary _ _ _ _ ihl ihr | store _ _ _ _ _ ihl ihr =>
    exact h _ (List.forall_mem_cons.2 ⟨ihl, List.forall_mem_singleton.2 ihr⟩)
  | call _ _ _ ih => exact h _ ih
  | branch _ _ _ _ ihc ihb iho =>
    exact h _ (List.forall_mem_cons.2 ⟨ihc, List.forall_mem_append.2 ⟨ihb, iho⟩⟩)
  | forIn _ _ _ _ ihi ihb => exact h _ (List.forall_mem_cons.2 ⟨ihi, ihb⟩)
  | loop _ _ _ ihc ihb => exact h _ (List.forall_mem_cons.2 ⟨ihc, ihb⟩)

/-- The first expression is the second one or occurs somewhere inside of it. -/
inductive Expr.Within : Expr → Expr → Prop
  | self {e : Expr} : Within e e
  | part {e e' e'' : Expr} : e' ∈ e.parts → Within e'' e' → Within e'' e

end Scriptlet
