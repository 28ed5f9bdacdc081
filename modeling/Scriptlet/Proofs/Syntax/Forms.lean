import Scriptlet.Proofs.Syntax.Induction

/-!
# The forms in a form

`Expr.forms` lists the forms that occur in a form.  Which variables a form names, which functions it
calls and whether there is a `while` loop in it are questions about the forms of this list, each
asked of one form at a time.
-/

namespace Scriptlet

namespace Expr

mutual

/-- The forms that occur in a form, itself included, in the order in which they start. -/
def forms : Expr → List Expr
  | int s n => [int s n]
  | bool s b => [bool s b]
  | char s c => [char s c]
  | str s t => [str s t]
  | var s name => [var s name]
  | index s base position => index s base position :: position.forms
  | neg s e => neg s e :: e.forms
  | not s e => not s e :: e.forms
  | parens s e => parens s e :: e.forms
  | binary s op l r => binary s op l r :: (l.forms ++ r.forms)
  | declare s mutable name value => declare s mutable name value :: value.forms
  | assign s name value => assign s name value :: value.forms
  | call s name args => call s name args :: formsAll args
  | store s target base position value =>
    store s target base position value :: (position.forms ++ value.forms)
  | branch s cond body otherwise =>
    branch s cond body otherwise :: (cond.forms ++ (formsAll body ++ formsAll otherwise))
  | forIn s name iterable body => forIn s name iterable body :: (iterable.forms ++ formsAll body)
  | loop s cond body => loop s cond body :: (cond.forms ++ formsAll body)
  | returnUnit s => [returnUnit s]
  | returnValue s value => returnValue s value :: value.forms

/-- The forms that occur in several forms. -/
def formsAll : List Expr → List Expr
  | [] => []
  | e :: es => e.forms ++ formsAll es

end

theorem formsAll_eq (es : List Expr) : formsAll es = es.flatMap forms := by
  induction es with
  | nil => rfl
  | cons e es ih => rw [formsAll, ih, List.flatMap_cons]

/-- A form and what occurs in its parts. -/
theorem forms_eq (e : Expr) : e.forms = e :: formsAll e.parts := by
  cases e <;> simp [forms, parts, formsAll_eq]

theorem mem_formsAll {x : Expr} {es : List Expr} : x ∈ formsAll es ↔ ∃ e ∈ es, x ∈ e.forms := by
  rw [formsAll_eq, List.mem_flatMap]

theorem self_mem_forms (e : Expr) : e ∈ e.forms := by
  rw [forms_eq]
  exact List.mem_cons_self

/-- What occurs in a part of a form occurs in the form. -/
theorem mem_forms_of_part {e e' x : Expr} (h : e' ∈ e.parts) (hx : x ∈ e'.forms) : x ∈ e.forms := by
  rw [forms_eq]
  exact List.mem_cons_of_mem _ (mem_formsAll.2 ⟨e', h, hx⟩)

/-! ## What a form asks for by name -/

/-- The variables that a form itself reads, assigns to, declares, indexes or loops with. -/
def ownNames : Expr → List String
  | var _ name | declare _ _ name _ | assign _ name _ | forIn _ name _ _ => [name]
  | index _ base _ | store _ _ base _ _ => [base.text]
  | _ => []

/-- The variables that occur in a form. -/
def names (e : Expr) : List String := e.forms.flatMap ownNames

theorem mem_names_of_own {e : Expr} {x : String} (h : x ∈ e.ownNames) : x ∈ e.names :=
  List.mem_flatMap.2 ⟨e, e.self_mem_forms, h⟩

theorem names_part_subset {e e' : Expr} (h : e' ∈ e.parts) : e'.names ⊆ e.names := by
  intro x hx
  obtain ⟨y, hy, hx⟩ := List.mem_flatMap.1 hx
  exact List.mem_flatMap.2 ⟨y, mem_forms_of_part h hy, hx⟩

/-! ## Calls and loops -/

/-- The function that a form itself calls. -/
def callee? : Expr → Option String
  | call _ name _ => some name
  | _ => none

/-- Whether a form itself is a `while` loop. -/
def isLoop : Expr → Bool
  | loop .. => true
  | _ => false

/-- There is no `while` loop in a form, and all functions that are called there are such. -/
structure Straight (Callee : String → Prop) (e : Expr) : Prop where
  loops : ∀ x ∈ e.forms, x.isLoop = false
  calls : ∀ x ∈ e.forms, ∀ name, x.callee? = some name → Callee name

theorem Straight.part {Callee : String → Prop} {e e' : Expr} (h : e.Straight Callee)
    (he' : e' ∈ e.parts) : e'.Straight Callee where
  loops x hx := h.loops x (mem_forms_of_part he' hx)
  calls x hx := h.calls x (mem_forms_of_part he' hx)

theorem Straight.imp {Callee Callee' : String → Prop} {e : Expr} (h : e.Straight Callee)
    (himp : ∀ name, Callee name → Callee' name) : e.Straight Callee' where
  loops := h.loops
  calls x hx name hname := himp name (h.calls x hx name hname)

theorem Straight.callee {Callee : String → Prop} {span : Span} {name : String} {args : List Expr}
    (h : (call span name args).Straight Callee) : Callee name :=
  h.calls _ (self_mem_forms _) name rfl

theorem not_straight_loop {Callee : String → Prop} (span : Span) (cond : Expr) (body : List Expr) :
    ¬ (loop span cond body).Straight Callee :=
  fun h => nomatch h.loops _ (self_mem_forms _)

end Expr

end Scriptlet
