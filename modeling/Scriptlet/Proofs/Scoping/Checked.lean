import Scriptlet.Proofs.Scoping.Calls

/-!
# Outlines of checked programs

Checking walks through every operand once, in order, and so does an outline.  So the outline of a
frame says which names checking knows there; and where no operand that may be skipped declares
anything, every name that checking knows is bound.
-/

namespace Scriptlet

/-- The outlines say which names the frames declare. -/
abbrev Scope.Matches {α : Type} (M : List Outline) (sc : Scope α) : Prop := Scope.Alike true M sc sc

section

variable {Γ : Context} {M : List Outline} {F : Outline} {Δ Δ' : Scope Ty} {t : Ty} {ts : List Ty}

/-! ## Names that checking knows -/

theorem HasTypes.matches_of {es : List Expr}
    (ih : ∀ e ∈ es, ∀ {F : Outline} {Δ Δ' : Scope Ty} {t : Ty}, HasType Γ Δ e t Δ' →
      Δ.Matches (F :: M) → Δ'.Matches (e.behind F :: M))
    (h : HasTypes Γ Δ es ts Δ') (hΔ : Δ.Matches (F :: M)) :
    Δ'.Matches (Expr.behindAll F es :: M) := by
  induction es generalizing F Δ ts with
  | nil =>
    cases h
    exact hΔ
  | cons e es ihes =>
    cases h with
    | cons he hes =>
      exact ihes (fun x hx => ih x (List.mem_cons_of_mem _ hx)) hes (ih e List.mem_cons_self he hΔ)

/-- Checking an expression changes which names it knows as running it does. -/
theorem HasType.matches {e : Expr} : ∀ {F : Outline} {Δ Δ' : Scope Ty} {t : Ty},
    HasType Γ Δ e t Δ' → Δ.Matches (F :: M) → Δ'.Matches (e.behind F :: M) := by
  induction e using Expr.induction with
  | int | bool | char | str | var | returnUnit =>
    intro F Δ Δ' t h hΔ
    cases h
    exact hΔ
  | index s base position ih =>
    intro F Δ Δ' t h hΔ
    cases h with
    | index _ hposition _ => exact ih hposition hΔ
  | neg s e ih =>
    intro F Δ Δ' t h hΔ
    cases h with
    | neg he => exact ih he hΔ
  | not s e ih =>
    intro F Δ Δ' t h hΔ
    cases h with
    | not he => exact ih he hΔ
  | parens s e ih =>
    intro F Δ Δ' t h hΔ
    cases h with
    | parens he => exact ih he hΔ
  | binary s op l r ihl ihr =>
    intro F Δ Δ' t h hΔ
    cases h with
    | binary hl hr _ =>
      -- Checking takes both operands as run, so it knows what the outline leaves in doubt.
      exact (ihr hr (ihl hl hΔ)).weaken (Expr.behind_right_implies s op l r F)
  | declare s mutable name value ih =>
    intro F Δ Δ' t h hΔ
    cases h with
    | declare hvalue _ => exact (ih hvalue hΔ).declare name _
  | assign s name value ih =>
    intro F Δ Δ' t h hΔ
    cases h with
    | assign hvalue _ => exact ih hvalue hΔ
  | call s name args ih =>
    intro F Δ Δ' t h hΔ
    cases h with
    | call hargs _ => exact hargs.matches_of ih hΔ
  | store s target base position value ihp ihv =>
    intro F Δ Δ' t h hΔ
    cases h with
    | store _ hposition _ hvalue => exact ihv hvalue (ihp hposition hΔ)
  | branch s cond body otherwise ihc =>
    intro F Δ Δ' t h hΔ
    cases h with
    | branch hcond _ _ => exact ihc hcond hΔ
  | forIn s name iterable body ihi =>
    intro F Δ Δ' t h hΔ
    cases h with
    | forIn hiterable _ _ => exact ihi hiterable hΔ
  | loop s cond body ihc =>
    intro F Δ Δ' t h hΔ
    cases h with
    | loop hcond _ =>
      -- Checking goes through the condition once; before the first round no less is known.
      exact ihc hcond (hΔ.weaken (F.implies_doubt _))
  | returnValue s value ih =>
    intro F Δ Δ' t h hΔ
    cases h with
    | returnValue hvalue => exact ih hvalue hΔ

/-- At the start of a round checking knows the loop variable and nothing else in the frame. -/
theorem Scope.Matches.round (hΔ : Δ.Matches M) (name : String) (body : List Expr) (u : Ty) :
    Scope.Matches (Expr.roundStart name body :: M) (Δ.push.declare name u) :=
  (hΔ.push.weaken (Outline.empty_implies_leftover (name :: Expr.declaredAll body))).declare name u

/-- The parameters are what checking knows at the start of a body. -/
theorem Fun.matches_scope (f : Fun) : Scope.Matches [f.outline] f.scope := by
  refine .cons (fun x => ?_) .nil
  rw [Fun.outline, Outline.ofNames]
  induction f.params with
  | nil => exact ⟨rfl, rfl⟩
  | cons p ps ih =>
    rw [List.map_cons, List.map_cons, Frame.get?]
    by_cases hx : p.name = x
    · simp [hx, Standing.Allows]
    · simpa [hx, Ne.symm hx] using ih

end

/-! ## Operands that may be skipped -/

namespace Expr

mutual

/-- Whether no operand that may be skipped declares anything. -/
def isSteady : Expr → Bool
  | .int .. | .bool .. | .char .. | .str .. | .var .. | .returnUnit .. => true
  | .index _ _ e | .neg _ e | .not _ e | .parens _ e | .declare _ _ _ e | .assign _ _ e
  | .returnValue _ e => e.isSteady
  | .binary _ op l r => (!op.isConnective || r.declared.isEmpty) && l.isSteady && r.isSteady
  | .call _ _ args => areSteady args
  | .store _ _ _ position value => position.isSteady && value.isSteady
  | .branch _ cond body otherwise => cond.isSteady && areSteady body && areSteady otherwise
  | .forIn _ _ e body | .loop _ e body => e.isSteady && areSteady body

/-- Whether in none of the expressions an operand that may be skipped declares anything. -/
def areSteady : List Expr → Bool
  | [] => true
  | e :: es => e.isSteady && areSteady es

end

/-- Behind an operation whose right operand declares nothing if it may be skipped, what is known is
what is known once both operands have been run. -/
theorem behind_binary_of_steady {op : BinOp} {r : Expr}
    (h : (!op.isConnective || r.declared.isEmpty) = true) (s : Span) (l : Expr) (F : Outline) :
    (Expr.binary s op l r).behind F = r.behind (l.behind F) := by
  rw [behind]
  split
  · have hnil : r.declared = [] := by simp_all
    have hgrows := r.grows_behind (l.behind F)
    rw [hnil] at hgrows ⊢
    rw [hgrows.eq_of_nil]
    rfl
  · rfl

end Expr

/-- Whether in no function an operand that may be skipped declares anything. -/
def Program.isSteady (p : Program) : Bool := p.functions.all fun f => Expr.areSteady f.body

/-- Every name that checking knows is bound. -/
def Scope.Backed (M : List Outline) (Δ : Scope Ty) : Prop :=
  List.Forall₂ (fun (F : Outline) (D : Frame Ty) => ∀ x, D.get? x ≠ none → F x = .bound) M Δ

namespace Scope.Backed

variable {F : Outline} {M : List Outline} {Δ : Scope Ty}

/-- A name that checking finds is bound in some frame. -/
theorem binds (h : Δ.Backed M) {x : String} {t : Ty} (hx : Δ.get? x = some t) :
    Outline.binds M x = true := by
  induction h with
  | nil => cases hx
  | @cons F D M Δ hframe _ ih =>
    rw [Outline.binds, List.any_cons, Bool.or_eq_true]
    rw [Scope.get?, List.findSome?_cons] at hx
    cases hD : D.get? x with
    | some u => exact .inl (decide_eq_true (hframe x (by simp [hD])))
    | none =>
      rw [hD] at hx
      exact .inr (ih hx)

theorem declare (h : Δ.Backed (F :: M)) (name : String) (u : Ty) :
    Scope.Backed (F.declare name :: M) (Δ.declare name u) := by
  cases h with
  | cons hframe hrest =>
    refine .cons (fun x hx => ?_) hrest
    rw [Frame.get?_declare] at hx
    by_cases hname : x = name
    · simp [Outline.declare, hname]
    · rw [if_neg (Ne.symm hname)] at hx
      simpa [Outline.declare, hname] using hframe x hx

/-- In a new block checking knows no name. -/
theorem push (h : Δ.Backed M) (F : Outline) : Scope.Backed (F :: M) Δ.push :=
  .cons (fun _ hx => absurd rfl hx) h

/-- What may be run takes no name away. -/
theorem doubt (h : Δ.Backed (F :: M)) (names : List String) : Δ.Backed (F.doubt names :: M) := by
  cases h with
  | cons hframe hrest => exact .cons (fun x hx => (F.grows_doubt names).bound (hframe x hx)) hrest

end Scope.Backed

section

variable {Γ : Context} {M : List Outline} {F : Outline} {Δ Δ' : Scope Ty} {t : Ty} {ts : List Ty}

theorem HasTypes.backed_of {es : List Expr}
    (ih : ∀ e ∈ es, ∀ {M : List Outline} {F : Outline} {Δ Δ' : Scope Ty} {t : Ty},
      HasType Γ Δ e t Δ' → e.isSteady = true → Δ.Backed (F :: M) →
      e.uses Outline.binds M F = true ∧ Δ'.Backed (e.behind F :: M))
    (h : HasTypes Γ Δ es ts Δ') (hsteady : Expr.areSteady es = true) (hΔ : Δ.Backed (F :: M)) :
    Expr.usesAll Outline.binds M F es = true ∧ Δ'.Backed (Expr.behindAll F es :: M) := by
  induction es generalizing F Δ ts with
  | nil =>
    cases h
    exact ⟨rfl, hΔ⟩
  | cons e es ihes =>
    obtain ⟨hse, hses⟩ := Bool.and_eq_true_iff.1 hsteady
    cases h with
    | cons he hes =>
      obtain ⟨huses, hΔ₁⟩ := ih e List.mem_cons_self he hse hΔ
      obtain ⟨husesAll, hΔ₂⟩ := ihes (fun x hx => ih x (List.mem_cons_of_mem _ hx)) hes hses hΔ₁
      exact ⟨Bool.and_eq_true_iff.2 ⟨huses, husesAll⟩, hΔ₂⟩

/-- In an expression that obeys the rules, and in which no operand that may be skipped declares
anything, every name is bound where it is used. -/
theorem HasType.backed {e : Expr} : ∀ {M : List Outline} {F : Outline} {Δ Δ' : Scope Ty} {t : Ty},
    HasType Γ Δ e t Δ' → e.isSteady = true → Δ.Backed (F :: M) →
    e.uses Outline.binds M F = true ∧ Δ'.Backed (e.behind F :: M) := by
  induction e using Expr.induction with
  | int | bool | char | str | returnUnit =>
    intro M F Δ Δ' t h _ hΔ
    cases h
    exact ⟨rfl, hΔ⟩
  | var s name =>
    intro M F Δ Δ' t h _ hΔ
    cases h with
    | var hget => exact ⟨hΔ.binds hget, hΔ⟩
  | index s base position ih =>
    intro M F Δ Δ' t h hsteady hΔ
    cases h with
    | index hget hposition _ =>
      obtain ⟨huses, hΔ'⟩ := ih hposition hsteady hΔ
      exact ⟨Bool.and_eq_true_iff.2 ⟨hΔ.binds hget, huses⟩, hΔ'⟩
  | neg s e ih =>
    intro M F Δ Δ' t h hsteady hΔ
    cases h with
    | neg he => exact ih he hsteady hΔ
  | not s e ih =>
    intro M F Δ Δ' t h hsteady hΔ
    cases h with
    | not he => exact ih he hsteady hΔ
  | parens s e ih =>
    intro M F Δ Δ' t h hsteady hΔ
    cases h with
    | parens he => exact ih he hsteady hΔ
  | returnValue s e ih =>
    intro M F Δ Δ' t h hsteady hΔ
    cases h with
    | returnValue he => exact ih he hsteady hΔ
  | binary s op l r ihl ihr =>
    intro M F Δ Δ' t h hsteady hΔ
    obtain ⟨hsteady, hsr⟩ := Bool.and_eq_true_iff.1 hsteady
    obtain ⟨hop, hsl⟩ := Bool.and_eq_true_iff.1 hsteady
    cases h with
    | binary hl hr _ =>
      obtain ⟨husesl, hΔ₁⟩ := ihl hl hsl hΔ
      obtain ⟨husesr, hΔ₂⟩ := ihr hr hsr hΔ₁
      -- The one place where an operand may be skipped: then it declares nothing.
      rw [Expr.behind_binary_of_steady hop]
      exact ⟨Bool.and_eq_true_iff.2 ⟨husesl, husesr⟩, hΔ₂⟩
  | declare s mutable name value ih =>
    intro M F Δ Δ' t h hsteady hΔ
    cases h with
    | declare hvalue _ =>
      obtain ⟨huses, hΔ₁⟩ := ih hvalue hsteady hΔ
      exact ⟨huses, hΔ₁.declare name _⟩
  | assign s name value ih =>
    intro M F Δ Δ' t h hsteady hΔ
    cases h with
    | assign hvalue hget =>
      obtain ⟨huses, hΔ'⟩ := ih hvalue hsteady hΔ
      exact ⟨Bool.and_eq_true_iff.2 ⟨huses, hΔ'.binds hget⟩, hΔ'⟩
  | call s name args ih =>
    intro M F Δ Δ' t h hsteady hΔ
    cases h with
    | call hargs _ => exact hargs.backed_of ih hsteady hΔ
  | store s target base position value ihp ihv =>
    intro M F Δ Δ' t h hsteady hΔ
    obtain ⟨hsp, hsv⟩ := Bool.and_eq_true_iff.1 hsteady
    cases h with
    | store hget hposition _ hvalue =>
      obtain ⟨husesp, hΔ₁⟩ := ihp hposition hsp hΔ
      obtain ⟨husesv, hΔ₂⟩ := ihv hvalue hsv hΔ₁
      -- The base is looked up again at the end; what is bound stays bound.
      have hbase := hΔ.binds hget
      have hbase' := Outline.binds_of_grows ((position.grows_behind F).trans (value.grows_behind _))
        hbase
      refine ⟨?_, hΔ₂⟩
      rw [Expr.uses, hbase, husesp, husesv, hbase']
      rfl
  | branch s cond body otherwise ihc ihb iho =>
    intro M F Δ Δ' t h hsteady hΔ
    obtain ⟨hsteady, hso⟩ := Bool.and_eq_true_iff.1 hsteady
    obtain ⟨hsc, hsb⟩ := Bool.and_eq_true_iff.1 hsteady
    cases h with
    | branch hcond hbody hother =>
      obtain ⟨husesc, hΔ'⟩ := ihc hcond hsc hΔ
      obtain ⟨husesb, -⟩ := hbody.backed_of ihb hsb (hΔ'.push .empty)
      obtain ⟨huseso, -⟩ := hother.backed_of iho hso (hΔ'.push .empty)
      refine ⟨?_, hΔ'⟩
      rw [Expr.uses, husesc, husesb, huseso]
      rfl
  | forIn s name iterable body ihi ihb =>
    intro M F Δ Δ' t h hsteady hΔ
    obtain ⟨hsi, hsb⟩ := Bool.and_eq_true_iff.1 hsteady
    cases h with
    | forIn hiterable _ hbody =>
      obtain ⟨husesi, hΔ'⟩ := ihi hiterable hsi hΔ
      -- Whatever a round before has left, checking knows the loop variable and nothing else.
      obtain ⟨husesb, -⟩ := hbody.backed_of ihb hsb ((hΔ'.push _).declare name _)
      exact ⟨Bool.and_eq_true_iff.2 ⟨husesi, husesb⟩, hΔ'⟩
  | loop s cond body ihc ihb =>
    intro M F Δ Δ' t h hsteady hΔ
    obtain ⟨hsc, hsb⟩ := Bool.and_eq_true_iff.1 hsteady
    cases h with
    | loop hcond hbody =>
      obtain ⟨husesc, hΔ'⟩ := ihc hcond hsc (hΔ.doubt cond.declared)
      obtain ⟨husesb, -⟩ := hbody.backed_of ihb hsb (hΔ'.push .empty)
      exact ⟨Bool.and_eq_true_iff.2 ⟨husesc, husesb⟩, hΔ'⟩

/-- The parameters of a function are bound at the start of its body. -/
theorem Fun.backed_scope (f : Fun) : Scope.Backed [f.outline] f.scope := by
  cases f.matches_scope with
  | cons hframe _ =>
    refine .cons (fun x hx => ?_) .nil
    have hallows := hframe x
    rw [Fun.outline, Outline.ofNames] at hallows ⊢
    split
    · rfl
    · rename_i hnot
      rw [if_neg hnot] at hallows
      exact absurd hallows.1 hx

/-- In a program that obeys the rules, and in which no operand that may be skipped declares
anything, every name is bound where it is used. -/
theorem Program.WellTyped.uses_binds {p : Program} (h : p.WellTyped) (hsteady : p.isSteady = true) :
    p.uses Outline.binds = true := by
  refine List.all_eq_true.2 fun f hf => ?_
  obtain ⟨-, ts, Δ, hbody⟩ := h.2.2 f hf
  exact (hbody.backed_of (fun _ _ => HasType.backed) (List.all_eq_true.1 hsteady f hf)
    f.backed_scope).1

end

end Scriptlet
