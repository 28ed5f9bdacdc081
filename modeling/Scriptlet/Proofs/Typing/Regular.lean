import Scriptlet.Proofs.Typing.Program

/-!
# Regular programs

Checking leaves room for programs that go wrong when they run: operators between values they do not
work on, loops over ranges without steps, functions that end without their result, declarations that
are skipped or that a loop comes across twice.  A regular program has none of these.  That a program
is regular can be found out by following the checker through it.
-/

namespace Scriptlet

/-! ## Operators and loops -/

/-- An operator works on values of these types. -/
def BinOp.Applies : BinOp → Ty → Ty → Prop
  | .sub, l, r | .mul, l, r | .div, l, r => l = .int ∧ r = .int
  | .add, l, r => (l = .int ∧ r = .int) ∨ l = .string ∨ r = .string
  | .range, _, _ | .less, _, _ | .greater, _, _ | .and, _, _ | .or, _, _ => True

instance : (op : BinOp) → (l r : Ty) → Decidable (op.Applies l r)
  | .sub, l, r | .mul, l, r | .div, l, r => inferInstanceAs (Decidable (l = .int ∧ r = .int))
  | .add, l, r => inferInstanceAs (Decidable ((l = .int ∧ r = .int) ∨ l = .string ∨ r = .string))
  | .range, _, _ | .less, _, _ | .greater, _, _ | .and, _, _ | .or, _, _ => .isTrue trivial

/-- A loop can visit the elements of a value of this type. -/
def Ty.Walkable : Ty → Prop
  | .array _ | .range .int | .range .char => True
  | _ => False

instance : (t : Ty) → Decidable t.Walkable
  | .array _ | .range .int | .range .char => .isTrue trivial
  | .int | .string | .boolean | .char | .unit | .range .string | .range .boolean | .range .unit
  | .range (.array _) | .range (.range _) => .isFalse id

/-! ## Declarations -/

namespace Expr

/-- The name that a statement declares, if it is a declaration. -/
def declares? : Expr → Option String
  | .declare _ _ name _ => some name
  | _ => none

/-- The names that the statements of a block declare in the block itself. -/
def declaredIn (es : List Expr) : List String := es.filterMap declares?

mutual

/-- Declarations inside of the expression are statements of blocks. -/
def isTidy : Expr → Bool
  | .int .. | .bool .. | .char .. | .str .. | .var .. | .returnUnit .. => true
  | .index _ _ e | .neg _ e | .not _ e | .parens _ e | .declare _ _ _ e | .assign _ _ e
  | .returnValue _ e => e.declares?.isNone && e.isTidy
  | .binary _ _ l r =>
    l.declares?.isNone && l.isTidy && (r.declares?.isNone && r.isTidy)
  | .call _ _ args => areOperands args
  | .store _ _ _ position value =>
    position.declares?.isNone && position.isTidy && (value.declares?.isNone && value.isTidy)
  | .branch _ cond body otherwise =>
    cond.declares?.isNone && cond.isTidy && (areTidy body && areTidy otherwise)
  | .forIn _ _ iterable body => iterable.declares?.isNone && iterable.isTidy && areTidy body
  | .loop _ cond body => cond.declares?.isNone && cond.isTidy && areTidy body

/-- The same for each of several statements. -/
def areTidy : List Expr → Bool
  | [] => true
  | e :: es => e.isTidy && areTidy es

/-- The same for each of several expressions none of which is a declaration itself. -/
def areOperands : List Expr → Bool
  | [] => true
  | e :: es => e.declares?.isNone && e.isTidy && areOperands es

end

/-- An expression that is no declaration and is tidy. -/
def IsOperand (e : Expr) : Prop := e.declares? = none ∧ e.isTidy = true

theorem isOperand_iff {e : Expr} : (e.declares?.isNone && e.isTidy) = true ↔ e.IsOperand := by
  simp [IsOperand]

theorem areTidy_iff {es : List Expr} : areTidy es = true ↔ ∀ e ∈ es, e.isTidy = true := by
  induction es with
  | nil => simp [areTidy]
  | cons e es ih => simp [areTidy, ih]

theorem areOperands_iff {es : List Expr} : areOperands es = true ↔ ∀ e ∈ es, e.IsOperand := by
  induction es with
  | nil => simp [areOperands]
  | cons e es ih => simp [areOperands, IsOperand, ih]

/-! ## Returns -/

mutual

/-- A statement that never completes without a `return`: a `return`, or a conditional both of whose
branches hold such a statement. -/
def returns : Expr → Bool
  | .returnUnit .. | .returnValue .. => true
  | .branch _ _ body otherwise => someReturns body && someReturns otherwise
  | _ => false

/-- One of several statements never completes without a `return`. -/
def someReturns : List Expr → Bool
  | [] => false
  | e :: es => e.returns || someReturns es

end

end Expr

/-! ## Tidy expressions leave scopes alone -/

theorem HasTypes.scope_eq_of {Γ : Context} {es : List Expr}
    (ih : ∀ e ∈ es, ∀ {Δ Δ' : Scope Ty} {t : Ty}, e.IsOperand → HasType Γ Δ e t Δ' → Δ' = Δ) :
    ∀ {Δ Δ' : Scope Ty} {ts : List Ty}, (∀ e ∈ es, e.IsOperand) → HasTypes Γ Δ es ts Δ' →
      Δ' = Δ := by
  induction es with
  | nil =>
    intro Δ Δ' ts _ h
    cases h
    rfl
  | cons e es ihes =>
    intro Δ Δ' ts hop h
    cases h with
    | cons he hes =>
      obtain rfl := ih e List.mem_cons_self (hop e List.mem_cons_self) he
      exact ihes (fun x hx => ih x (List.mem_cons_of_mem _ hx))
        (fun x hx => hop x (List.mem_cons_of_mem _ hx)) hes

/-- A tidy expression that is no declaration leaves the scope as it was. -/
theorem HasType.scope_eq {Γ : Context} {e : Expr} : ∀ {Δ Δ' : Scope Ty} {t : Ty},
    e.IsOperand → HasType Γ Δ e t Δ' → Δ' = Δ := by
  induction e using Expr.induction with
  | int | bool | char | str | var | returnUnit =>
    intro Δ Δ' t _ h
    cases h
    rfl
  | index s base position ih =>
    intro Δ Δ' t hop h
    cases h with
    | index _ hp _ => exact ih (Expr.isOperand_iff.1 hop.2) hp
  | neg s e ih =>
    intro Δ Δ' t hop h
    cases h with
    | neg he => exact ih (Expr.isOperand_iff.1 hop.2) he
  | not s e ih =>
    intro Δ Δ' t hop h
    cases h with
    | not he => exact ih (Expr.isOperand_iff.1 hop.2) he
  | parens s e ih =>
    intro Δ Δ' t hop h
    cases h with
    | parens he => exact ih (Expr.isOperand_iff.1 hop.2) he
  | binary s op l r ihl ihr =>
    intro Δ Δ' t hop h
    obtain ⟨hl, hr⟩ := Bool.and_eq_true_iff.1 hop.2
    cases h with
    | binary htl htr _ =>
      obtain rfl := ihl (Expr.isOperand_iff.1 hl) htl
      exact ihr (Expr.isOperand_iff.1 hr) htr
  | declare s mutable name value ih =>
    intro Δ Δ' t hop h
    cases hop.1
  | assign s name value ih =>
    intro Δ Δ' t hop h
    cases h with
    | assign hv _ => exact ih (Expr.isOperand_iff.1 hop.2) hv
  | call s name args ih =>
    intro Δ Δ' t hop h
    cases h with
    | call hargs _ => exact HasTypes.scope_eq_of ih (Expr.areOperands_iff.1 hop.2) hargs
  | store s target base position value ihp ihv =>
    intro Δ Δ' t hop h
    obtain ⟨hp, hv⟩ := Bool.and_eq_true_iff.1 hop.2
    cases h with
    | store _ htp _ htv =>
      obtain rfl := ihp (Expr.isOperand_iff.1 hp) htp
      exact ihv (Expr.isOperand_iff.1 hv) htv
  | branch s cond body otherwise ihc _ _ =>
    intro Δ Δ' t hop h
    cases h with
    | branch hc _ _ => exact ihc (Expr.isOperand_iff.1 (Bool.and_eq_true_iff.1 hop.2).1) hc
  | forIn s name iterable body ihi _ =>
    intro Δ Δ' t hop h
    cases h with
    | forIn hi _ _ => exact ihi (Expr.isOperand_iff.1 (Bool.and_eq_true_iff.1 hop.2).1) hi
  | loop s cond body ihc _ =>
    intro Δ Δ' t hop h
    cases h with
    | loop hc _ => exact ihc (Expr.isOperand_iff.1 (Bool.and_eq_true_iff.1 hop.2).1) hc
  | returnValue s value ih =>
    intro Δ Δ' t hop h
    cases h with
    | returnValue hv => exact ih (Expr.isOperand_iff.1 hop.2) hv

theorem HasTypes.scope_eq {Γ : Context} {es : List Expr} {Δ Δ' : Scope Ty} {ts : List Ty}
    (hop : ∀ e ∈ es, e.IsOperand) (h : HasTypes Γ Δ es ts Δ') : Δ' = Δ :=
  HasTypes.scope_eq_of (fun _ _ => HasType.scope_eq) hop h

/-- A tidy statement leaves the innermost frame as it was, or declares a new name in it. -/
theorem HasType.frame_of_tidy {Γ : Context} {e : Expr} {F F' : Frame Ty} {Δ Δ' : Scope Ty} {t : Ty}
    (htidy : e.isTidy = true) (h : HasType Γ (F :: Δ) e t (F' :: Δ')) :
    F' = F ∨ ∃ x u, e.declares? = some x ∧ F.has x = false ∧ F' = F.declare x u := by
  cases hdecl : e.declares? with
  | none => exact .inl (List.cons.inj (h.scope_eq ⟨hdecl, htidy⟩)).1
  | some name =>
    cases e with
    | declare s mutable x value =>
      generalize hafter : F' :: Δ' = after at h
      cases h with
      | @declare _ _ _ _ _ _ u hv hnew =>
        obtain rfl := hv.scope_eq (Expr.isOperand_iff.1 htidy)
        exact .inr ⟨x, u, hdecl.symm, hnew, (List.cons.inj hafter).1⟩
    | _ => cases hdecl

/-- A tidy statement adds to the innermost frame at most the name that it declares. -/
theorem HasType.has_of_tidy {Γ : Context} {e : Expr} {F F' : Frame Ty} {Δ Δ' : Scope Ty} {t : Ty}
    (htidy : e.isTidy = true) (h : HasType Γ (F :: Δ) e t (F' :: Δ')) {y : String}
    (hy : F'.has y = true) : F.has y = true ∨ e.declares? = some y := by
  obtain rfl | ⟨x, u, hdecl, -, rfl⟩ := h.frame_of_tidy htidy
  · exact .inl hy
  · rw [Frame.has, Frame.get?_declare] at hy
    by_cases hxy : x = y
    · exact .inr (hxy ▸ hdecl)
    · rw [if_neg hxy] at hy
      exact .inl hy

/-- A tidy statement keeps the types of the variables in the innermost frame. -/
theorem HasType.get?_of_tidy {Γ : Context} {e : Expr} {F F' : Frame Ty} {Δ Δ' : Scope Ty} {t : Ty}
    (htidy : e.isTidy = true) (h : HasType Γ (F :: Δ) e t (F' :: Δ')) {y : String} {u : Ty}
    (hy : F.get? y = some u) : F'.get? y = some u := by
  obtain rfl | ⟨x, w, -, hnew, rfl⟩ := h.frame_of_tidy htidy
  · exact hy
  · have hxy : x ≠ y := by
      rintro rfl
      simp [Frame.has, hy] at hnew
    rw [Frame.get?_declare, if_neg hxy, hy]

/-- Tidy statements add to the innermost frame at most the names that they declare. -/
theorem HasTypes.has_of_tidy {Γ : Context} {es : List Expr} {F F' : Frame Ty} {Δ : Scope Ty}
    {ts : List Ty} (htidy : ∀ e ∈ es, e.isTidy = true) (h : HasTypes Γ (F :: Δ) es ts (F' :: Δ))
    {y : String} (hy : F'.has y = true) : F.has y = true ∨ y ∈ Expr.declaredIn es := by
  induction es generalizing F ts with
  | nil =>
    generalize hafter : F' :: Δ = after at h
    cases h
    obtain ⟨rfl, -⟩ := List.cons.inj hafter
    exact .inl hy
  | cons e es ih =>
    cases h with
    | cons he hes =>
      obtain ⟨F₁, rfl⟩ := he.outer
      rcases ih (fun x hx => htidy x (List.mem_cons_of_mem _ hx)) hes with hF₁ | hmem
      · rcases he.has_of_tidy (htidy e List.mem_cons_self) hF₁ with hF | hdecl
        · exact .inl hF
        · exact .inr (List.mem_filterMap.2 ⟨e, List.mem_cons_self, hdecl⟩)
      · obtain ⟨x, hx, hdecl⟩ := List.mem_filterMap.1 hmem
        exact .inr (List.mem_filterMap.2 ⟨x, List.mem_cons_of_mem _ hx, hdecl⟩)

/-- Tidy statements keep the types of the variables in the innermost frame. -/
theorem HasTypes.get?_of_tidy {Γ : Context} {es : List Expr} {F F' : Frame Ty} {Δ : Scope Ty}
    {ts : List Ty} (htidy : ∀ e ∈ es, e.isTidy = true) (h : HasTypes Γ (F :: Δ) es ts (F' :: Δ))
    {y : String} {u : Ty} (hy : F.get? y = some u) : F'.get? y = some u := by
  induction es generalizing F ts with
  | nil =>
    generalize hafter : F' :: Δ = after at h
    cases h
    obtain ⟨rfl, -⟩ := List.cons.inj hafter
    exact hy
  | cons e es ih =>
    cases h with
    | cons he hes =>
      obtain ⟨F₁, rfl⟩ := he.outer
      exact ih (fun x hx => htidy x (List.mem_cons_of_mem _ hx)) hes
        (he.get?_of_tidy (htidy e List.mem_cons_self) hy)

/-! ## Programs -/

namespace Check

/-- What a regular program obeys at an expression that is checked from this state: operators work on
their operands, and a loop can visit its elements and hides no variable from its own first lines. -/
def Regular (Γ : Context) (c : Checking) : Expr → Prop
  | .binary _ op l r =>
    ∀ t u, ((expr Γ l).run c).1 = some t → ((expr Γ r).run (after (expr Γ l) c)).1 = some u →
      op.Applies t u
  | .forIn _ _ iterable body =>
    (∀ t, ((expr Γ iterable).run c).1 = some t → t.Walkable) ∧
      ∀ x ∈ Expr.declaredIn body, c.scope.get? x = none
  | _ => True

/-- What is left of this where operators and loops may find no numbers: a loop hides no variable from
its own first lines. -/
def Settled (c : Checking) : Expr → Prop
  | .forIn _ _ _ body => ∀ x ∈ Expr.declaredIn body, c.scope.get? x = none
  | _ => True

theorem Regular.settled {Γ : Context} {c : Checking} {e : Expr} (h : Regular Γ c e) :
    Settled c e := by
  cases e with
  | forIn => exact h.2
  | _ => trivial

end Check

/-- A program that stays clear of what checking lets through. -/
structure Program.Regular (p : Program) (trace : Trace) : Prop where
  /-- Operators work on their operands; loops can visit their elements, and no declaration among the
  statements of a loop reuses a name that is visible at the loop. -/
  forms : ∀ (f : Fun) (c : Checking) (e : Expr), p.Visits trace f c e →
    Check.Regular (Check.contextOf p.signatures f) c e
  /-- A function with a result returns on every path. -/
  returns : ∀ f ∈ p.functions, Ty.ofRef? f.result ≠ .unit → Expr.someReturns f.body = true
  /-- Declarations are statements of blocks. -/
  tidy : ∀ f ∈ p.functions, Expr.areTidy f.body = true

/-- A program in which values have the types that checking gives them, though operators and loops may
find no numbers. -/
structure Program.Settled (p : Program) (trace : Trace) : Prop where
  /-- No declaration among the statements of a loop reuses a name that is visible at the loop. -/
  forms : ∀ (f : Fun) (c : Checking) (e : Expr), p.Visits trace f c e → Check.Settled c e
  /-- A function with a result returns on every path. -/
  returns : ∀ f ∈ p.functions, Ty.ofRef? f.result ≠ .unit → Expr.someReturns f.body = true
  /-- Declarations are statements of blocks. -/
  tidy : ∀ f ∈ p.functions, Expr.areTidy f.body = true

theorem Program.Regular.settled {p : Program} {trace : Trace} (h : p.Regular trace) :
    p.Settled trace :=
  ⟨fun f c e hvisits => (h.forms f c e hvisits).settled, h.returns, h.tidy⟩

/-! ## Recognising regular programs -/

namespace Check

/-- Computes what a regular program obeys at an expression. -/
def isRegular (Γ : Context) (c : Checking) : Expr → Bool
  | .binary _ op l r =>
    match ((expr Γ l).run c).1, ((expr Γ r).run (after (expr Γ l) c)).1 with
    | some t, some u => decide (op.Applies t u)
    | _, _ => true
  | .forIn _ _ iterable body =>
    ((expr Γ iterable).run c).1.all (fun t => decide t.Walkable) &&
      (Expr.declaredIn body).all fun x => (c.scope.get? x).isNone
  | _ => true

theorem regular_of_isRegular {Γ : Context} {c : Checking} {e : Expr}
    (h : isRegular Γ c e = true) : Regular Γ c e := by
  cases e with
  | binary s op l r =>
    intro t u ht hu
    simpa [isRegular, ht, hu] using h
  | forIn s name iterable body =>
    obtain ⟨hwalk, hfresh⟩ := Bool.and_eq_true_iff.1 h
    refine ⟨fun t ht => ?_, fun x hx => ?_⟩
    · simpa [ht] using hwalk
    · simpa using List.all_eq_true.1 hfresh x hx
  | _ => trivial

mutual

/-- Whether an expression and all that checking comes across in it is regular. -/
def isRegularWithin (Γ : Context) (c : Checking) : Expr → Bool
  | .int .. | .bool .. | .char .. | .str .. | .var .. | .returnUnit .. => true
  | .index _ base e => isRegularWithin Γ (after (variableType base.span base.text) c) e
  | .neg _ e | .not _ e | .parens _ e | .declare _ _ _ e | .assign _ _ e | .returnValue _ e =>
    isRegularWithin Γ c e
  | .binary s op l r =>
    isRegular Γ c (.binary s op l r) &&
      (isRegularWithin Γ c l && isRegularWithin Γ (after (expr Γ l) c) r)
  | .call _ _ args => areRegularWithin Γ c args
  | .store _ target base position value =>
    isRegularWithin Γ (after (variableType base.span base.text) c) position &&
      isRegularWithin Γ (after (do
        let b ← variableType base.span base.text
        let p ← expr Γ position
        elementType target b p) c) value
  | .branch s cond body otherwise =>
    isRegularWithin Γ c cond &&
      (areRegularWithin Γ (opened (after (do condition s (← expr Γ cond)) c)) body &&
        areRegularWithin Γ (opened (after (do
          let _ ← condition s (← expr Γ cond)
          inBlock (exprs Γ body)) c)) otherwise)
  | .forIn s name iterable body =>
    isRegular Γ c (.forIn s name iterable body) &&
      (isRegularWithin Γ c iterable &&
        (((expr Γ iterable).run c).1.bind Ty.elem?).all fun u =>
          areRegularWithin Γ (after (declare name u) (opened (after (expr Γ iterable) c))) body)
  | .loop s cond body =>
    isRegularWithin Γ c cond &&
      areRegularWithin Γ (opened (after (do condition s (← expr Γ cond)) c)) body

/-- The same for several expressions, one after the other. -/
def areRegularWithin (Γ : Context) (c : Checking) : List Expr → Bool
  | [] => true
  | e :: es => isRegularWithin Γ c e && areRegularWithin Γ (after (expr Γ e) c) es

end

theorem isRegularWithin_of_mem {Γ : Context} {before rest : List Expr} {e : Expr} {c : Checking}
    (h : areRegularWithin Γ c (before ++ e :: rest) = true) :
    isRegularWithin Γ (after (exprs Γ before) c) e = true := by
  induction before generalizing c with
  | nil => exact (Bool.and_eq_true_iff.1 h).1
  | cons x before ih => exact ih (Bool.and_eq_true_iff.1 h).2

theorem isRegularWithin_of_enters {Γ : Context} {c c' : Checking} {e e' : Expr}
    (h : isRegularWithin Γ c e = true) (henters : Enters Γ c e c' e') :
    isRegularWithin Γ c' e' = true := by
  cases henters with
  | index | neg | not | parens | declared | assigned | returned => exact h
  | left => exact (Bool.and_eq_true_iff.1 (Bool.and_eq_true_iff.1 h).2).1
  | right => exact (Bool.and_eq_true_iff.1 (Bool.and_eq_true_iff.1 h).2).2
  | argument => exact isRegularWithin_of_mem h
  | position | tested | held => exact (Bool.and_eq_true_iff.1 h).1
  | stored => exact (Bool.and_eq_true_iff.1 h).2
  | taken =>
    exact isRegularWithin_of_mem (Bool.and_eq_true_iff.1 (Bool.and_eq_true_iff.1 h).2).1
  | otherwise =>
    exact isRegularWithin_of_mem (Bool.and_eq_true_iff.1 (Bool.and_eq_true_iff.1 h).2).2
  | iterable => exact (Bool.and_eq_true_iff.1 (Bool.and_eq_true_iff.1 h).2).1
  | round ht hu =>
    have hbody := (Bool.and_eq_true_iff.1 (Bool.and_eq_true_iff.1 h).2).2
    rw [ht, Option.bind_some, hu] at hbody
    exact isRegularWithin_of_mem hbody
  | repeated => exact isRegularWithin_of_mem (Bool.and_eq_true_iff.1 h).2

theorem isRegular_of_within {Γ : Context} {c : Checking} {e : Expr}
    (h : isRegularWithin Γ c e = true) : isRegular Γ c e = true := by
  cases e with
  | binary | forIn => exact (Bool.and_eq_true_iff.1 h).1
  | _ => rfl

/-- What was computed for an expression holds wherever checking comes. -/
theorem regular_of_visits {Γ : Context} {c c' : Checking} {e e' : Expr}
    (h : isRegularWithin Γ c e = true) (hvisits : Visits Γ c e c' e') : Regular Γ c' e' := by
  induction hvisits with
  | here => exact regular_of_isRegular (isRegular_of_within h)
  | step henters _ ih => exact ih (isRegularWithin_of_enters h henters)

/-- Whether the bodies of functions are regular, checked one after the other. -/
def areRegularFunctions (signatures : Frame Signature) (c : Checking) : List Fun → Bool
  | [] => true
  | f :: fs =>
    areRegularWithin (contextOf signatures f) (after (enter f) c) f.body &&
      areRegularFunctions signatures (after (function signatures f) c) fs

theorem areRegularWithin_of_mem {signatures : Frame Signature} {before rest : List Fun} {f : Fun}
    {c : Checking} (h : areRegularFunctions signatures c (before ++ f :: rest) = true) :
    areRegularWithin (contextOf signatures f)
      (after (do functions signatures before; enter f) c) f.body = true := by
  induction before generalizing c with
  | nil => exact (Bool.and_eq_true_iff.1 h).1
  | cons g before ih => exact ih (Bool.and_eq_true_iff.1 h).2

end Check

/-- Whether a program is regular, as far as it can be told by following the checker. -/
def Program.isRegular (p : Program) (trace : Trace) : Bool :=
  let (known, c) := (Check.signatures p).run { trace }
  Check.areRegularFunctions known c p.functions &&
    (p.functions.all (fun f => Ty.ofRef? f.result = .unit || Expr.someReturns f.body) &&
      p.functions.all fun f => Expr.areTidy f.body)

/-- A program that is found to be regular is regular. -/
theorem Program.regular_of_isRegular {p : Program} {trace : Trace} (h : p.WellTyped)
    (hregular : p.isRegular trace = true) : p.Regular trace := by
  rw [Program.isRegular, h.run_signatures trace] at hregular
  obtain ⟨hforms, hrest⟩ := Bool.and_eq_true_iff.1 hregular
  obtain ⟨hreturns, htidy⟩ := Bool.and_eq_true_iff.1 hrest
  refine ⟨?_, ?_, fun f hf => List.all_eq_true.1 htidy f hf⟩
  · intro f c e hvisits
    cases hvisits with
    | body hknown hfunctions hbody hvisits =>
      obtain ⟨rfl, rfl⟩ := Prod.mk.inj ((h.run_signatures trace).symm.trans hknown)
      rw [hfunctions] at hforms
      have hwithin := Check.areRegularWithin_of_mem hforms
      rw [hbody] at hwithin
      exact Check.regular_of_visits (Check.isRegularWithin_of_mem hwithin) hvisits
  · intro f hf hresult
    simpa [hresult] using List.all_eq_true.1 hreturns f hf

end Scriptlet
