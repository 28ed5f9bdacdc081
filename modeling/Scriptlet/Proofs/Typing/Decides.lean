import Scriptlet.Proofs.Syntax.Induction
import Scriptlet.Proofs.Typing.Quiet

/-!
# Checking decides the typing rules

Checking an expression reports nothing exactly if the rules derive a type for it, and then it gives
that type and leaves the scope of the derivation.  Both directions go by induction over the
expression; the statements about blocks rest on the fact that an expression changes at most the
innermost frame.
-/

namespace Scriptlet

/-! ## Derivations change the innermost frame only -/

/-- Several expressions change the innermost frame only, if each of them does. -/
theorem HasTypes.outer_of {Γ : Context} {es : List Expr}
    (ih : ∀ e ∈ es, ∀ {F : Frame Ty} {Δ Δ' : Scope Ty} {t : Ty},
      HasType Γ (F :: Δ) e t Δ' → ∃ F', Δ' = F' :: Δ) :
    ∀ {F : Frame Ty} {Δ Δ' : Scope Ty} {ts : List Ty},
      HasTypes Γ (F :: Δ) es ts Δ' → ∃ F', Δ' = F' :: Δ := by
  induction es with
  | nil =>
    intro F Δ Δ' ts h
    cases h
    exact ⟨F, rfl⟩
  | cons e es ihes =>
    intro F Δ Δ' ts h
    cases h with
    | cons he hes =>
      obtain ⟨F', rfl⟩ := ih e List.mem_cons_self he
      exact ihes (fun x hx => ih x (List.mem_cons_of_mem _ hx)) hes

/-- A derivation leaves a scope that differs in the innermost frame only. -/
theorem HasType.outer {Γ : Context} {e : Expr} : ∀ {F : Frame Ty} {Δ Δ' : Scope Ty} {t : Ty},
    HasType Γ (F :: Δ) e t Δ' → ∃ F', Δ' = F' :: Δ := by
  induction e using Expr.induction with
  | int | bool | char | str | var | returnUnit =>
    intro F Δ Δ' t h
    cases h
    exact ⟨F, rfl⟩
  | index s base position ih =>
    intro F Δ Δ' t h
    cases h with
    | index _ hp _ => exact ih hp
  | neg s e ih =>
    intro F Δ Δ' t h
    cases h with
    | neg he => exact ih he
  | not s e ih =>
    intro F Δ Δ' t h
    cases h with
    | not he => exact ih he
  | parens s e ih =>
    intro F Δ Δ' t h
    cases h with
    | parens he => exact ih he
  | binary s op l r ihl ihr =>
    intro F Δ Δ' t h
    cases h with
    | binary hl hr _ =>
      obtain ⟨F', rfl⟩ := ihl hl
      exact ihr hr
  | declare s mutable name value ih =>
    intro F Δ Δ' t h
    cases h with
    | declare hv _ =>
      obtain ⟨F', rfl⟩ := ih hv
      exact ⟨_, rfl⟩
  | assign s name value ih =>
    intro F Δ Δ' t h
    cases h with
    | assign hv _ => exact ih hv
  | call s name args ih =>
    intro F Δ Δ' t h
    cases h with
    | call hargs _ => exact HasTypes.outer_of ih hargs
  | store s target base position value ihp ihv =>
    intro F Δ Δ' t h
    cases h with
    | store _ hp _ hv =>
      obtain ⟨F', rfl⟩ := ihp hp
      exact ihv hv
  | branch s cond body otherwise ihc _ _ =>
    intro F Δ Δ' t h
    cases h with
    | branch hc _ _ => exact ihc hc
  | forIn s name iterable body ihi _ =>
    intro F Δ Δ' t h
    cases h with
    | forIn hi _ _ => exact ihi hi
  | loop s cond body ihc _ =>
    intro F Δ Δ' t h
    cases h with
    | loop hc _ => exact ihc hc
  | returnValue s value ih =>
    intro F Δ Δ' t h
    cases h with
    | returnValue hv => exact ih hv

/-- The same for several expressions. -/
theorem HasTypes.outer {Γ : Context} {es : List Expr} {F : Frame Ty} {Δ Δ' : Scope Ty}
    {ts : List Ty} (h : HasTypes Γ (F :: Δ) es ts Δ') : ∃ F', Δ' = F' :: Δ :=
  HasTypes.outer_of (fun _ _ => HasType.outer) h

namespace Check

/-! ## Checking only adds to what was reported -/

theorem grows_exprs_of {Γ : Context} {es : List Expr} (ih : ∀ e ∈ es, Grows (expr Γ e)) :
    Grows (exprs Γ es) := by
  induction es with
  | nil => exact grows_pure _
  | cons e es ihes =>
    have he := ih e List.mem_cons_self
    have hes := ihes fun x hx => ih x (List.mem_cons_of_mem _ hx)
    exact grows_bind

/-- Checking an expression only adds to what was reported. -/
instance grows_expr (Γ : Context) (e : Expr) : Grows (expr Γ e) := by
  induction e using Expr.induction with
  | int | bool | char | str => exact grows_pure _
  | var s name => exact grows_variableType _ _
  | parens s e ih => exact ih
  | index | neg | not | binary | declare | assign | store | returnValue => exact grows_bind
  | call s name args ih =>
    have hargs := grows_exprs_of ih
    exact grows_bind
  | branch s cond body otherwise ihc ihb iho =>
    have hbody := grows_exprs_of ihb
    have hother := grows_exprs_of iho
    exact grows_bind
  | forIn s name iterable body ihi ihb =>
    have hbody := grows_exprs_of ihb
    refine ihi.bind fun t => ?_
    cases t with
    | none => exact grows_pure _
    | some t =>
      dsimp only
      split
      · exact grows_reject _ _
      · exact grows_bind
  | loop s cond body ihc ihb =>
    have hbody := grows_exprs_of ihb
    exact grows_bind
  | returnUnit s => exact grows_returnType _ _ _

instance grows_exprs (Γ : Context) (es : List Expr) : Grows (exprs Γ es) :=
  grows_exprs_of fun e _ => grows_expr Γ e

/-! ## Loops over elements -/

/-- What is visited is the type of the elements of an array or of the ends of a range. -/
theorem visited_iff {t u : Ty} : t.Visited u ↔ t.elem? = some u := by
  constructor
  · intro h
    cases h <;> rfl
  · intro h
    cases t with
    | array t =>
      cases h
      exact .array
    | range t =>
      cases h
      exact .range
    | int | string | boolean | char | unit => cases h

/-- What follows in a loop once the type of the iterable is known. -/
def visit (Γ : Context) (span : Span) (name : String) (body : List Expr) :
    Option Ty → Check (Option Ty)
  | none => return none
  | some t =>
    match t.elem? with
    | none => reject span .notIterable
    | some elem => do
      let _ ← inBlock (do declare name elem; exprs Γ body)
      return some .unit

theorem expr_forIn (Γ : Context) (span : Span) (name : String) (iterable : Expr)
    (body : List Expr) :
    expr Γ (.forIn span name iterable body) = expr Γ iterable >>= visit Γ span name body := by
  rw [expr]
  rfl

instance grows_visit (Γ : Context) (span : Span) (name : String) (body : List Expr)
    (t : Option Ty) : Grows (visit Γ span name body t) := by
  cases t with
  | none => exact grows_pure _
  | some t =>
    rw [visit]
    split
    · exact grows_reject _ _
    · exact grows_bind

/-- A loop is quiet exactly if there is something to visit and its block is quiet with the loop
variable declared in it. -/
theorem quiet_visit {Γ : Context} {span : Span} {name : String} {body : List Expr} {t : Ty}
    {c c' : Checking} {r : Option Ty} :
    Quiet (visit Γ span name body (some t)) c r c' ↔
      ∃ u, t.Visited u ∧ ∃ rs,
        (∃ c₁, Quiet (exprs Γ body) { c with scope := c.scope.push.declare name u } rs c₁ ∧
          c' = { c₁ with scope := c₁.scope.pop }) ∧ r = some .unit := by
  rw [visit]
  cases helem : t.elem? with
  | none =>
    simp only [visited_iff, helem, reduceCtorEq, false_and, exists_false, iff_false]
    exact not_quiet_reject
  | some u =>
    simp only [visited_iff, helem, Option.some_inj]
    rw [quiet_map (f := fun _ => some Ty.unit)]
    simp only [quiet_inBlock, quiet_bind, quiet_declare]
    constructor
    · rintro ⟨rs, ⟨c₁, ⟨_, _, rfl, hb⟩, rfl⟩, rfl⟩
      exact ⟨u, rfl, rs, ⟨c₁, hb, rfl⟩, rfl⟩
    · rintro ⟨_, rfl, rs, ⟨c₁, hb, rfl⟩, rfl⟩
      exact ⟨rs, ⟨c₁, ⟨(), _, rfl, hb⟩, rfl⟩, rfl⟩

/-! ## Quiet checking gives a derivation -/

/-- What quiet checking of `e` comes to. -/
def Sound (Γ : Context) (e : Expr) : Prop :=
  ∀ {c c' : Checking} {r : Option Ty} {F : Frame Ty} {Δ : Scope Ty}, c.scope = F :: Δ →
    Quiet (expr Γ e) c r c' → ∃ t, r = some t ∧ HasType Γ c.scope e t c'.scope

theorem hasTypes_of_quiet_of {Γ : Context} {es : List Expr} (ih : ∀ e ∈ es, Sound Γ e) :
    ∀ {c c' : Checking} {rs : List (Option Ty)} {F : Frame Ty} {Δ : Scope Ty}, c.scope = F :: Δ →
      Quiet (exprs Γ es) c rs c' → ∃ ts, rs = ts.map some ∧ HasTypes Γ c.scope es ts c'.scope := by
  induction es with
  | nil =>
    intro c c' rs F Δ hs h
    obtain ⟨rfl, rfl⟩ := quiet_pure.1 h
    exact ⟨[], rfl, .nil⟩
  | cons e es ihes =>
    intro c c' rs F Δ hs h
    obtain ⟨r, c₁, he, h⟩ := quiet_bind.1 h
    obtain ⟨rs', hes, rfl⟩ := quiet_map.1 h
    obtain ⟨t, rfl, ht⟩ := ih e List.mem_cons_self hs he
    obtain ⟨F', hs'⟩ := HasType.outer (hs ▸ ht)
    obtain ⟨ts, rfl, hts⟩ := ihes (fun x hx => ih x (List.mem_cons_of_mem _ hx)) hs' hes
    exact ⟨t :: ts, rfl, .cons ht hts⟩

/-- Quiet checking of a block leaves the scope as it was. -/
theorem hasTypes_of_quiet_block {Γ : Context} {es : List Expr} (ih : ∀ e ∈ es, Sound Γ e)
    {c c' : Checking} {rs : List (Option Ty)} {F : Frame Ty} {Δ : Scope Ty}
    (hs : c.scope = F :: Δ) (h : Quiet (inBlock (exprs Γ es)) c rs c') :
    (∃ ts Δ₁, HasTypes Γ c.scope.push es ts Δ₁) ∧ c'.scope = c.scope := by
  obtain ⟨c₁, hes, rfl⟩ := quiet_inBlock.1 h
  obtain ⟨ts, -, hts⟩ := hasTypes_of_quiet_of ih rfl hes
  obtain ⟨F₁, hF₁⟩ := hts.outer
  refine ⟨⟨ts, _, hts⟩, ?_⟩
  rw [hF₁, hs]
  rfl

/-- Checking an expression without a report gives a type that the rules derive. -/
theorem hasType_of_quiet (Γ : Context) (e : Expr) : Sound Γ e := by
  induction e using Expr.induction with
  | int | bool | char | str =>
    intro c c' r F Δ hs h
    obtain ⟨rfl, rfl⟩ := quiet_pure.1 h
    exact ⟨_, rfl, by constructor⟩
  | var s name =>
    intro c c' r F Δ hs h
    obtain ⟨t, hget, rfl, rfl⟩ := quiet_variableType.1 h
    exact ⟨t, rfl, .var hget⟩
  | index s base position ih =>
    intro c c' r F Δ hs h
    obtain ⟨b, c₁, hb, h⟩ := quiet_bind.1 h
    obtain ⟨p, c₂, hp, h⟩ := quiet_bind.1 h
    obtain ⟨t, hget, rfl, rfl⟩ := quiet_variableType.1 hb
    obtain ⟨tp, rfl, htp⟩ := ih hs hp
    obtain ⟨rfl, u, hu, rfl, rfl⟩ := quiet_elementType.1 h
    exact ⟨u, rfl, .index hget htp hu⟩
  | neg s e ih =>
    intro c c' r F Δ hs h
    obtain ⟨q, c₁, he, h⟩ := quiet_bind.1 h
    obtain ⟨t, rfl, ht⟩ := ih hs he
    obtain ⟨rfl, rfl, rfl⟩ := quiet_require.1 h
    exact ⟨_, rfl, .neg ht⟩
  | not s e ih =>
    intro c c' r F Δ hs h
    obtain ⟨q, c₁, he, h⟩ := quiet_bind.1 h
    obtain ⟨t, rfl, ht⟩ := ih hs he
    obtain ⟨rfl, rfl, rfl⟩ := quiet_require.1 h
    exact ⟨_, rfl, .not ht⟩
  | parens s e ih =>
    intro c c' r F Δ hs h
    obtain ⟨t, rfl, ht⟩ := ih hs h
    exact ⟨t, rfl, .parens ht⟩
  | binary s op l r ihl ihr =>
    intro c c' q F Δ hs h
    obtain ⟨ql, c₁, hl, h⟩ := quiet_bind.1 h
    obtain ⟨qr, c₂, hr, h⟩ := quiet_bind.1 h
    obtain ⟨t, rfl, ht⟩ := ihl hs hl
    -- the right operand sees what the left one declared in the innermost frame
    obtain ⟨F', hs'⟩ := HasType.outer (hs ▸ ht)
    obtain ⟨u, rfl, hu⟩ := ihr hs' hr
    obtain ⟨v, hv, rfl, rfl⟩ := quiet_operationType.1 h
    exact ⟨v, rfl, .binary ht hu hv⟩
  | declare s mutable name value ih =>
    intro c c' r F Δ hs h
    obtain ⟨q, c₁, hv, h⟩ := quiet_bind.1 h
    obtain ⟨t, rfl, ht⟩ := ih hs hv
    obtain ⟨hnew, rfl, rfl⟩ := quiet_declaration.1 h
    exact ⟨_, rfl, .declare ht hnew⟩
  | assign s name value ih =>
    intro c c' r F Δ hs h
    obtain ⟨q, c₁, hv, h⟩ := quiet_bind.1 h
    obtain ⟨t, rfl, ht⟩ := ih hs hv
    obtain ⟨hget, rfl, rfl⟩ := quiet_assignment.1 h
    exact ⟨_, rfl, .assign ht hget⟩
  | call s name args ih =>
    intro c c' r F Δ hs h
    obtain ⟨qs, c₁, hargs, h⟩ := quiet_bind.1 h
    obtain ⟨ts, rfl, hts⟩ := hasTypes_of_quiet_of ih hs hargs
    obtain ⟨t, ht, rfl, rfl⟩ := quiet_callType.1 h
    exact ⟨t, rfl, .call hts ht⟩
  | store s target base position value ihp ihv =>
    intro c c' r F Δ hs h
    obtain ⟨b, c₁, hb, h⟩ := quiet_bind.1 h
    obtain ⟨p, c₂, hp, h⟩ := quiet_bind.1 h
    obtain ⟨q, c₃, hq, h⟩ := quiet_bind.1 h
    obtain ⟨v, c₄, hv, h⟩ := quiet_bind.1 h
    obtain ⟨t, hget, rfl, rfl⟩ := quiet_variableType.1 hb
    obtain ⟨tp, rfl, htp⟩ := ihp hs hp
    obtain ⟨rfl, u, hu, rfl, rfl⟩ := quiet_elementType.1 hq
    obtain ⟨F', hs'⟩ := HasType.outer (hs ▸ htp)
    obtain ⟨tv, rfl, htv⟩ := ihv hs' hv
    obtain ⟨rfl, rfl, rfl⟩ := quiet_storeType.1 h
    exact ⟨_, rfl, .store hget htp hu htv⟩
  | branch s cond body otherwise ihc ihb iho =>
    intro c c' r F Δ hs h
    obtain ⟨q, c₁, hc, h⟩ := quiet_bind.1 h
    obtain ⟨ok, c₂, hok, h⟩ := quiet_bind.1 h
    obtain ⟨bs, c₃, hb, h⟩ := quiet_bind.1 h
    obtain ⟨os, ho, rfl⟩ := quiet_map.1 h
    obtain ⟨t, rfl, ht⟩ := ihc hs hc
    obtain ⟨rfl, rfl, rfl⟩ := quiet_condition.1 hok
    obtain ⟨F', hs'⟩ := HasType.outer (hs ▸ ht)
    -- each body is a block, so the variables behind it are those before it
    obtain ⟨⟨ts, Δ₁, hts⟩, hscope⟩ := hasTypes_of_quiet_block ihb hs' hb
    obtain ⟨⟨us, Δ₂, hus⟩, hscope'⟩ := hasTypes_of_quiet_block iho (hscope.trans hs') ho
    rw [hscope] at hus hscope'
    exact ⟨_, rfl, hscope' ▸ .branch ht hts hus⟩
  | forIn s name iterable body ihi ihb =>
    intro c c' r F Δ hs h
    rw [expr_forIn] at h
    obtain ⟨q, c₁, hi, h⟩ := quiet_bind.1 h
    obtain ⟨t, rfl, ht⟩ := ihi hs hi
    obtain ⟨u, hu, h⟩ := quiet_visit.1 h
    obtain ⟨F', hs'⟩ := HasType.outer (hs ▸ ht)
    obtain ⟨rs, ⟨c₂, hb, rfl⟩, rfl⟩ := h
    obtain ⟨ts, -, hts⟩ := hasTypes_of_quiet_of ihb rfl hb
    obtain ⟨F₁, hF₁⟩ := hts.outer
    -- only the frame of the loop has got more names, and it is dropped
    have hscope : c₂.scope.pop = c₁.scope := by
      rw [hF₁, hs']
      rfl
    exact ⟨_, rfl, hscope ▸ .forIn ht hu hts⟩
  | loop s cond body ihc ihb =>
    intro c c' r F Δ hs h
    obtain ⟨q, c₁, hc, h⟩ := quiet_bind.1 h
    obtain ⟨ok, c₂, hok, h⟩ := quiet_bind.1 h
    obtain ⟨bs, hb, rfl⟩ := quiet_map.1 h
    obtain ⟨t, rfl, ht⟩ := ihc hs hc
    obtain ⟨rfl, rfl, rfl⟩ := quiet_condition.1 hok
    obtain ⟨F', hs'⟩ := HasType.outer (hs ▸ ht)
    obtain ⟨⟨ts, Δ₁, hts⟩, hscope⟩ := hasTypes_of_quiet_block ihb hs' hb
    exact ⟨_, rfl, hscope ▸ .loop ht hts⟩
  | returnUnit s =>
    intro c c' r F Δ hs h
    obtain ⟨hres, rfl, rfl⟩ := quiet_returnType.1 h
    exact ⟨_, rfl, .returnUnit hres.symm⟩
  | returnValue s value ih =>
    intro c c' r F Δ hs h
    obtain ⟨q, c₁, hv, h⟩ := quiet_bind.1 h
    obtain ⟨t, rfl, ht⟩ := ih hs hv
    obtain ⟨rfl, rfl, rfl⟩ := quiet_returnType.1 h
    exact ⟨_, rfl, .returnValue ht⟩

/-! ## Derivations make checking quiet -/

/-- What a derivation for `e` means for checking it. -/
def Complete (Γ : Context) (e : Expr) : Prop :=
  ∀ {c : Checking} {t : Ty} {F : Frame Ty} {Δ Δ' : Scope Ty}, c.scope = F :: Δ →
    HasType Γ c.scope e t Δ' → ∃ c', Quiet (expr Γ e) c (some t) c' ∧ c'.scope = Δ'

theorem quiet_of_hasTypes_of {Γ : Context} {es : List Expr} (ih : ∀ e ∈ es, Complete Γ e) :
    ∀ {c : Checking} {ts : List Ty} {F : Frame Ty} {Δ Δ' : Scope Ty}, c.scope = F :: Δ →
      HasTypes Γ c.scope es ts Δ' →
      ∃ c', Quiet (exprs Γ es) c (ts.map some) c' ∧ c'.scope = Δ' := by
  induction es with
  | nil =>
    intro c ts F Δ Δ' hs h
    cases h
    exact ⟨c, quiet_pure.2 ⟨rfl, rfl⟩, rfl⟩
  | cons e es ihes =>
    intro c ts F Δ Δ' hs h
    cases h with
    | cons he hes =>
      obtain ⟨F', hs'⟩ := HasType.outer (hs ▸ he)
      obtain ⟨c₁, hq, rfl⟩ := ih e List.mem_cons_self hs he
      obtain ⟨c₂, hqs, rfl⟩ := ihes (fun x hx => ih x (List.mem_cons_of_mem _ hx)) hs' hes
      exact ⟨c₂, hq.bind (hqs.map _), rfl⟩

/-- A block with a derivation is checked quietly and leaves the scope as it was. -/
theorem quiet_block_of_hasTypes {Γ : Context} {es : List Expr} (ih : ∀ e ∈ es, Complete Γ e)
    {c : Checking} {ts : List Ty} {F : Frame Ty} {Δ Δ' : Scope Ty} (hs : c.scope = F :: Δ)
    (h : HasTypes Γ c.scope.push es ts Δ') :
    ∃ c', Quiet (inBlock (exprs Γ es)) c (ts.map some) c' ∧ c'.scope = c.scope := by
  obtain ⟨F₁, hF₁⟩ := h.outer
  obtain ⟨c₁, hq, hc₁⟩ := quiet_of_hasTypes_of ih (c := { c with scope := c.scope.push }) rfl h
  refine ⟨_, quiet_inBlock.2 ⟨c₁, hq, rfl⟩, ?_⟩
  show c₁.scope.pop = c.scope
  rw [hc₁, hF₁, hs]
  rfl

/-- An expression that has a type is checked without a report. -/
theorem quiet_of_hasType (Γ : Context) (e : Expr) : Complete Γ e := by
  induction e using Expr.induction with
  | int | bool | char | str =>
    intro c t F Δ Δ' hs h
    cases h
    exact ⟨c, quiet_pure.2 ⟨rfl, rfl⟩, rfl⟩
  | var s name =>
    intro c t F Δ Δ' hs h
    cases h with
    | var hget => exact ⟨c, quiet_variableType.2 ⟨t, hget, rfl, rfl⟩, rfl⟩
  | index s base position ih =>
    intro c t F Δ Δ' hs h
    cases h with
    | index hget hp hu =>
      obtain ⟨c₁, hq, rfl⟩ := ih hs hp
      refine ⟨c₁, ?_, rfl⟩
      refine Quiet.bind (quiet_variableType.2 ⟨_, hget, rfl, rfl⟩) (hq.bind ?_)
      exact quiet_elementType.2 ⟨rfl, _, hu, rfl, rfl⟩
  | neg s e ih =>
    intro c t F Δ Δ' hs h
    cases h with
    | neg he =>
      obtain ⟨c₁, hq, rfl⟩ := ih hs he
      exact ⟨c₁, hq.bind (quiet_require.2 ⟨rfl, rfl, rfl⟩), rfl⟩
  | not s e ih =>
    intro c t F Δ Δ' hs h
    cases h with
    | not he =>
      obtain ⟨c₁, hq, rfl⟩ := ih hs he
      exact ⟨c₁, hq.bind (quiet_require.2 ⟨rfl, rfl, rfl⟩), rfl⟩
  | parens s e ih =>
    intro c t F Δ Δ' hs h
    cases h with
    | parens he => exact ih hs he
  | binary s op l r ihl ihr =>
    intro c t F Δ Δ' hs h
    cases h with
    | binary hl hr hv =>
      obtain ⟨F', hs'⟩ := HasType.outer (hs ▸ hl)
      obtain ⟨c₁, hql, rfl⟩ := ihl hs hl
      obtain ⟨c₂, hqr, rfl⟩ := ihr hs' hr
      refine ⟨c₂, hql.bind (hqr.bind ?_), rfl⟩
      exact quiet_operationType.2 ⟨_, hv, rfl, rfl⟩
  | declare s mutable name value ih =>
    intro c t F Δ Δ' hs h
    cases h with
    | declare hv hnew =>
      obtain ⟨c₁, hq, rfl⟩ := ih hs hv
      exact ⟨_, hq.bind (quiet_declaration.2 ⟨hnew, rfl, rfl⟩), rfl⟩
  | assign s name value ih =>
    intro c t F Δ Δ' hs h
    cases h with
    | assign hv hget =>
      obtain ⟨c₁, hq, rfl⟩ := ih hs hv
      exact ⟨c₁, hq.bind (quiet_assignment.2 ⟨hget, rfl, rfl⟩), rfl⟩
  | call s name args ih =>
    intro c t F Δ Δ' hs h
    cases h with
    | call hargs hcall =>
      obtain ⟨c₁, hq, rfl⟩ := quiet_of_hasTypes_of ih hs hargs
      exact ⟨c₁, hq.bind (quiet_callType.2 ⟨t, hcall, rfl, rfl⟩), rfl⟩
  | store s target base position value ihp ihv =>
    intro c t F Δ Δ' hs h
    cases h with
    | store hget hp hu hv =>
      obtain ⟨F', hs'⟩ := HasType.outer (hs ▸ hp)
      obtain ⟨c₁, hqp, rfl⟩ := ihp hs hp
      obtain ⟨c₂, hqv, rfl⟩ := ihv hs' hv
      refine ⟨c₂, ?_, rfl⟩
      refine Quiet.bind (quiet_variableType.2 ⟨_, hget, rfl, rfl⟩) (hqp.bind ?_)
      refine Quiet.bind (quiet_elementType.2 ⟨rfl, _, hu, rfl, rfl⟩) (hqv.bind ?_)
      exact quiet_storeType.2 ⟨rfl, rfl, rfl⟩
  | branch s cond body otherwise ihc ihb iho =>
    intro c t F Δ Δ' hs h
    cases h with
    | branch hc hb ho =>
      obtain ⟨F', hs'⟩ := HasType.outer (hs ▸ hc)
      obtain ⟨c₁, hqc, rfl⟩ := ihc hs hc
      obtain ⟨c₂, hqb, hc₂⟩ := quiet_block_of_hasTypes ihb hs' hb
      obtain ⟨c₃, hqo, hc₃⟩ := quiet_block_of_hasTypes iho (hc₂.trans hs') (hc₂ ▸ ho)
      refine ⟨c₃, hqc.bind ?_, hc₃.trans hc₂⟩
      refine Quiet.bind (quiet_condition.2 ⟨rfl, rfl, rfl⟩) (hqb.bind ?_)
      exact hqo.map fun _ => unitIf true
  | forIn s name iterable body ihi ihb =>
    intro c t F Δ Δ' hs h
    cases h with
    | forIn hi hu hb =>
      obtain ⟨F', hs'⟩ := HasType.outer (hs ▸ hi)
      obtain ⟨c₁, hqi, rfl⟩ := ihi hs hi
      -- the loop variable has a frame of its own, and the body is checked in it
      obtain ⟨F₁, hF₁⟩ := hb.outer
      obtain ⟨c₂, hqb, hc₂⟩ := quiet_of_hasTypes_of ihb
        (c := { c₁ with scope := c₁.scope.push.declare name _ }) rfl hb
      refine ⟨{ c₂ with scope := c₂.scope.pop }, ?_, ?_⟩
      · rw [expr_forIn]
        exact hqi.bind (quiet_visit.2 ⟨_, hu, _, ⟨c₂, hqb, rfl⟩, rfl⟩)
      · show c₂.scope.pop = c₁.scope
        rw [hc₂, hF₁, hs']
        rfl
  | loop s cond body ihc ihb =>
    intro c t F Δ Δ' hs h
    cases h with
    | loop hc hb =>
      obtain ⟨F', hs'⟩ := HasType.outer (hs ▸ hc)
      obtain ⟨c₁, hqc, rfl⟩ := ihc hs hc
      obtain ⟨c₂, hqb, hc₂⟩ := quiet_block_of_hasTypes ihb hs' hb
      refine ⟨c₂, hqc.bind ?_, hc₂⟩
      exact Quiet.bind (quiet_condition.2 ⟨rfl, rfl, rfl⟩) (hqb.map fun _ => unitIf true)
  | returnUnit s =>
    intro c t F Δ Δ' hs h
    cases h with
    | returnUnit hres => exact ⟨c, quiet_returnType.2 ⟨hres.symm, rfl, rfl⟩, rfl⟩
  | returnValue s value ih =>
    intro c t F Δ Δ' hs h
    cases h with
    | returnValue hv =>
      obtain ⟨c₁, hq, rfl⟩ := ih hs hv
      exact ⟨c₁, hq.bind (quiet_returnType.2 ⟨rfl, rfl, rfl⟩), rfl⟩

end Check

end Scriptlet
