import Scriptlet.Proofs.Typing.Program

/-!
# What checking leaves behind

Checking never takes back what is known.  Reports stay and others come behind them, the frames around
the innermost one stay as they are, and the innermost one keeps what it says of its names and may
say more.  Where an expression has no type there is a report more than before, so in a program that
nothing is wrong with every expression that is checked has a type: `Program.failures_reported`.
-/

namespace Scriptlet

/-- What `F` says of a name, `F'` says too. -/
def Frame.Within {α : Type} (F F' : Frame α) : Prop :=
  ∀ name v, F.get? name = some v → F'.get? name = some v

namespace Frame.Within

variable {α : Type} {F G H : Frame α}

theorem refl (F : Frame α) : F.Within F := fun _ _ h => h

theorem trans (h : F.Within G) (h' : G.Within H) : F.Within H :=
  fun name v hv => h' name v (h name v hv)

/-- A name that is not declared yet may be declared. -/
theorem declare {name : String} (h : F.has name = false) (v : α) :
    F.Within (F.declare name v) := by
  intro other w hw
  rw [Frame.get?_declare, if_neg, hw]
  -- The name of which `F` says something is not the new one.
  rintro rfl
  rw [Frame.has, hw] at h
  cases h

end Frame.Within

namespace Check

variable {α β : Type}

/-- A step that leaves all variables as they are. -/
class Still (act : Check α) : Prop where
  still (c : Checking) : (act.run c).2.scope = c.scope

/-- A step that changes the innermost frame only, and there only adds names. -/
class Widens (act : Check α) : Prop where
  widens {c : Checking} {F : Frame Ty} {Δ : Scope Ty} (hscope : c.scope = F :: Δ) :
    ∃ F', (act.run c).2.scope = F' :: Δ ∧ F.Within F'

/-! ## Steps in general -/

instance still_pure (a : α) : Still (pure a) := ⟨fun _ => rfl⟩

instance still_get : Still get := ⟨fun _ => rfl⟩

instance still_bind {act : Check α} {f : α → Check β} [h : Still act] [hf : ∀ a, Still (f a)] :
    Still (act >>= f) := by
  constructor
  intro c
  rw [run_bind, (hf _).still, h.still]

instance still_ite {p : Prop} [Decidable p] {act act' : Check α} [h : Still act]
    [h' : Still act'] : Still (if p then act else act') := by
  split
  · exact h
  · exact h'

instance still_report (span : Span) (problem : Problem) : Still (report span problem) :=
  ⟨fun _ => rfl⟩

instance still_reject (span : Span) (problem : Problem) : Still (reject span problem) :=
  still_bind

theorem Still.widens {act : Check α} (h : Still act) : Widens act := by
  constructor
  intro c F Δ hscope
  exact ⟨F, (h.still c).trans hscope, .refl F⟩

instance widens_of_still {act : Check α} [h : Still act] : Widens act := h.widens

instance widens_bind {act : Check α} {f : α → Check β} [h : Widens act]
    [hf : ∀ a, Widens (f a)] : Widens (act >>= f) := by
  constructor
  intro c F Δ hscope
  obtain ⟨F', hscope', hwithin⟩ := h.widens hscope
  obtain ⟨F'', hscope'', hwithin'⟩ := (hf (act.run c).1).widens hscope'
  exact ⟨F'', hscope'', hwithin.trans hwithin'⟩

/-- What happens in a block is gone behind it, as long as only the frame of the block changes. -/
theorem widens_inBlock_of {act : Check α}
    (h : ∀ (c : Checking) (Δ : Scope Ty), c.scope = [] :: Δ →
      ∃ F', (act.run c).2.scope = F' :: Δ) : Widens (inBlock act) := by
  constructor
  intro c F Δ hscope
  obtain ⟨F', hscope'⟩ := h { c with scope := c.scope.push } c.scope rfl
  have hrun : ((inBlock act).run c).2.scope =
      (act.run { c with scope := c.scope.push }).2.scope.pop := rfl
  refine ⟨F, ?_, .refl F⟩
  rw [hrun, hscope', hscope]
  rfl

instance widens_inBlock {act : Check α} [h : Widens act] : Widens (inBlock act) := by
  apply widens_inBlock_of
  intro c Δ hscope
  obtain ⟨F', hscope', -⟩ := h.widens hscope
  exact ⟨F', hscope'⟩

/-! ## Forms -/

instance still_variableType (span : Span) (name : String) : Still (variableType span name) := by
  constructor
  intro c
  rw [run_variableType]
  cases c.scope.get? name <;> rfl

instance still_require (span : Span) (wanted : Ty) (problem : Problem) (t : Option Ty) :
    Still (require span wanted problem t) := by
  cases t with
  | none => exact still_pure _
  | some t => exact still_ite

instance still_sameType (span : Span) (l r : Option Ty) : Still (sameType span l r) := by
  unfold sameType
  split
  · exact still_ite
  · exact still_pure _

instance still_sumType (span : Span) (l r : Option Ty) : Still (sumType span l r) := by
  unfold sumType
  split
  · exact still_ite
  · exact still_pure _

instance still_comparedType (span : Span) (t : Option Ty) : Still (comparedType span t) := by
  cases t with
  | none => exact still_pure _
  | some t => exact still_ite

instance still_connectiveType (span : Span) (l r : Option Ty) :
    Still (connectiveType span l r) := by
  unfold connectiveType
  split
  · exact still_ite
  · exact still_pure _

instance still_operationType (span : Span) (op : BinOp) (l r : Option Ty) :
    Still (operationType span op l r) := by
  cases op with
  | add => exact still_sumType _ _ _
  | sub | mul | div => exact still_sameType _ _ _
  | range => exact still_bind
  | less | greater =>
    show Still (comparisonType span l r)
    rw [comparisonType_eq]
    exact still_bind
  | and | or => exact still_connectiveType _ _ _

instance still_baseElement (span : Span) (t : Option Ty) : Still (baseElement span t) := by
  unfold baseElement
  split
  · exact still_pure _
  · exact still_pure _
  · exact still_pure _
  · exact still_reject _ _

instance still_elementType (span : Span) (base position : Option Ty) :
    Still (elementType span base position) := still_bind

instance still_condition (span : Span) (t : Option Ty) : Still (condition span t) := still_bind

instance still_printable (span : Span) (ts : List Ty) : Still (printable span ts) := by
  induction ts with
  | nil => exact still_pure _
  | cons t ts ih => exact still_ite

instance still_builtinType (span : Span) (b : Builtin) (ts : List Ty) :
    Still (builtinType span b ts) := by
  cases b with
  | print | println => exact still_bind
  | arrayOf =>
    cases ts with
    | nil => exact still_reject _ _
    | cons t ts => exact still_ite
  | readln | readlnBoolean | readlnInt => exact still_ite

instance still_callType (Γ : Context) (span : Span) (name : String) (args : List (Option Ty)) :
    Still (callType Γ span name args) := by
  unfold callType
  cases Builtin.ofName? name with
  | some b => cases allTypes args <;> infer_instance
  | none =>
    cases Γ.signatures.get? name with
    | none => exact still_reject _ _
    | some sig => cases allTypes args <;> infer_instance

instance still_assignment (span : Span) (name : String) (value : Option Ty) :
    Still (assignment span name value) := by
  constructor
  intro c
  show ((match c.scope.get? name, value with
    | none, _ => reject span (.variableUnknown name)
    | some _, none => pure none
    | some expected, some t =>
      if t = expected then pure (some .unit) else reject span (.variableMismatch name) :
        Check (Option Ty)).run c).2.scope = c.scope
  split
  · exact (still_reject _ _).still c
  · rfl
  · exact still_ite.still c

instance still_storeType (span : Span) (target value : Option Ty) :
    Still (storeType span target value) := still_bind

instance still_returnType (Γ : Context) (span : Span) (t : Option Ty) :
    Still (returnType Γ span t) := by
  cases t with
  | none => exact still_pure _
  | some t =>
    have hreport : Still (reportUnless (t = Γ.result) span (.returnMismatch Γ.result t)) := still_ite
    exact still_bind

/-- A declaration adds a name, and only one that the innermost block does not declare yet. -/
instance widens_declaration (span : Span) (name : String) (t : Option Ty) :
    Widens (declaration span name t) := by
  cases t with
  | none => exact (still_pure _).widens
  | some t =>
    constructor
    intro c F Δ hscope
    cases hnew : c.scope.declaredHere name with
    | true =>
      have hrun : (declaration span name (some t)).run c =
          (reject span (.variableRedefined name)).run c := by
        show (if c.scope.declaredHere name then _ else _ : Check (Option Ty)).run c = _
        rw [hnew]
        rfl
      rw [hrun]
      exact (still_reject _ _).widens.widens hscope
    | false =>
      have hrun : ((declaration span name (some t)).run c).2.scope = c.scope.declare name t := by
        show ((if c.scope.declaredHere name then _ else _ : Check (Option Ty)).run c).2.scope = _
        rw [hnew]
        rfl
      rw [hscope] at hnew
      refine ⟨F.declare name t, ?_, Frame.Within.declare hnew t⟩
      rw [hrun, hscope]
      rfl

/-! ## Expressions -/

theorem widens_exprs_of {Γ : Context} {es : List Expr} (ih : ∀ e ∈ es, Widens (expr Γ e)) :
    Widens (exprs Γ es) := by
  induction es with
  | nil => exact (still_pure _).widens
  | cons e es ihes =>
    have he := ih e List.mem_cons_self
    have hes := ihes fun x hx => ih x (List.mem_cons_of_mem _ hx)
    exact widens_bind

/-- Checking an expression only adds names to the innermost frame. -/
instance widens_expr (Γ : Context) (e : Expr) : Widens (expr Γ e) := by
  induction e using Expr.induction with
  | int | bool | char | str => exact (still_pure _).widens
  | var s name => exact (still_variableType s name).widens
  | parens s e ih => exact ih
  | index | neg | not | binary | declare | assign | store | returnValue => exact widens_bind
  | call s name args ih =>
    have hargs := widens_exprs_of ih
    exact widens_bind
  | branch s cond body otherwise ihc ihb iho =>
    have hbody := widens_exprs_of ihb
    have hother := widens_exprs_of iho
    exact widens_bind
  | forIn s name iterable body ihi ihb =>
    have hbody := widens_exprs_of ihb
    rw [expr_forIn]
    have hvisit : ∀ t, Widens (visit Γ s name body t) := by
      intro t
      cases t with
      | none => exact (still_pure _).widens
      | some t =>
        rw [visit]
        split
        · exact (still_reject _ _).widens
        · rename_i elem _
          -- The loop variable is the first name of the block, so it hides no other there.
          have hblock : Widens (inBlock (do declare name elem; exprs Γ body)) := by
            apply widens_inBlock_of
            intro c Δ hscope
            have hdeclared : ({ c with scope := c.scope.declare name elem } : Checking).scope =
                Frame.declare name elem [] :: Δ := by rw [hscope]; rfl
            obtain ⟨F', hscope', -⟩ := hbody.widens hdeclared
            exact ⟨F', hscope'⟩
          exact widens_bind
    exact widens_bind
  | loop s cond body ihc ihb =>
    have hbody := widens_exprs_of ihb
    exact widens_bind
  | returnUnit s => exact (still_returnType Γ s _).widens

/-- An expression that has no type has been reported. -/
theorem report_of_none {Γ : Context} {e : Expr} {c : Checking} {F : Frame Ty} {Δ : Scope Ty}
    (hscope : c.scope = F :: Δ) (hnone : ((expr Γ e).run c).1 = none) :
    ((expr Γ e).run c).2.diagnostics ≠ c.diagnostics := by
  intro hsame
  -- Without a report the expression would have a derivation, and so a type.
  obtain ⟨t, ht, -⟩ := hasType_of_quiet Γ e hscope ⟨rfl, hsame⟩
  cases hnone.symm.trans ht

end Check

/-- Checking an expression, whatever was known and reported before, adds reports behind the old ones,
one at least if the expression has no type, and adds names to the innermost frame without changing
what was known.  So in a program that nothing is wrong with, every expression that is checked has a
type. -/
theorem Program.failures_reported :
    (∀ (Γ : Context) (e : Expr) (F : Frame Ty) (Δ : Scope Ty) (reports : List Diagnostic)
        (trace : Trace), ∃ t F' more trace',
      (Check.expr Γ e).run ⟨F :: Δ, reports, trace⟩ = (t, ⟨F' :: Δ, reports ++ more, trace'⟩) ∧
        (t = none → more ≠ []) ∧ F.Within F') ∧
    ∀ (p : Program) (trace : Trace), (p.check trace).1 = [] →
      ∀ (f : Fun) (c : Checking) (e : Expr), p.Visits trace f c e →
        ∃ t, ((Check.expr (Check.contextOf p.signatures f) e).run c).1 = some t := by
  constructor
  · intro Γ e F Δ reports trace
    let c : Checking := ⟨F :: Δ, reports, trace⟩
    obtain ⟨F', hscope, hwithin⟩ := (Check.widens_expr Γ e).widens (c := c) rfl
    obtain ⟨more, hmore⟩ := (Check.grows_expr Γ e).grows c
    refine ⟨((Check.expr Γ e).run c).1, F', more, ((Check.expr Γ e).run c).2.trace, ?_, ?_, hwithin⟩
    · rw [← hscope, hmore]
      rfl
    · rintro hnone rfl
      rw [List.append_nil] at hmore
      exact Check.report_of_none rfl hnone hmore.symm
  · intro p trace haccepted f c e hvisits
    have hwell := Program.check_eq_nil.1 haccepted
    cases hvisits with
    | body hknown hfunctions hbody hvisits =>
      obtain ⟨rfl, hfine⟩ := hwell.fine_statement hknown hfunctions hbody
      obtain ⟨⟨F, Δ, hscope⟩, t, c', hrun, hsame⟩ := Check.fine_of_visits hfine hvisits
      -- Nothing is reported at this expression, so it is none of those that have no type.
      cases t with
      | some t => exact ⟨t, congrArg Prod.fst hrun⟩
      | none =>
        have hnone := congrArg Prod.fst hrun
        have hreport := Check.report_of_none hscope hnone
        rw [hrun] at hreport
        exact absurd hsame hreport

/-- A name that nothing is known of, as the only element of an array: of the array no type is known
either, and there is a report, though none by the call itself. -/
theorem Program.failures_reported_unknownElement :
    ∃ F' more trace', (Check.expr {} (.call .zero "arrayOf" [.var .zero "x"])).run
        ⟨[[("y", .int)]], [], ⟨0, #[]⟩⟩ = (none, ⟨[F'], more, trace'⟩) ∧
      more ≠ [] ∧ F'.get? "y" = some .int := by
  obtain ⟨t, F', more, trace', hrun, hreported, hwithin⟩ := failures_reported.1 {}
    (.call .zero "arrayOf" [.var .zero "x"]) [("y", .int)] [] [] ⟨0, #[]⟩
  obtain rfl : none = t := congrArg Prod.fst hrun
  exact ⟨F', more, trace', hrun, hreported rfl, hwithin "y" .int rfl⟩

end Scriptlet
