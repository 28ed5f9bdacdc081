import Scriptlet.Proofs.Typing.Regular

/-!
# Expressions that are ready to run

`Check.Ready` collects what is known of an expression of a regular program: its type, the scopes
before and behind it, and that everything checking comes across in it was seen before, in a sense
that is left open.  There is one lemma for each form, which hands the same down to its parts.
-/

namespace Scriptlet.Check

/-- An expression that is typed in a scope and leaves another one, holds declarations only as
statements, and in which checking comes across nothing but what `Seen` says. -/
structure Ready (Γ : Context) (Seen : Checking → Expr → Prop) (Δ : Scope Ty) (e : Expr) (t : Ty)
    (Δ' : Scope Ty) : Prop where
  /-- There is a frame to declare variables in. -/
  framed : ∃ F Δ₀, Δ = F :: Δ₀
  typed : HasType Γ Δ e t Δ'
  tidy : e.isTidy = true
  seen : ∃ c : Checking, c.scope = Δ ∧ ∀ c' e', Visits Γ c e c' e' → Seen c' e'

/-- The same for several expressions, one after the other. -/
structure ReadyAll (Γ : Context) (Seen : Checking → Expr → Prop) (Δ : Scope Ty) (es : List Expr)
    (ts : List Ty) (Δ' : Scope Ty) : Prop where
  framed : ∃ F Δ₀, Δ = F :: Δ₀
  typed : HasTypes Γ Δ es ts Δ'
  tidy : ∀ e ∈ es, e.isTidy = true
  seen : ∃ c : Checking, c.scope = Δ ∧ ∀ before e rest, es = before ++ e :: rest →
    ∀ c' e', Visits Γ (after (exprs Γ before) c) e c' e' → Seen c' e'

section

variable {Γ : Context} {Seen : Checking → Expr → Prop} {Δ Δ' : Scope Ty} {e : Expr} {t : Ty}
  {es : List Expr} {ts : List Ty} {s : Span} {name : String}

/-! ## Several expressions -/

/-- A quiet step that is known from a derivation, with the state it leaves. -/
theorem exists_run_of_hasType {c : Checking} (hframed : ∃ F Δ₀, c.scope = F :: Δ₀)
    (h : HasType Γ c.scope e t Δ') :
    ((expr Γ e).run c).1 = some t ∧ (after (expr Γ e) c).scope = Δ' := by
  obtain ⟨F, Δ₀, hs⟩ := hframed
  obtain ⟨c', hq, hs'⟩ := quiet_of_hasType Γ e hs h
  exact ⟨congrArg Prod.fst hq.1, by rw [hq.after_eq, hs']⟩

/-- There still is a frame behind an expression. -/
theorem Ready.framed_after (h : Ready Γ Seen Δ e t Δ') : ∃ F Δ₀, Δ' = F :: Δ₀ := by
  obtain ⟨F, Δ₀, rfl⟩ := h.framed
  obtain ⟨F', rfl⟩ := h.typed.outer
  exact ⟨F', Δ₀, rfl⟩

theorem ReadyAll.cons (h : ReadyAll Γ Seen Δ (e :: es) ts Δ') :
    ∃ u us Δ₁, ts = u :: us ∧ Ready Γ Seen Δ e u Δ₁ ∧ ReadyAll Γ Seen Δ₁ es us Δ' := by
  obtain ⟨hframed, htyped, htidy, c, rfl, hseen⟩ := h
  cases htyped with
  | @cons _ Δ₁ _ _ _ u us he hes =>
    have hready : Ready Γ Seen c.scope e u Δ₁ :=
      ⟨hframed, he, htidy e List.mem_cons_self, c, rfl, hseen [] e es rfl⟩
    refine ⟨u, us, Δ₁, rfl, hready, hready.framed_after, hes,
      fun x hx => htidy x (List.mem_cons_of_mem _ hx), after (expr Γ e) c,
      (exists_run_of_hasType hframed he).2, ?_⟩
    intro before x rest hes
    exact hseen (e :: before) x rest (by rw [hes, List.cons_append])

/-- Of expressions that are ready one after the other, each is ready in its place. -/
theorem ReadyAll.split {before rest : List Expr}
    (h : ReadyAll Γ Seen Δ (before ++ e :: rest) ts Δ') :
    ∃ us u Δ₁ Δ₂, ReadyAll Γ Seen Δ before us Δ₁ ∧ Ready Γ Seen Δ₁ e u Δ₂ := by
  induction before generalizing Δ ts with
  | nil =>
    obtain ⟨u, us, Δ₂, -, he, -⟩ := h.cons
    obtain ⟨c, hc, -⟩ := h.seen
    refine ⟨[], u, Δ, Δ₂, ⟨h.framed, .nil, ?_, c, hc, ?_⟩, he⟩
    · intro x hx
      cases hx
    · intro before x rest hnil
      simp at hnil
  | cons x before ih =>
    obtain ⟨w, ws, Δ₀, rfl, hx, hrest⟩ := h.cons
    obtain ⟨us, u, Δ₁, Δ₂, hbefore, he⟩ := ih hrest
    refine ⟨w :: us, u, Δ₁, Δ₂, ⟨h.framed, .cons hx.typed hbefore.typed, ?_, ?_⟩, he⟩
    · intro y hy
      exact h.tidy y (List.mem_append_left _ hy)
    · obtain ⟨c, hc, hseen⟩ := h.seen
      refine ⟨c, hc, ?_⟩
      intro front y back hsplit
      exact hseen front y (back ++ e :: rest) (by rw [hsplit]; simp)

/-! ## Operands -/

/-- An operand that is checked from a state with the scope of the expression around it. -/
theorem Ready.operand {c c' : Checking} {operand : Expr} {u : Ty} {Δ₁ : Scope Ty}
    (hframed : ∃ F Δ₀, c.scope = F :: Δ₀) (hseen : ∀ c' e', Visits Γ c e c' e' → Seen c' e')
    (henters : Enters Γ c e c' operand) (hscope : c'.scope = c.scope) (hop : operand.IsOperand)
    (htyped : HasType Γ c.scope operand u Δ₁) :
    Δ₁ = c.scope ∧ Ready Γ Seen c.scope operand u c.scope := by
  obtain rfl := htyped.scope_eq hop
  exact ⟨rfl, hframed, htyped, hop.2, c', hscope, fun c₁ e₁ h => hseen c₁ e₁ (.step henters h)⟩

theorem scope_after_variableType {c : Checking} {span : Span} (h : c.scope.get? name = some t) :
    (after (variableType span name) c).scope = c.scope := by
  have hq : Quiet (variableType span name) c (some t) c := quiet_variableType.2 ⟨t, h, rfl, rfl⟩
  rw [hq.after_eq]

theorem Ready.index {base : Name} {position : Expr}
    (h : Ready Γ Seen Δ (.index s base position) t Δ') :
    Δ' = Δ ∧ Ready Γ Seen Δ position .int Δ ∧
      ∃ u, Δ.get? base.text = some u ∧ u.Indexed t := by
  obtain ⟨hframed, htyped, htidy, c, rfl, hseen⟩ := h
  cases htyped with
  | index hbase hpos hindexed =>
    obtain ⟨rfl, hready⟩ := Ready.operand hframed hseen .index (scope_after_variableType hbase)
      (Expr.isOperand_iff.1 htidy) hpos
    exact ⟨rfl, hready, _, hbase, hindexed⟩

theorem Ready.neg (h : Ready Γ Seen Δ (.neg s e) t Δ') :
    Δ' = Δ ∧ t = .int ∧ Ready Γ Seen Δ e .int Δ := by
  obtain ⟨hframed, htyped, htidy, c, rfl, hseen⟩ := h
  cases htyped with
  | neg he =>
    obtain ⟨rfl, hready⟩ := Ready.operand hframed hseen .neg rfl (Expr.isOperand_iff.1 htidy) he
    exact ⟨rfl, rfl, hready⟩

theorem Ready.not (h : Ready Γ Seen Δ (.not s e) t Δ') :
    Δ' = Δ ∧ t = .boolean ∧ Ready Γ Seen Δ e .boolean Δ := by
  obtain ⟨hframed, htyped, htidy, c, rfl, hseen⟩ := h
  cases htyped with
  | not he =>
    obtain ⟨rfl, hready⟩ := Ready.operand hframed hseen .not rfl (Expr.isOperand_iff.1 htidy) he
    exact ⟨rfl, rfl, hready⟩

theorem Ready.parens (h : Ready Γ Seen Δ (.parens s e) t Δ') :
    Δ' = Δ ∧ Ready Γ Seen Δ e t Δ := by
  obtain ⟨hframed, htyped, htidy, c, rfl, hseen⟩ := h
  cases htyped with
  | parens he => exact Ready.operand hframed hseen .parens rfl (Expr.isOperand_iff.1 htidy) he

/-- The operands of an operation are ready in one scope, and in a regular program the operator works
on them. -/
theorem Ready.operands {op : BinOp} {l r : Expr} (h : Ready Γ Seen Δ (.binary s op l r) t Δ') :
    Δ' = Δ ∧ ∃ u w, Ready Γ Seen Δ l u Δ ∧ Ready Γ Seen Δ r w Δ ∧ op.Typed u w t ∧
      ((∀ c e, Seen c e → Regular Γ c e) → op.Applies u w) := by
  obtain ⟨hframed, htyped, htidy, c, rfl, hseen⟩ := h
  obtain ⟨hopl, hopr⟩ := Bool.and_eq_true_iff.1 htidy
  cases htyped with
  | binary hl hr hop =>
    obtain ⟨hrun, hscope⟩ := exists_run_of_hasType hframed hl
    obtain ⟨rfl, hreadyl⟩ := Ready.operand hframed hseen .left rfl (Expr.isOperand_iff.1 hopl) hl
    obtain ⟨rfl, hreadyr⟩ := Ready.operand hframed hseen .right hscope
      (Expr.isOperand_iff.1 hopr) hr
    have hright : ((expr Γ r).run (after (expr Γ l) c)).1 = some _ :=
      (exists_run_of_hasType (by rwa [hscope]) (by rwa [hscope])).1
    exact ⟨rfl, _, _, hreadyl, hreadyr, hop,
      fun hregular => hregular _ _ (hseen _ _ .here) _ _ hrun hright⟩

theorem Ready.binary (hregular : ∀ c e, Seen c e → Regular Γ c e) {op : BinOp} {l r : Expr}
    (h : Ready Γ Seen Δ (.binary s op l r) t Δ') :
    Δ' = Δ ∧ ∃ u w, Ready Γ Seen Δ l u Δ ∧ Ready Γ Seen Δ r w Δ ∧ op.Typed u w t ∧
      op.Applies u w := by
  obtain ⟨hscope, u, w, hl, hr, hop, happlies⟩ := h.operands
  exact ⟨hscope, u, w, hl, hr, hop, happlies hregular⟩

/-! ## Calls and assignments -/

theorem Ready.call {args : List Expr} (h : Ready Γ Seen Δ (.call s name args) t Δ') :
    Δ' = Δ ∧ ∃ us, ReadyAll Γ Seen Δ args us Δ ∧ (∀ e ∈ args, e.IsOperand) ∧
      Γ.Calls name us t := by
  obtain ⟨hframed, htyped, htidy, c, rfl, hseen⟩ := h
  have hops := Expr.areOperands_iff.1 htidy
  cases htyped with
  | call hargs hcall =>
    obtain rfl := hargs.scope_eq hops
    refine ⟨rfl, _, ⟨hframed, hargs, fun e he => (hops e he).2, c, rfl, ?_⟩, hops, hcall⟩
    rintro before e rest rfl c' e' hvisits
    exact hseen c' e' (.step .argument hvisits)

theorem Ready.declare {mutable : Bool} {value : Expr}
    (h : Ready Γ Seen Δ (.declare s mutable name value) t Δ') :
    t = .unit ∧ ∃ u, Ready Γ Seen Δ value u Δ ∧ Δ' = Δ.declare name u := by
  obtain ⟨hframed, htyped, htidy, c, rfl, hseen⟩ := h
  cases htyped with
  | declare hv _ =>
    obtain ⟨rfl, hready⟩ := Ready.operand hframed hseen .declared rfl
      (Expr.isOperand_iff.1 htidy) hv
    exact ⟨rfl, _, hready, rfl⟩

theorem Ready.assign {value : Expr} (h : Ready Γ Seen Δ (.assign s name value) t Δ') :
    Δ' = Δ ∧ t = .unit ∧ ∃ u, Ready Γ Seen Δ value u Δ ∧ Δ.get? name = some u := by
  obtain ⟨hframed, htyped, htidy, c, rfl, hseen⟩ := h
  cases htyped with
  | assign hv hget =>
    obtain ⟨rfl, hready⟩ := Ready.operand hframed hseen .assigned rfl
      (Expr.isOperand_iff.1 htidy) hv
    exact ⟨rfl, rfl, _, hready, hget⟩

theorem Ready.store {target : Span} {base : Name} {position value : Expr}
    (h : Ready Γ Seen Δ (.store s target base position value) t Δ') :
    Δ' = Δ ∧ t = .unit ∧ Ready Γ Seen Δ position .int Δ ∧
      ∃ u w, Δ.get? base.text = some u ∧ u.Indexed w ∧ Ready Γ Seen Δ value w Δ := by
  obtain ⟨hframed, htyped, htidy, c, rfl, hseen⟩ := h
  obtain ⟨hopp, hopv⟩ := Bool.and_eq_true_iff.1 htidy
  cases htyped with
  | @store _ _ _ _ _ _ _ _ u w hbase hpos hindexed hvalue =>
    obtain ⟨rfl, hreadyp⟩ := Ready.operand hframed hseen .position
      (scope_after_variableType hbase) (Expr.isOperand_iff.1 hopp) hpos
    obtain ⟨F, Δ₀, hs⟩ := hframed
    obtain ⟨c₁, hq, hscope⟩ := quiet_of_hasType Γ position hs hpos
    have hstate : Quiet (do
        let b ← variableType base.span base.text
        let p ← expr Γ position
        elementType target b p) c (some w) c₁ := by
      refine Quiet.bind (quiet_variableType.2 ⟨u, hbase, rfl, rfl⟩) (hq.bind ?_)
      exact quiet_elementType.2 ⟨rfl, w, hindexed, rfl, rfl⟩
    obtain ⟨rfl, hreadyv⟩ := Ready.operand ⟨F, Δ₀, hs⟩ hseen .stored
      (by rw [hstate.after_eq, hscope]) (Expr.isOperand_iff.1 hopv) hvalue
    exact ⟨rfl, rfl, hreadyp, u, w, hbase, hindexed, hreadyv⟩

theorem Ready.returnValue {value : Expr} (h : Ready Γ Seen Δ (.returnValue s value) t Δ') :
    Δ' = Δ ∧ t = .unit ∧ Ready Γ Seen Δ value Γ.result Δ := by
  obtain ⟨hframed, htyped, htidy, c, rfl, hseen⟩ := h
  cases htyped with
  | returnValue hv =>
    obtain ⟨rfl, hready⟩ := Ready.operand hframed hseen .returned rfl
      (Expr.isOperand_iff.1 htidy) hv
    exact ⟨rfl, rfl, hready⟩

/-! ## Blocks -/

/-- The state behind a condition that holds truth values. -/
theorem quiet_checkedCondition {c : Checking} {cond : Expr} (span : Span)
    (hframed : ∃ F Δ₀, c.scope = F :: Δ₀) (h : HasType Γ c.scope cond .boolean Δ') :
    ∃ c₁, Quiet (expr Γ cond) c (some .boolean) c₁ ∧
      Quiet (condition span (some .boolean)) c₁ true c₁ ∧ c₁.scope = Δ' := by
  obtain ⟨F, Δ₀, hs⟩ := hframed
  obtain ⟨c₁, hq, hscope⟩ := quiet_of_hasType Γ cond hs h
  exact ⟨c₁, hq, quiet_condition.2 ⟨rfl, rfl, rfl⟩, hscope⟩

theorem Ready.loop {cond : Expr} {body : List Expr}
    (h : Ready Γ Seen Δ (.loop s cond body) t Δ') :
    Δ' = Δ ∧ t = .unit ∧ Ready Γ Seen Δ cond .boolean Δ ∧
      ∃ us Δ₁, ReadyAll Γ Seen Δ.push body us Δ₁ := by
  obtain ⟨hframed, htyped, htidy, c, rfl, hseen⟩ := h
  obtain ⟨hopc, hbody⟩ := Bool.and_eq_true_iff.1 htidy
  cases htyped with
  | loop hc hb =>
    obtain ⟨c₁, hq, hcondition, hscope⟩ := quiet_checkedCondition s hframed hc
    have hstate : Quiet (do condition s (← expr Γ cond)) c true c₁ := hq.bind hcondition
    obtain ⟨rfl, hready⟩ := Ready.operand hframed hseen .held rfl (Expr.isOperand_iff.1 hopc) hc
    refine ⟨rfl, rfl, hready, _, _, ⟨[], _, rfl⟩, hb, Expr.areTidy_iff.1 hbody, opened c₁,
      congrArg Scope.push hscope, ?_⟩
    rintro before e rest rfl c' e' hvisits
    exact hseen c' e' (.step .repeated (by rwa [hstate.after_eq]))

theorem Ready.branch {cond : Expr} {body otherwise : List Expr}
    (h : Ready Γ Seen Δ (.branch s cond body otherwise) t Δ') :
    Δ' = Δ ∧ t = .unit ∧ Ready Γ Seen Δ cond .boolean Δ ∧
      (∃ us Δ₁, ReadyAll Γ Seen Δ.push body us Δ₁) ∧
      ∃ us Δ₁, ReadyAll Γ Seen Δ.push otherwise us Δ₁ := by
  obtain ⟨hframed, htyped, htidy, c, rfl, hseen⟩ := h
  obtain ⟨hopc, hblocks⟩ := Bool.and_eq_true_iff.1 htidy
  obtain ⟨hbody, hother⟩ := Bool.and_eq_true_iff.1 hblocks
  cases htyped with
  | branch hc hb ho =>
    obtain ⟨c₁, hq, hcondition, hscope⟩ := quiet_checkedCondition s hframed hc
    have htested : Quiet (do condition s (← expr Γ cond)) c true c₁ := hq.bind hcondition
    obtain ⟨rfl, hready⟩ := Ready.operand hframed hseen .tested rfl
      (Expr.isOperand_iff.1 hopc) hc
    obtain ⟨F, Δ₀, hs⟩ := hframed
    obtain ⟨c₂, hqb, hscope₂⟩ := quiet_block_of_hasTypes (fun e _ => quiet_of_hasType Γ e)
      (c := c₁) (hscope.trans hs) (hscope ▸ hb)
    have hstate : Quiet (do
        let _ ← condition s (← expr Γ cond)
        inBlock (exprs Γ body)) c _ c₂ := hq.bind (hcondition.bind hqb)
    refine ⟨rfl, rfl, hready,
      ⟨_, _, ⟨[], _, rfl⟩, hb, Expr.areTidy_iff.1 hbody, opened c₁, congrArg Scope.push hscope, ?_⟩,
      ⟨_, _, ⟨[], _, rfl⟩, ho, Expr.areTidy_iff.1 hother, opened c₂,
        congrArg Scope.push (hscope₂.trans hscope), ?_⟩⟩
    · rintro before e rest rfl c' e' hvisits
      exact hseen c' e' (.step .taken (by rwa [htested.after_eq]))
    · rintro before e rest rfl c' e' hvisits
      exact hseen c' e' (.step .otherwise (by rwa [hstate.after_eq]))

/-- The body of a loop is ready with the loop variable in scope; what it declares is not visible
outside of the loop.  In a regular program the loop can visit its elements. -/
theorem Ready.rounds (hsettled : ∀ c e, Seen c e → Settled c e) {iterable : Expr}
    {body : List Expr} (h : Ready Γ Seen Δ (.forIn s name iterable body) t Δ') :
    Δ' = Δ ∧ t = .unit ∧ ∃ u w, Ready Γ Seen Δ iterable u Δ ∧ u.Visited w ∧
      ((∀ c e, Seen c e → Regular Γ c e) → u.Walkable) ∧
      (∃ us Δ₁, ReadyAll Γ Seen (Δ.push.declare name w) body us Δ₁) ∧
      ∀ x ∈ Expr.declaredIn body, Δ.get? x = none := by
  obtain ⟨hframed, htyped, htidy, c, rfl, hseen⟩ := h
  obtain ⟨hopi, hbody⟩ := Bool.and_eq_true_iff.1 htidy
  cases htyped with
  | @forIn _ _ _ _ _ _ _ u w ts hi hvisited hb =>
    obtain ⟨hrun, hscope⟩ := exists_run_of_hasType hframed hi
    obtain ⟨rfl, hready⟩ := Ready.operand hframed hseen .iterable rfl
      (Expr.isOperand_iff.1 hopi) hi
    refine ⟨rfl, rfl, u, w, hready, hvisited,
      fun hregular => (hregular _ _ (hseen _ _ .here)).1 u hrun,
      ⟨ts, _, ⟨_, _, rfl⟩, hb, Expr.areTidy_iff.1 hbody,
        after (Check.declare name w) (opened (after (expr Γ iterable) c)), ?_, ?_⟩,
      hsettled _ _ (hseen _ _ .here)⟩
    · show (after (expr Γ iterable) c).scope.push.declare name w = _
      rw [hscope]
    · rintro before e rest rfl c' e' hvisits
      exact hseen c' e' (.step (.round hrun (visited_iff.1 hvisited)) hvisits)

theorem Ready.forIn (hregular : ∀ c e, Seen c e → Regular Γ c e) {iterable : Expr}
    {body : List Expr} (h : Ready Γ Seen Δ (.forIn s name iterable body) t Δ') :
    Δ' = Δ ∧ t = .unit ∧ ∃ u w, Ready Γ Seen Δ iterable u Δ ∧ u.Visited w ∧ u.Walkable ∧
      (∃ us Δ₁, ReadyAll Γ Seen (Δ.push.declare name w) body us Δ₁) ∧
      ∀ x ∈ Expr.declaredIn body, Δ.get? x = none := by
  obtain ⟨hscope, hunit, u, w, hiterable, hvisited, hwalk, hbody, hfresh⟩ :=
    h.rounds fun c e hseen => (hregular c e hseen).settled
  exact ⟨hscope, hunit, u, w, hiterable, hvisited, hwalk hregular, hbody, hfresh⟩

end

end Scriptlet.Check
