import Scriptlet.Proofs.Scoping.Checked

/-!
# Outlines at the points of a run

Checking and running come to a form with scopes of the same outlines.  `Check.Follows` says so for
checking, with one lemma for each form that hands it down to the parts; `Machine.Point` adds the
run.  Every point that a run gets to is of this kind, in the function that it starts with and in
every function that is called.
-/

namespace Scriptlet

open Run
open Check (contextOf)

/-! ## Checking, form by form -/

namespace Check

/-- Checking goes quietly through an expression, knows the names of the outlines at its start, and
comes across nothing but what `Seen` says. -/
def Follows (Γ : Context) (Seen : Checking → Expr → Prop) (M : List Outline) (F : Outline)
    (e : Expr) : Prop :=
  ∃ c, Fine Γ c e ∧ c.scope.Matches (F :: M) ∧ ∀ c' e', Visits Γ c e c' e' → Seen c' e'

/-- The same for several expressions, each behind those before it. -/
def FollowsAll (Γ : Context) (Seen : Checking → Expr → Prop) (M : List Outline) (F : Outline)
    (es : List Expr) : Prop :=
  ∀ before e rest, es = before ++ e :: rest → Follows Γ Seen M (Expr.behindAll F before) e

section

variable {Γ : Context} {Seen : Checking → Expr → Prop} {M M' : List Outline} {F F' : Outline}
  {e e' : Expr} {c c' : Checking} {s : Span} {name : String}

theorem Follows.weaken (hF : F.Implies F') (h : Follows Γ Seen M F e) : Follows Γ Seen M F' e := by
  obtain ⟨c, hfine, hmatches, hseen⟩ := h
  exact ⟨c, hfine, hmatches.weaken hF, hseen⟩

/-- A part of an expression, with what is known of the names in the state that checking enters it
in. -/
theorem Follows.enter (hfine : Fine Γ c e) (hseen : ∀ c' e', Visits Γ c e c' e' → Seen c' e')
    (henters : Enters Γ c e c' e') (hmatches : c'.scope.Matches (F' :: M')) :
    Follows Γ Seen M' F' e' :=
  ⟨c', fine_of_enters hfine henters, hmatches, fun _ _ hvisits => hseen _ _ (.step henters hvisits)⟩

/-- A part that checking enters at once. -/
theorem Follows.operand (h : Follows Γ Seen M F e) (henters : ∀ c, Enters Γ c e c e') :
    Follows Γ Seen M F e' := by
  obtain ⟨c, hfine, hmatches, hseen⟩ := h
  exact .enter hfine hseen (henters c) hmatches

/-- Expressions that are typed one after the other. -/
theorem FollowsAll.of_typed {es : List Expr} {ts : List Ty} {Δ' : Scope Ty}
    (hframed : ∃ D Δ, c.scope = D :: Δ) (htyped : HasTypes Γ c.scope es ts Δ')
    (hmatches : c.scope.Matches (F :: M))
    (hseen : ∀ before e rest, es = before ++ e :: rest →
      ∀ c' e', Visits Γ (after (exprs Γ before) c) e c' e' → Seen c' e') :
    FollowsAll Γ Seen M F es := by
  induction es generalizing c F ts with
  | nil =>
    intro before e rest hnil
    simp at hnil
  | cons x es ih =>
    cases htyped with
    | cons hx hes =>
      obtain ⟨D, Δ, hs⟩ := hframed
      obtain ⟨c₁, hquiet, hscope⟩ := quiet_of_hasType Γ x hs hx
      intro before e rest hsplit
      cases before with
      | nil =>
        obtain ⟨rfl, rfl⟩ := List.cons.inj hsplit
        exact ⟨c, ⟨⟨D, Δ, hs⟩, _, c₁, hquiet⟩, hmatches, hseen [] x es rfl⟩
      | cons y before =>
        -- The expressions behind the first one start where it ends.
        obtain ⟨rfl, rfl⟩ := List.cons.inj hsplit
        obtain ⟨D', hs'⟩ := HasType.outer (hs ▸ hx)
        rw [← hscope] at hes hs'
        refine ih ⟨D', Δ, hs'⟩ hes (hscope ▸ hx.matches hmatches) ?_ before e rest rfl
        intro front z back hback c' e' hvisits
        refine hseen (x :: front) z back (by rw [hback, List.cons_append]) c' e' ?_
        rw [← hquiet.after_eq] at hvisits
        exact hvisits

theorem Follows.index {base : Name} {position : Expr}
    (h : Follows Γ Seen M F (.index s base position)) : Follows Γ Seen M F position := by
  obtain ⟨c, hfine, hmatches, hseen⟩ := h
  obtain ⟨t, -, ⟨Δ', htyped⟩, -⟩ := unique_type_of_fine hfine
  cases htyped with
  | index hbase _ _ =>
    exact .enter hfine hseen .index (by rwa [scope_after_variableType hbase])

theorem Follows.right {op : BinOp} {l r : Expr} (h : Follows Γ Seen M F (.binary s op l r)) :
    Follows Γ Seen M (l.behind F) r := by
  obtain ⟨c, hfine, hmatches, hseen⟩ := h
  obtain ⟨t, -, ⟨Δ', htyped⟩, -⟩ := unique_type_of_fine hfine
  cases htyped with
  | binary hl _ _ =>
    refine .enter hfine hseen .right ?_
    rw [(exists_run_of_hasType hfine.1 hl).2]
    exact hl.matches hmatches

theorem Follows.call {args : List Expr} (h : Follows Γ Seen M F (.call s name args)) :
    FollowsAll Γ Seen M F args := by
  obtain ⟨c, hfine, hmatches, hseen⟩ := h
  obtain ⟨t, -, ⟨Δ', htyped⟩, -⟩ := unique_type_of_fine hfine
  cases htyped with
  | call hargs _ =>
    refine .of_typed hfine.1 hargs hmatches ?_
    rintro before e rest rfl c' e' hvisits
    exact hseen c' e' (.step .argument hvisits)

theorem Follows.store {target : Span} {base : Name} {position value : Expr}
    (h : Follows Γ Seen M F (.store s target base position value)) :
    Follows Γ Seen M F position ∧ Follows Γ Seen M (position.behind F) value := by
  obtain ⟨c, hfine, hmatches, hseen⟩ := h
  obtain ⟨t, -, ⟨Δ', htyped⟩, -⟩ := unique_type_of_fine hfine
  cases htyped with
  | @store _ Δ₁ _ _ _ _ _ _ t u hbase hposition hindexed _ =>
    refine ⟨.enter hfine hseen .position (by rwa [scope_after_variableType hbase]),
      .enter hfine hseen .stored ?_⟩
    obtain ⟨D, Δ, hs⟩ := hfine.1
    obtain ⟨c₁, hquiet, hscope⟩ := quiet_of_hasType Γ position hs hposition
    have hstate : Quiet (do
        let b ← variableType base.span base.text
        let p ← expr Γ position
        elementType target b p) c (some u) c₁ := by
      refine Quiet.bind (quiet_variableType.2 ⟨t, hbase, rfl, rfl⟩) (hquiet.bind ?_)
      exact quiet_elementType.2 ⟨rfl, u, hindexed, rfl, rfl⟩
    rw [hstate.after_eq, hscope]
    exact hposition.matches hmatches

theorem Follows.branch {cond : Expr} {body otherwise : List Expr}
    (h : Follows Γ Seen M F (.branch s cond body otherwise)) :
    FollowsAll Γ Seen (cond.behind F :: M) .empty body ∧
      FollowsAll Γ Seen (cond.behind F :: M) .empty otherwise := by
  obtain ⟨c, hfine, hmatches, hseen⟩ := h
  obtain ⟨t, -, ⟨Δ', htyped⟩, -⟩ := unique_type_of_fine hfine
  cases htyped with
  | branch hcond hbody hother =>
    obtain ⟨c₁, hquiet, hcondition, hscope⟩ := quiet_checkedCondition s hfine.1 hcond
    have htested : Quiet (do condition s (← expr Γ cond)) c true c₁ := hquiet.bind hcondition
    obtain ⟨D, Δ, hs⟩ := hfine.1
    obtain ⟨D', hs'⟩ := HasType.outer (hs ▸ hcond)
    obtain ⟨c₂, hquiet₂, hscope₂⟩ := quiet_block_of_hasTypes (fun e _ => quiet_of_hasType Γ e)
      (c := c₁) (hscope.trans hs') (hscope ▸ hbody)
    have hstate : Quiet (do
        let _ ← condition s (← expr Γ cond)
        inBlock (exprs Γ body)) c _ c₂ := hquiet.bind (hcondition.bind hquiet₂)
    have hmatches₁ := hcond.matches hmatches
    rw [← hscope] at hbody hother hmatches₁
    have hmatches₂ := hmatches₁
    rw [← hscope₂] at hother hmatches₂
    refine ⟨.of_typed (c := opened c₁) ⟨[], _, rfl⟩ hbody hmatches₁.push ?_,
      .of_typed (c := opened c₂) ⟨[], _, rfl⟩ hother hmatches₂.push ?_⟩
    · rintro before e rest rfl c' e' hvisits
      exact hseen c' e' (.step .taken (by rwa [htested.after_eq]))
    · rintro before e rest rfl c' e' hvisits
      exact hseen c' e' (.step .otherwise (by rwa [hstate.after_eq]))

theorem Follows.forIn {iterable : Expr} {body : List Expr}
    (h : Follows Γ Seen M F (.forIn s name iterable body)) :
    FollowsAll Γ Seen (iterable.behind F :: M) (Expr.roundStart name body) body := by
  obtain ⟨c, hfine, hmatches, hseen⟩ := h
  obtain ⟨t, -, ⟨Δ', htyped⟩, -⟩ := unique_type_of_fine hfine
  cases htyped with
  | @forIn _ _ _ _ _ _ _ _ u _ hiterable hvisited hbody =>
    obtain ⟨hrun, hscope⟩ := exists_run_of_hasType hfine.1 hiterable
    have hround := (hiterable.matches hmatches).round name body u
    rw [← hscope] at hbody hround
    refine .of_typed (c := after (Check.declare name u) (opened (after (expr Γ iterable) c)))
      ⟨_, _, rfl⟩ hbody hround ?_
    rintro before e rest rfl c' e' hvisits
    exact hseen c' e' (.step (.round hrun (visited_iff.1 hvisited)) hvisits)

theorem Follows.loop {cond : Expr} {body : List Expr} (h : Follows Γ Seen M F (.loop s cond body)) :
    FollowsAll Γ Seen (cond.behind F :: M) .empty body := by
  obtain ⟨c, hfine, hmatches, hseen⟩ := h
  obtain ⟨t, -, ⟨Δ', htyped⟩, -⟩ := unique_type_of_fine hfine
  cases htyped with
  | loop hcond hbody =>
    obtain ⟨c₁, hquiet, hcondition, hscope⟩ := quiet_checkedCondition s hfine.1 hcond
    have htested : Quiet (do condition s (← expr Γ cond)) c true c₁ := hquiet.bind hcondition
    have hmatches₁ := hcond.matches hmatches
    rw [← hscope] at hbody hmatches₁
    refine .of_typed (c := opened c₁) ⟨[], _, rfl⟩ hbody hmatches₁.push ?_
    rintro before e rest rfl c' e' hvisits
    exact hseen c' e' (.step .repeated (by rwa [htested.after_eq]))

end

end Check

open Check (Follows FollowsAll)

/-! ## Running, form by form -/

/-- A form that is about to be run, with what is known of the variables. -/
structure Machine.Point (ok : List Outline → String → Bool) (known : String → Nat → Prop)
    (Γ : Context) (Seen : Checking → Expr → Prop) (M : List Outline) (F : Outline) (s : State)
    (e : Expr) : Prop where
  uses : e.uses ok M F = true
  calls : e.CallsKnown known
  follows : Follows Γ Seen M F e
  alike : s.Alike true (F :: M) s

/-- Forms that are about to be run one after the other, with what is known of the variables. -/
structure Machine.PointAll (ok : List Outline → String → Bool) (known : String → Nat → Prop)
    (Γ : Context) (Seen : Checking → Expr → Prop) (M : List Outline) (F : Outline) (s : State)
    (es : List Expr) : Prop where
  uses : Expr.usesAll ok M F es = true
  calls : ∀ e ∈ es, e.CallsKnown known
  follows : FollowsAll Γ Seen M F es
  alike : s.Alike true (F :: M) s

/-- What holds of several forms holds of the first ones, and of each behind those before it. -/
theorem Expr.usesAll_split {ok : List Outline → String → Bool} {M : List Outline} {F : Outline}
    {before rest : List Expr} {e : Expr} (h : usesAll ok M F (before ++ e :: rest) = true) :
    usesAll ok M F before = true ∧ e.uses ok M (behindAll F before) = true := by
  induction before generalizing F with
  | nil => exact ⟨rfl, (Bool.and_eq_true_iff.1 h).1⟩
  | cons x before ih =>
    obtain ⟨hx, hrest⟩ := Bool.and_eq_true_iff.1 h
    obtain ⟨hbefore, he⟩ := ih hrest
    exact ⟨Bool.and_eq_true_iff.2 ⟨hx, hbefore⟩, he⟩

namespace Machine

section

variable {ok : List Outline → String → Bool} {known : String → Nat → Prop} {E : Stop → Prop}
  {Γ : Context} {Seen : Checking → Expr → Prop} {m : Machine} {M : List Outline} {F : Outline}
  {s s' : State} {e e' : Expr}

/-- An operand that is run next. -/
theorem Point.operand (huses : e.uses ok M F = true) (hcalls : e.CallsKnown known)
    (hfollows : Follows Γ Seen M F e) (hs : s.Alike true (F :: M) s)
    (hrun : (announceStatement e).run s = (.ok (), s')) :
    ∃ M F, Point ok known Γ Seen M F s' e :=
  have hs' := ((blind_announceStatement (E := fun _ => True) e).twin hs).self hrun
  ⟨M, F, huses, hcalls, hfollows, hs'⟩

/-- An operand that is run, and checked, before anything else. -/
theorem Point.first (h : Point ok known Γ Seen M F s e) (hpart : e' ∈ e.parts)
    (huses : e'.uses ok M F = true) (henters : ∀ c, Check.Enters Γ c e c e')
    (hrun : (announceStatement e').run s = (.ok (), s')) :
    ∃ M F, Point ok known Γ Seen M F s' e' :=
  Point.operand huses (h.calls.part hpart) (h.follows.operand henters) h.alike hrun

/-- A statement that is run next, behind those before it. -/
theorem PointAll.statement (hm : Pair true E known m m) (hr : Regime true ok E)
    {before rest : List Expr} (h : PointAll ok known Γ Seen M F s (before ++ e :: rest))
    (hcomes : m.Comes before e s s') : ∃ M F, Point ok known Γ Seen M F s' e := by
  obtain ⟨hbefore, he⟩ := Expr.usesAll_split h.uses
  obtain ⟨s₁, hrun, hannounce⟩ := hcomes
  have hs₁ : s₁.Alike true (Expr.behindAll F before :: M) s₁ :=
    (twin_block (fun e _ => hm.sideBySide hr e) hbefore
      (fun e he => h.calls e (List.mem_append_left _ he)) h.alike).self hrun
  have hs' := (twin_announce (E := E) hs₁ e).self hannounce
  exact ⟨M, _, he, h.calls e (by simp), h.follows before e rest rfl, hs'⟩

/-- The rounds of a loop keep what is known. -/
theorem Rounds.keeps_alike (hm : Pair true E known m m) (hr : Regime true ok E) {cond : Expr}
    {body : List Expr} {k : Nat} (hcond : cond.uses ok M (F.doubt cond.declared) = true)
    (hbody : Expr.usesAll ok (cond.behind (F.doubt cond.declared) :: M) .empty body = true)
    (hcondCalls : cond.CallsKnown known) (hcalls : ∀ e ∈ body, e.CallsKnown known)
    (hrounds : m.Rounds cond body k s s') (hs : s.Alike true (F.doubt cond.declared :: M) s) :
    s'.Alike true (F.doubt cond.declared :: M) s' := by
  induction hrounds with
  | none => exact hs
  | more _ hcondition _ hnote hround ih =>
    have hs₁ := ((hm.sideBySide hr cond).value hr hcond hcondCalls (ih hs)).self hcondition
    have hs₂ := ((blind_note (E := E) _ _).twin hs₁).self hnote
    have hs₃ := (twin_inBlock hs₂ fun ht =>
      twin_block (fun e _ => hm.sideBySide hr e) hbody hcalls ht).self hround
    exact State.Alike.weaken (cond.behind_cond_implies F) hs₃

/-- What is noted about a condition changes no variable. -/
theorem alike_of_noteCondition {c : Value} (hs : s.Alike true M s)
    (hrun : (noteValue 3 "if condition -> " c).run s = (.ok (), s')) :
    s'.Alike true M s' :=
  ((blind_noteValue _ _ c).twin hs).self hrun

/-- From form to form, what is known of the variables is handed down. -/
theorem Point.enter (hm : Pair true E known m m) (hr : Regime true ok E)
    (h : Point ok known Γ Seen M F s e) (henters : m.Enters s e s' e') :
    ∃ M F, Point ok known Γ Seen M F s' e' := by
  have huses := h.uses
  have hfollows := h.follows
  have hs := h.alike
  -- the variables behind an operand
  have hvalue : ∀ {l : Expr} {M : List Outline} {F : Outline} {s s₁ : State} {a : Value},
      l.uses ok M F = true → l.CallsKnown known → s.Alike true (F :: M) s →
      (m.eval l).run s = (.ok a, s₁) → s₁.Alike true (l.behind F :: M) s₁ :=
    fun huses hcalls hs hrun => ((hm.sideBySide hr _).value hr huses hcalls hs).self hrun
  have hpart : ∀ {l : Expr}, l ∈ e.parts → l.CallsKnown known := h.calls.part
  cases henters with
  | index hlookup hrun =>
    obtain ⟨hbase, hposition⟩ := Bool.and_eq_true_iff.1 huses
    have hs₁ := (hr.twin_lookup hbase hs).self hlookup
    exact Point.operand hposition (hpart (by simp [Expr.parts])) hfollows.index hs₁ hrun
  | neg hrun =>
    exact h.first (by simp [Expr.parts]) huses (fun _ => .neg) hrun
  | not hrun =>
    exact h.first (by simp [Expr.parts]) huses (fun _ => .not) hrun
  | parens hrun =>
    exact h.first (by simp [Expr.parts]) huses (fun _ => .parens) hrun
  | left hrun =>
    exact h.first (by simp [Expr.parts]) (Bool.and_eq_true_iff.1 huses).1 (fun _ => .left) hrun
  | right hleft _ hrun =>
    obtain ⟨hl, hright⟩ := Bool.and_eq_true_iff.1 huses
    have hs₁ := hvalue hl (hpart (by simp [Expr.parts])) hs hleft
    exact Point.operand hright (hpart (by simp [Expr.parts])) hfollows.right hs₁ hrun
  | declared hrun =>
    exact h.first (by simp [Expr.parts]) huses (fun _ => .declared) hrun
  | assigned hrun =>
    exact h.first (by simp [Expr.parts]) (Bool.and_eq_true_iff.1 huses).1 (fun _ => .assigned) hrun
  | argument hbefore hrun =>
    obtain ⟨hfront, he⟩ := Expr.usesAll_split huses
    have hs₁ := ((twin_values (fun e _ => hm.sideBySide hr e) hr hfront
      (fun e he => hpart (by simp [Expr.parts, he])) hs).self hbefore).2
    exact Point.operand he (hpart (by simp [Expr.parts])) (hfollows.call _ _ _ rfl) hs₁ hrun
  | position hlookup hrun =>
    simp only [Expr.uses, Bool.and_eq_true] at huses
    obtain ⟨⟨⟨hbase, hposition⟩, -⟩, -⟩ := huses
    have hs₁ := (hr.twin_lookup hbase hs).self hlookup
    exact Point.operand hposition (hpart (by simp [Expr.parts])) hfollows.store.1 hs₁ hrun
  | stored hlookup hindex hrun =>
    simp only [Expr.uses, Bool.and_eq_true] at huses
    obtain ⟨⟨⟨hbase, hposition⟩, hstored⟩, -⟩ := huses
    have hs₁ := (hr.twin_lookup hbase hs).self hlookup
    have hs₂ := hvalue hposition (hpart (by simp [Expr.parts])) hs₁ hindex
    exact Point.operand hstored (hpart (by simp [Expr.parts])) hfollows.store.2 hs₂ hrun
  | tested hrun =>
    simp only [Expr.uses, Bool.and_eq_true] at huses
    exact h.first (by simp [Expr.parts]) huses.1.1 (fun _ => .tested) hrun
  | taken hcondition _ hnote hcomes =>
    simp only [Expr.uses, Bool.and_eq_true] at huses
    obtain ⟨⟨hcond, hbody⟩, -⟩ := huses
    have hs₁ := hvalue hcond (hpart (by simp [Expr.parts])) hs hcondition
    exact PointAll.statement hm hr ⟨hbody, fun x hx => hpart (List.mem_append_left _ (.tail _ hx)),
      hfollows.branch.1, (alike_of_noteCondition hs₁ hnote).push⟩ hcomes
  | otherwise hcondition _ hnote hcomes =>
    simp only [Expr.uses, Bool.and_eq_true] at huses
    obtain ⟨⟨hcond, -⟩, hother⟩ := huses
    have hs₁ := hvalue hcond (hpart (by simp [Expr.parts])) hs hcondition
    exact PointAll.statement hm hr ⟨hother, fun x hx => hpart (List.mem_append_right _ hx),
      hfollows.branch.2, (alike_of_noteCondition hs₁ hnote).push⟩ hcomes
  | iterable hrun =>
    exact h.first (by simp [Expr.parts]) (Bool.and_eq_true_iff.1 huses).1 (fun _ => .iterable) hrun
  | round _ hiter helements _ hdone hround hannounce =>
    obtain ⟨hiterable, hbody⟩ := Bool.and_eq_true_iff.1 huses
    have hbodyCalls := fun x hx => hpart (l := x) (.tail _ hx)
    have hs₁ := hvalue hiterable (hpart (by simp [Expr.parts])) hs hiter
    have hs₂ := (((Value.blind_elements _).imp hr.admits).twin hs₁).self helements
    -- the rounds that are done, each with the whole body
    have hs₃ := (twin_rounds hr (Expr.behindAll_roundStart _ _)
      (fun ht => twin_block (fun e _ => hm.sideBySide hr e) hbody hbodyCalls ht) _
      (hs₂.push.weaken (Outline.empty_implies_leftover _))).self hdone
    -- the round that is going on, with the statements before the one that comes next
    obtain ⟨hbefore, he⟩ := Expr.usesAll_split hbody
    have hs₄ := (twin_roundFor hr (fun ht => twin_block (fun e _ => hm.sideBySide hr e) hbefore
      (fun x hx => hbodyCalls x (List.mem_append_left _ hx)) ht) _ hs₃).self hround
    have hs' := (twin_announce (E := E) hs₄ e').self hannounce
    exact ⟨_, _, he, hbodyCalls e' (List.mem_append_right _ List.mem_cons_self),
      hfollows.forIn _ e' _ rfl, hs'⟩
  | freshRound hfresh =>
    -- A strict comparison is about runs whose loops share their frames.
    rw [hm.shared] at hfresh
    cases hfresh
  | held hrounds _ hrun =>
    obtain ⟨hcond, hbody⟩ := Bool.and_eq_true_iff.1 huses
    -- After any number of rounds the condition may have been run before.
    have hs₁ := hrounds.keeps_alike hm hr hcond hbody (hpart (by simp [Expr.parts]))
      (fun x hx => hpart (.tail _ hx)) (hs.weaken (F.implies_doubt _))
    exact Point.operand hcond (hpart (by simp [Expr.parts]))
      ((hfollows.operand fun _ => .held).weaken (F.implies_doubt _)) hs₁ hrun
  | repeated hrounds _ hcondition _ hnote hcomes =>
    obtain ⟨hcond, hbody⟩ := Bool.and_eq_true_iff.1 huses
    have hbodyCalls := fun x hx => hpart (l := x) (.tail _ hx)
    have hs₁ := hrounds.keeps_alike hm hr hcond hbody (hpart (by simp [Expr.parts])) hbodyCalls
      (hs.weaken (F.implies_doubt _))
    have hs₂ := hvalue hcond (hpart (by simp [Expr.parts])) hs₁ hcondition
    have hs₃ := ((blind_note (E := E) _ _).twin hs₂).self hnote
    exact PointAll.statement hm hr
      ⟨hbody, hbodyCalls, (hfollows.weaken (F.implies_doubt _)).loop, hs₃.push⟩ hcomes
  | returned hrun =>
    exact h.first (by simp [Expr.parts]) huses (fun _ => .returned) hrun

end

end Machine

/-! ## From call to call -/

section

variable {ok : List Outline → String → Bool} {E : Stop → Prop} {p : Program} {trace : Trace}
  {o : Settings}

/-- Checking goes through the body of a function with its parameters in scope. -/
theorem Program.WellTyped.followsAll_body (h : p.WellTyped) (trace : Trace) {f : Fun}
    (hf : f ∈ p.functions) :
    FollowsAll (contextOf p.signatures f) (p.Visits trace f) [] f.outline f.body := by
  obtain ⟨-, ts, Δ', htyped⟩ := h.2.2 f hf
  obtain ⟨before, rest, hfunctions⟩ := List.append_of_mem hf
  obtain ⟨c₀, hscope, hstart, -⟩ := h.body_start trace hfunctions
  have hmatches := f.matches_scope
  rw [← hscope] at htyped hmatches
  refine .of_typed ⟨_, _, hscope⟩ htyped hmatches ?_
  intro es e es' hbody c' e' hvisits
  exact .body (h.run_signatures trace) hfunctions hbody (by rwa [hstart])

/-- The body of a function at the start of a call. -/
theorem Program.WellTyped.pointAll_body (h : p.WellTyped) (huses : p.uses ok = true)
    (trace : Trace) {f : Fun} (hf : f ∈ p.functions) {vs : List Value}
    (hvs : vs.length = f.params.length) (s : State) :
    Machine.PointAll ok p.Takes (contextOf p.signatures f) (p.Visits trace f) [] f.outline
      { s with scope := [f.frame vs] } f.body :=
  ⟨Program.usesAll_body huses hf, fun _ he => h.callsKnown hf he, h.followsAll_body trace hf,
    .refl _, .cons (Fun.alike_frame (h.2.2 f hf).1 hvs true) .nil⟩

/-- At every point of a run the outlines are known of the variables, and checking came to the form
with the same outlines. -/
theorem Program.Reaches.point (h : p.WellTyped) (hr : Regime true ok E) (huses : p.uses ok = true)
    (ho : o.Pair true o) (trace : Trace) {s₀ : State} {depth : Nat} {waiting : List Waiting}
    {f : Fun} {s : State} {e : Expr} (hreach : p.Reaches o s₀ depth waiting f s e) :
    ∃ M F, Machine.Point ok p.Takes (contextOf p.signatures f) (p.Visits trace f) M F s e := by
  have hm : ∀ depth, Machine.Pair true E p.Takes (p.machineAt o depth) (p.machineAt o depth) :=
    fun depth => ho.machines hr.admits (Program.sameInvoke h hr huses ho depth)
  induction hreach with
  | @start depth f s s' before rest e _ hfind _ hbody hcomes =>
    obtain ⟨main, hmain, hparams⟩ := h.main
    obtain rfl := Option.some.inj (hfind.symm.trans hmain)
    have hvs : ([] : List Value).length = f.params.length := by simp [hparams]
    have hstart := h.pointAll_body huses trace (List.mem_of_find?_eq_some hfind) hvs s
    rw [hbody] at hstart
    exact hstart.statement (hm depth) hr hcomes
  | part _ henters ih =>
    obtain ⟨M, F, hpoint⟩ := ih
    exact hpoint.enter (hm _) hr henters
  | @call depth waiting f g s s₁ s₂ s' span name args before rest e vs _ hvalues hname hfind _
      hbody hcomes ih =>
    obtain ⟨M, F, hpoint⟩ := ih
    -- there are as many arguments as parameters
    obtain ⟨hlength, -⟩ := (Machine.twin_values (fun e _ => (hm (depth + 1)).sideBySide hr e) hr
      hpoint.uses (fun e he => hpoint.calls.part he) hpoint.alike).self hvalues
    have hvs : vs.length = g.params.length := by
      rcases hpoint.calls span name args .self with ⟨b, hb⟩ | ⟨g', hfind', hparams⟩
      · cases hname.symm.trans hb
      · obtain rfl := Option.some.inj (hfind.symm.trans hfind')
        rw [hlength, hparams]
    have hstart := h.pointAll_body huses trace (List.mem_of_find?_eq_some hfind) hvs s₂
    rw [hbody] at hstart
    exact hstart.statement (hm depth) hr hcomes

end

end Scriptlet
