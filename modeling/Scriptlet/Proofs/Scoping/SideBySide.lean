import Scriptlet.Proofs.Scoping.Alike

/-!
# Forms, run side by side

Two machines that differ at most in the scope of their loops run a form side by side, as long as the
names that it uses are not stale.  The argument follows the syntax; what is known of the variables
goes from outline to outline.  Calls are assumed to go alike, and are shown to do so afterwards.
-/

namespace Scriptlet

open Run

/-! ## What is to be shown -/

/-- A question about names that is enough for two runs to stay side by side, and to stop only for
reasons that `E` admits. -/
structure Run.Regime (strict : Bool) (ok : List Outline → String → Bool) (E : Stop → Prop) :
    Prop where
  admits : ∀ e : Stop, e.KnowsNames → E e
  alike : ∀ {M : List Outline} {x : String}, ok M x = true →
    strict = true ∨ Outline.clean M x = true
  found : ∀ {M : List Outline} {x : String}, ok M x = true → Outline.binds M x = true ∨
    E (.breach (.undefinedVariable x)) ∧ E (.breach (.undefinedTarget x))

/-- The first machine shares the frames of loops; so does the second one in a strict comparison, and
otherwise it has a frame for each round.  Calls of known functions are the same and leave the
variables of the caller alone. -/
structure Machine.Pair (strict : Bool) (E : Stop → Prop) (known : String → Nat → Prop)
    (m m' : Machine) : Prop where
  rounds : m'.rounds = m.rounds
  shared : m.forScope = .shared
  other : m'.forScope = if strict then .shared else .fresh
  call : ∀ {name : String} {vs : List Value}, known name vs.length →
    m'.call name vs = m.call name vs ∧ Blind E (m.call name vs)

/-- All calls in an expression are calls of known functions. -/
def Expr.CallsKnown (known : String → Nat → Prop) (e : Expr) : Prop :=
  ∀ span name args, (Expr.call span name args).Within e → known name args.length

theorem Expr.CallsKnown.part {known : String → Nat → Prop} {e e' : Expr} (h : e.CallsKnown known)
    (hpart : e' ∈ e.parts) : e'.CallsKnown known :=
  fun span name args hwithin => h span name args (.part hpart hwithin)

/-- Statements end in states whose outlines are known, or leave the call. -/
def Completion.Meets (strict : Bool) (M : List Outline) : Completion → State → State → Prop
  | .normal, s, s' => s.Alike strict M s'
  | .returned _, s, s' => s.Beside s'

/-- Forms end in states whose outlines are known, or leave the call. -/
def Effect.Meets (strict : Bool) (M : List Outline) : Effect → State → State → Prop
  | .value _, s, s' => s.Alike strict M s'
  | .completed c, s, s' => c.Meets strict M s s'

theorem Completion.Meets.imp {strict : Bool} {M M' : List Outline} {c : Completion} {s s' : State}
    (h : c.Meets strict M s s') (hM : s.Alike strict M s' → s.Alike strict M' s') :
    c.Meets strict M' s s' := by
  cases c with
  | normal => exact hM h
  | returned v => exact h

section

variable {α : Type} {strict : Bool} {ok : List Outline → String → Bool} {E : Stop → Prop}
  {known : String → Nat → Prop} {m m' : Machine} {M : List Outline} {F F' : Outline} {s s' : State}

/-- The machines run a form side by side. -/
def Machine.SideBySide (strict : Bool) (ok : List Outline → String → Bool) (E : Stop → Prop)
    (known : String → Nat → Prop) (m m' : Machine) (e : Expr) : Prop :=
  ∀ ⦃M : List Outline⦄ ⦃F : Outline⦄ ⦃s s' : State⦄, e.uses ok M F = true → e.CallsKnown known →
    s.Alike strict (F :: M) s' →
    Twin E (m.step e) (m'.step e) s s' (Effect.Meets strict (e.behind F :: M))

/-! ## Variables -/

theorem Run.Regime.twin_lookup (hr : Regime strict ok E) {x : String} (hx : ok M x = true)
    (hs : s.Alike strict M s') :
    Twin E (lookup x) (lookup x) s s' fun _ t t' => t.Alike strict M t' := by
  have heq := hs.scope.get?_eq (hr.alike hx)
  cases hget : s.scope.get? x with
  | some v => exact .inl ⟨v, s, s', run_lookup hget, run_lookup (heq.trans hget), hs⟩
  | none =>
    have hE : E (.breach (.undefinedVariable x)) := by
      rcases hr.found hx with hbinds | hE
      · exact absurd hget (hs.scope.get?_ne_none hbinds)
      · exact hE.1
    refine .inr ⟨_, s, s', ?_, ?_, hE, hs.beside⟩
    · rw [lookup, run_get_bind, hget]
      rfl
    · rw [lookup, run_get_bind, heq.trans hget]
      rfl

theorem Run.Regime.twin_assign (hr : Regime strict ok E) {x : String} (hx : ok M x = true)
    (hs : s.Alike strict M s') (v : Value) :
    Twin E (assign x v) (assign x v) s s' fun _ t t' => t.Alike strict M t' := by
  cases hset : s.scope.set? x v with
  | some sc =>
    obtain ⟨sc', hset', halike⟩ := hs.scope.set? (hr.alike hx) hset
    exact .inl ⟨(), _, _, run_assign hset, run_assign hset', hs.beside.scope _ _, halike⟩
  | none =>
    -- Neither scope has the name.
    have hget : s.scope.get? x = none := by
      rw [← Option.isNone_iff_eq_none, ← Option.not_isSome, ← Scope.isSome_set? s.scope x v, hset]
      rfl
    have hset' : s'.scope.set? x v = none := by
      rw [← Option.isNone_iff_eq_none, ← Option.not_isSome, Scope.isSome_set?,
        hs.scope.get?_eq (hr.alike hx), hget]
      rfl
    have hE : E (.breach (.undefinedTarget x)) := by
      rcases hr.found hx with hbinds | hE
      · exact absurd hget (hs.scope.get?_ne_none hbinds)
      · exact hE.2
    refine .inr ⟨_, s, s', ?_, ?_, hE, hs.beside⟩
    · rw [assign, run_get_bind, hset]
      rfl
    · rw [assign, run_get_bind, hset']
      rfl

theorem Run.twin_declare (hs : s.Alike strict (F :: M) s') (x : String) (v : Value) :
    Twin E (Run.declare x v) (Run.declare x v) s s' fun _ t t' =>
      t.Alike strict (F.declare x :: M) t' :=
  .inl ⟨(), _, _, rfl, rfl, hs.beside.scope _ _, hs.scope.declare x v⟩

/-- What a store does to a text is an assignment. -/
theorem Run.Regime.twin_storeAt (hr : Regime strict ok E) {x : String} (hx : ok M x = true)
    (hs : s.Alike strict M s') (container i v : Value) :
    Twin E (container.storeAt x i v) (container.storeAt x i v) s s' fun _ t t' =>
      t.Alike strict M t' := by
  unfold Value.storeAt
  split
  · refine ((blind_itemsOf _).bind fun items => ?_ : Blind E _).twin hs
    exact ((blind_position _ _).imp hr.admits).bind fun _ => blind_store _ _ _
  · refine (((blind_position _ _).imp hr.admits).twin hs).bind ?_
    exact fun _ t t' ht => hr.twin_assign hx ht _
  · exact twin_throw (hr.admits _ trivial) hs.beside

/-! ## Blocks -/

/-- A block of its own for the first of two runs. -/
theorem Run.twin_inBlock_left {act act' : Run α} {Q : α → State → State → Prop}
    (h : Twin E act act' { s with scope := s.scope.push } s' fun a t t' =>
      Q a { t with scope := t.scope.pop } t') : Twin E (inBlock act) act' s s' Q := by
  have hrun : (inBlock act).run s = ((act.run { s with scope := s.scope.push }).1,
      { (act.run { s with scope := s.scope.push }).2 with
        scope := (act.run { s with scope := s.scope.push }).2.scope.pop }) := rfl
  rcases h with ⟨a, t, t', hact, hact', hQ⟩ | ⟨e, t, t', hact, hact', hE, hbeside⟩ <;>
    rw [hact] at hrun
  · exact .inl ⟨a, _, t', hrun, hact', hQ⟩
  · exact .inr ⟨e, _, t', hrun, hact', hE, hbeside.scope _ _⟩

/-- A block of its own for the second of two runs. -/
theorem Run.twin_inBlock_right {act act' : Run α} {Q : α → State → State → Prop}
    (h : Twin E act act' s { s' with scope := s'.scope.push } fun a t t' =>
      Q a t { t' with scope := t'.scope.pop }) : Twin E act (inBlock act') s s' Q := by
  have hrun : (inBlock act').run s' = ((act'.run { s' with scope := s'.scope.push }).1,
      { (act'.run { s' with scope := s'.scope.push }).2 with
        scope := (act'.run { s' with scope := s'.scope.push }).2.scope.pop }) := rfl
  rcases h with ⟨a, t, t', hact, hact', hQ⟩ | ⟨e, t, t', hact, hact', hE, hbeside⟩ <;>
    rw [hact'] at hrun
  · exact .inl ⟨a, t, _, hact, hrun, hQ⟩
  · exact .inr ⟨e, t, _, hact, hrun, hE, hbeside.scope _ _⟩

/-- Statements in a block of their own, in both runs. -/
theorem Run.twin_inBlock {act act' : Run Completion} {F₀ : Outline}
    (hs : s.Alike strict (F₀ :: M) s')
    (h : ∀ {t t' : State}, t.Alike strict (.empty :: F₀ :: M) t' →
      Twin E act act' t t' (Completion.Meets strict (F :: F₀ :: M))) :
    Twin E (inBlock act) (inBlock act') s s' (Completion.Meets strict (F₀ :: M)) := by
  apply twin_inBlock_left
  apply twin_inBlock_right
  refine (h hs.push).imp ?_
  intro c t t' hc
  cases c with
  | normal => exact hc.pop
  | returned v => exact hc.scope _ _

/-! ## Ends of forms -/

theorem Run.twin_announce (hs : s.Alike strict M s') (e : Expr) :
    Twin E (announce e) (announce e) s s' fun _ t t' => t.Alike strict M t' :=
  (blind_note _ _).twin hs

/-- The value of a form. -/
theorem Machine.SideBySide.value {e : Expr} (h : SideBySide strict ok E known m m' e)
    (hr : Regime strict ok E) (huses : e.uses ok M F = true) (hcalls : e.CallsKnown known)
    (hs : s.Alike strict (F :: M) s') :
    Twin E (m.eval e) (m'.eval e) s s' fun _ t t' => t.Alike strict (e.behind F :: M) t' := by
  refine ((blind_announceStatement e).twin hs).bind ?_
  intro _ t t' ht
  refine (h huses hcalls ht).bind ?_
  intro effect u u' hu
  cases effect with
  | value v => exact twin_pure hu
  | completed c =>
    cases c with
    | normal => exact twin_pure hu
    | returned v => exact twin_throw (hr.admits _ trivial) hu

/-- A form that is run as a statement. -/
theorem Machine.SideBySide.statement {e : Expr} (h : SideBySide strict ok E known m m' e)
    (huses : e.uses ok M F = true) (hcalls : e.CallsKnown known)
    (hs : s.Alike strict (F :: M) s') :
    Twin E (m.exec e) (m'.exec e) s s' (Completion.Meets strict (e.behind F :: M)) := by
  refine (twin_announce hs e).bind ?_
  intro _ t t' ht
  refine (h huses hcalls ht).bind ?_
  intro effect u u' hu
  cases effect with
  | value v => exact twin_pure hu
  | completed c => exact twin_pure hu

/-- The second of two runs is reached only if the first one ends normally. -/
theorem Run.twin_andThen {first first' second second' : Run Completion}
    {N N' : Completion → State → State → Prop} (hfirst : Twin E first first' s s' N)
    (hsecond : ∀ t t', N .normal t t' → Twin E second second' t t' N')
    (hreturned : ∀ v t t', N (.returned v) t t' → N' (.returned v) t t') :
    Twin E (andThen first second) (andThen first' second') s s' N' := by
  refine hfirst.bind ?_
  intro c t t' hc
  cases c with
  | normal => exact hsecond t t' hc
  | returned v => exact twin_pure (hreturned v t t' hc)

/-! ## Several forms -/

/-- The values of several forms; there are as many values as forms. -/
theorem Machine.twin_values {es : List Expr} (ih : ∀ e ∈ es, SideBySide strict ok E known m m' e)
    (hr : Regime strict ok E) (huses : Expr.usesAll ok M F es = true)
    (hcalls : ∀ e ∈ es, e.CallsKnown known) (hs : s.Alike strict (F :: M) s') :
    Twin E (m.values es) (m'.values es) s s' fun vs t t' =>
      vs.length = es.length ∧ t.Alike strict (Expr.behindAll F es :: M) t' := by
  induction es generalizing F s s' with
  | nil => exact twin_pure ⟨rfl, hs⟩
  | cons e es ihes =>
    obtain ⟨he, hes⟩ := Bool.and_eq_true_iff.1 huses
    refine ((ih e List.mem_cons_self).value hr he (hcalls e List.mem_cons_self) hs).bind ?_
    intro v t t' ht
    refine (ihes (fun x hx => ih x (List.mem_cons_of_mem _ hx)) hes
      (fun x hx => hcalls x (List.mem_cons_of_mem _ hx)) ht).bind ?_
    rintro vs u u' ⟨hlength, hu⟩
    exact twin_pure ⟨by rw [List.length_cons, List.length_cons, hlength], hu⟩

/-- Statements, one after the other. -/
theorem Machine.twin_block {es : List Expr} (ih : ∀ e ∈ es, SideBySide strict ok E known m m' e)
    (huses : Expr.usesAll ok M F es = true) (hcalls : ∀ e ∈ es, e.CallsKnown known)
    (hs : s.Alike strict (F :: M) s') :
    Twin E (m.block es) (m'.block es) s s'
      (Completion.Meets strict (Expr.behindAll F es :: M)) := by
  induction es generalizing F s s' with
  | nil => exact twin_pure hs
  | cons e es ihes =>
    obtain ⟨he, hes⟩ := Bool.and_eq_true_iff.1 huses
    refine twin_andThen ((ih e List.mem_cons_self).statement he (hcalls e List.mem_cons_self) hs) ?_
      fun _ _ _ h => h
    intro t t' ht
    exact ihes (fun x hx => ih x (List.mem_cons_of_mem _ hx)) hes
      (fun x hx => hcalls x (List.mem_cons_of_mem _ hx)) ht

/-! ## Loops -/

/-- Rounds that keep an outline, as long as a condition holds. -/
theorem Run.twin_whileTrue {cond cond' : Run Value} {body body' : Run Completion}
    (hr : Regime strict ok E) (hF : F'.Implies F)
    (hcond : ∀ {t t' : State}, t.Alike strict (F :: M) t' →
      Twin E cond cond' t t' fun _ u u' => u.Alike strict (F' :: M) u')
    (hbody : ∀ {t t' : State}, t.Alike strict (F' :: M) t' →
      Twin E (inBlock body) (inBlock body') t t' (Completion.Meets strict (F' :: M)))
    (rounds : Nat) (hs : s.Alike strict (F :: M) s') :
    Twin E (whileTrue cond body rounds) (whileTrue cond' body' rounds) s s'
      (Completion.Meets strict (F' :: M)) := by
  induction rounds generalizing s s' with
  | zero => exact twin_throw (hr.admits _ trivial) hs.beside
  | succ rounds ih =>
    refine (hcond hs).bind ?_
    intro v t t' ht
    by_cases hv : v.truth = true
    · simp only [if_pos hv]
      refine ((blind_note _ _).twin ht).bind ?_
      intro _ u u' hu
      refine twin_andThen (hbody hu) ?_ fun _ _ _ h => h
      intro w w' hw
      exact ih (hw.weaken hF)
    · simp only [if_neg hv]
      exact twin_pure ht

/-- One round of a loop: the loop variable is put in place. -/
theorem Run.twin_roundFor {name : String} {body body' : Run Completion}
    {Q : Completion → State → State → Prop} (hr : Regime strict ok E)
    (hbody : ∀ {t t' : State}, t.Alike strict (F.declare name :: M) t' → Twin E body body' t t' Q)
    (v : Value) (hs : s.Alike strict (F :: M) s') :
    Twin E (roundFor name body v) (roundFor name body' v) s s' Q := by
  refine (((blind_noteValue _ _ v).imp hr.admits).twin hs).bind ?_
  intro _ u u' hu
  refine (twin_declare hu name v).bind ?_
  exact fun _ w w' hw => hbody hw

/-- Rounds that keep an invariant, one for each value. -/
theorem Run.twin_eachValue {body body' : Value → Run Completion}
    {N : Completion → State → State → Prop}
    (hround : ∀ v {t t' : State}, N .normal t t' → Twin E (body v) (body' v) t t' N)
    (vs : List Value) (hs : N .normal s s') :
    Twin E (eachValue body vs) (eachValue body' vs) s s' N := by
  induction vs generalizing s s' with
  | nil => exact twin_pure hs
  | cons v vs ih =>
    refine twin_andThen (hround v hs) ?_ fun _ _ _ h => h
    exact fun t t' ht => ih ht

/-- Rounds in one frame, in both runs. -/
theorem Run.twin_rounds {name : String} {names : List String} {body body' : Run Completion}
    {F₀ : Outline} (hr : Regime strict ok E) (hF : F.Implies (.leftover (name :: names)))
    (hbody : ∀ {t t' : State},
      t.Alike strict ((Outline.leftover (name :: names)).declare name :: F₀ :: M) t' →
      Twin E body body' t t' (Completion.Meets strict (F :: F₀ :: M)))
    (vs : List Value) (hs : s.Alike strict (.leftover (name :: names) :: F₀ :: M) s') :
    Twin E (eachValue (roundFor name body) vs) (eachValue (roundFor name body') vs) s s'
      (Completion.Meets strict (.leftover (name :: names) :: F₀ :: M)) := by
  refine twin_eachValue ?_ vs hs
  intro v u u' hu
  refine (twin_roundFor hr hbody v hu).imp ?_
  exact fun c w w' hc => hc.imp fun hw => hw.weaken hF

/-- A loop with one frame for all rounds in the first run, and a frame for each round in the
second. -/
theorem Run.twin_eachFresh {name : String} {names : List String} {body body' : Run Completion}
    {F₀ : Outline} (hr : Regime false ok E) (hF : F.Implies (.leftover (name :: names)))
    (hbody : ∀ {t t' : State},
      t.Alike false ((Outline.leftover (name :: names)).declare name :: F₀ :: M) t' →
      Twin E body body' t t' (Completion.Meets false (F :: F₀ :: M)))
    (vs : List Value) (hs : s.Alike false (F₀ :: M) s') :
    Twin E (inBlock (eachValue (roundFor name body) vs))
      (eachValue (fun v => inBlock (roundFor name body' v)) vs) s s'
      (Completion.Meets false (F₀ :: M)) := by
  -- Between the rounds the second run has no frame, so it is given an empty one to compare.
  let N : Completion → State → State → Prop := fun c t t' =>
    c.Meets false (.leftover (name :: names) :: F₀ :: M) t { t' with scope := t'.scope.push }
  have hround : ∀ v {t t' : State}, N .normal t t' →
      Twin E (roundFor name body v) (inBlock (roundFor name body' v)) t t' N := by
    intro v t t' ht
    apply twin_inBlock_right
    refine (twin_roundFor hr hbody v ht).imp ?_
    intro c u u' hc
    cases c with
    | normal => exact ⟨hc.beside.scope _ _, hc.scope.reopen hF⟩
    | returned v => exact State.Beside.scope hc _ _
  apply twin_inBlock_left
  refine (twin_eachValue hround vs
    (hs.push.weaken (Outline.empty_implies_leftover (name :: names)))).imp ?_
  intro c t t' hc
  cases c with
  | normal =>
    exact ⟨hc.beside.scope _ t'.scope, hc.scope.pop_left⟩
  | returned v => exact State.Beside.scope hc _ _

/-- A loop over what its iterable gives. -/
theorem Machine.twin_forLoop {name : String} {body : List Expr} {F₀ : Outline}
    (ih : ∀ e ∈ body, SideBySide strict ok E known m m' e) (hr : Regime strict ok E)
    (hm : Pair strict E known m m')
    (huses : Expr.usesAll ok (F₀ :: M) (Expr.roundStart name body) body = true)
    (hcalls : ∀ e ∈ body, e.CallsKnown known) (items : Items) (hs : s.Alike strict (F₀ :: M) s') :
    Twin E (forLoop m.forScope name (m.block body) items)
      (forLoop m'.forScope name (m'.block body) items) s s'
      (Completion.Meets strict (F₀ :: M)) := by
  have hbody : ∀ {t t' : State}, t.Alike strict (Expr.roundStart name body :: F₀ :: M) t' →
      Twin E (m.block body) (m'.block body) t t'
        (Completion.Meets strict (Expr.behindAll (Expr.roundStart name body) body :: F₀ :: M)) :=
    fun ht => twin_block ih huses hcalls ht
  have hround := Expr.behindAll_roundStart name body
  rw [hm.shared, hm.other]
  cases strict with
  | true =>
    simp only [forLoop, each_eq, if_true]
    refine twin_inBlock hs fun {t t'} ht => twin_rounds hr hround hbody _ ?_
    exact ht.weaken (Outline.empty_implies_leftover (name :: Expr.declaredAll body))
  | false =>
    simp only [forLoop, each_eq, Bool.false_eq_true, if_false]
    exact twin_eachFresh hr hround hbody _ hs

/-! ## All forms -/

theorem BinOp.isConnective_of_shortcut {op : BinOp} {a v : Value} (h : op.shortcut? a = some v) :
    op.isConnective = true := by
  cases op with
  | and | or => rfl
  | _ => cases h

/-- Machines that make the same calls run every form side by side. -/
theorem Machine.Pair.sideBySide (hm : Pair strict E known m m') (hr : Regime strict ok E)
    (e : Expr) : SideBySide strict ok E known m m' e := by
  induction e using Expr.induction with
  | int | bool | char | str =>
    intro M F s s' _ _ hs
    exact twin_pure hs
  | var span name =>
    intro M F s s' huses _ hs
    refine (hr.twin_lookup huses hs).bind ?_
    exact fun v t t' ht => twin_pure ht
  | index span base position ih =>
    intro M F s s' huses hcalls hs
    obtain ⟨hbase, hposition⟩ := Bool.and_eq_true_iff.1 huses
    refine (hr.twin_lookup hbase hs).bind ?_
    intro container t t' ht
    refine (ih.value hr hposition (hcalls.part (by simp [Expr.parts])) ht).bind ?_
    intro i u u' hu
    refine (((Value.blind_elementAt container i).imp hr.admits).twin hu).bind ?_
    exact fun v w w' hw => twin_pure hw
  | neg span e ih =>
    intro M F s s' huses hcalls hs
    refine (ih.value hr huses (hcalls.part (by simp [Expr.parts])) hs).bind ?_
    intro v t t' ht
    refine (((blind_expectInt v).imp hr.admits).twin ht).bind ?_
    exact fun n u u' hu => twin_pure hu
  | not span e ih | parens span e ih =>
    intro M F s s' huses hcalls hs
    refine (ih.value hr huses (hcalls.part (by simp [Expr.parts])) hs).bind ?_
    exact fun v t t' ht => twin_pure ht
  | binary span op l r ihl ihr =>
    intro M F s s' huses hcalls hs
    obtain ⟨hl, hright⟩ := Bool.and_eq_true_iff.1 huses
    refine (ihl.value hr hl (hcalls.part (by simp [Expr.parts])) hs).bind ?_
    intro a t t' ht
    cases hshort : op.shortcut? a with
    | some v =>
      have hop := BinOp.isConnective_of_shortcut hshort
      exact twin_pure (ht.weaken (Expr.behind_left_implies span hop l r F))
    | none =>
      refine (ihr.value hr hright (hcalls.part (by simp [Expr.parts])) ht).bind ?_
      intro b u u' hu
      refine (((op.blind_combine a b).imp hr.admits).twin hu).bind ?_
      exact fun v w w' hw => twin_pure (hw.weaken (Expr.behind_right_implies span op l r F))
  | declare span mutable name value ih =>
    intro M F s s' huses hcalls hs
    refine (ih.value hr huses (hcalls.part (by simp [Expr.parts])) hs).bind ?_
    intro v t t' ht
    refine (twin_declare ht name v).bind ?_
    intro _ u u' hu
    refine (((blind_noteValue _ _ v).imp hr.admits).twin hu).bind ?_
    exact fun _ w w' hw => twin_pure hw
  | assign span name value ih =>
    intro M F s s' huses hcalls hs
    obtain ⟨hvalue, hname⟩ := Bool.and_eq_true_iff.1 huses
    refine (ih.value hr hvalue (hcalls.part (by simp [Expr.parts])) hs).bind ?_
    intro v t t' ht
    refine (hr.twin_assign hname ht v).bind ?_
    exact fun _ u u' hu => twin_pure hu
  | call span name args ih =>
    intro M F s s' huses hcalls hs
    refine (twin_values ih hr huses (fun e he => hcalls.part he) hs).bind ?_
    rintro vs t t' ⟨hlength, ht⟩
    obtain ⟨hcall, hblind⟩ := hm.call (hlength ▸ hcalls span name args .self)
    rw [hcall]
    refine (hblind.twin ht).bind ?_
    exact fun v u u' hu => twin_pure hu
  | store span target base position value ihp ihv =>
    intro M F s s' huses hcalls hs
    simp only [Expr.uses, Bool.and_eq_true] at huses
    obtain ⟨⟨⟨hbase, hposition⟩, hvalue⟩, hend⟩ := huses
    refine (hr.twin_lookup hbase hs).bind ?_
    intro container t t' ht
    refine (ihp.value hr hposition (hcalls.part (by simp [Expr.parts])) ht).bind ?_
    intro i u u' hu
    refine (ihv.value hr hvalue (hcalls.part (by simp [Expr.parts])) hu).bind ?_
    intro v w w' hw
    refine (hr.twin_storeAt hend hw container i v).bind ?_
    exact fun _ x x' hx => twin_pure hx
  | branch span cond body otherwise ihc ihb iho =>
    intro M F s s' huses hcalls hs
    simp only [Expr.uses, Bool.and_eq_true] at huses
    obtain ⟨⟨hcond, hbody⟩, hother⟩ := huses
    refine (ihc.value hr hcond (hcalls.part (by simp [Expr.parts])) hs).bind ?_
    intro c t t' ht
    refine (((blind_noteValue _ _ c).imp hr.admits).twin ht).bind ?_
    intro _ w w' hw
    by_cases hc : c.truth = true
    · simp only [if_pos hc]
      refine (twin_inBlock hw fun hx => twin_block ihb hbody
        (fun e he => hcalls.part (by simp [Expr.parts, he])) hx).bind ?_
      exact fun c x x' hx => twin_pure hx
    · simp only [if_neg hc]
      refine (twin_inBlock hw fun hx => twin_block iho hother
        (fun e he => hcalls.part (by simp [Expr.parts, he])) hx).bind ?_
      exact fun c x x' hx => twin_pure hx
  | forIn span name iterable body ihi ihb =>
    intro M F s s' huses hcalls hs
    obtain ⟨hiterable, hbody⟩ := Bool.and_eq_true_iff.1 huses
    refine (ihi.value hr hiterable (hcalls.part (by simp [Expr.parts])) hs).bind ?_
    intro v t t' ht
    refine (((Value.blind_elements v).imp hr.admits).twin ht).bind ?_
    intro items u u' hu
    refine (twin_forLoop ihb hr hm hbody (fun e he => hcalls.part (by simp [Expr.parts, he])) items
      hu).bind ?_
    exact fun c w w' hw => twin_pure hw
  | loop span cond body ihc ihb =>
    intro M F s s' huses hcalls hs
    obtain ⟨hcond, hbody⟩ := Bool.and_eq_true_iff.1 huses
    refine Twin.bind (P := Completion.Meets strict (cond.behind (F.doubt cond.declared) :: M)) ?_
      fun c t t' ht => twin_pure ht
    rw [hm.rounds]
    refine twin_whileTrue hr (cond.behind_cond_implies F) ?_ ?_ m.rounds
      (hs.weaken (F.implies_doubt _))
    · exact fun ht => ihc.value hr hcond (hcalls.part (by simp [Expr.parts])) ht
    · exact fun ht => twin_inBlock ht fun hu => twin_block ihb hbody
        (fun e he => hcalls.part (by simp [Expr.parts, he])) hu
  | returnUnit span =>
    intro M F s s' _ _ hs
    exact twin_pure hs.beside
  | returnValue span value ih =>
    intro M F s s' huses hcalls hs
    refine (ih.value hr huses (hcalls.part (by simp [Expr.parts])) hs).bind ?_
    exact fun v t t' ht => twin_pure ht.beside

end

end Scriptlet
