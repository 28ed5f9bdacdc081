import Scriptlet.Eval.Call
import Scriptlet.Proofs.Eval.Safe
import Scriptlet.Proofs.Scoping.Outline

/-!
# Runs side by side

Two runs are compared step by step.  Their states are equal but for the variables, and of the
variables of both an outline is known: a name that is bound or unsure stands for the same in both,
and one that is stale may stand for something else, or for nothing, in one of them.  In a strict
comparison also stale names agree, so that it says how one run goes; the other kind is for two runs
that keep the frames of loops apart.
-/

namespace Scriptlet

/-! ## Variables -/

/-- What a name may stand for in two frames. -/
def Standing.Allows {α : Type} (strict : Bool) : Standing → Option α → Option α → Prop
  | .absent, v, v' => v = none ∧ v' = none
  | .bound, v, v' => v' = v ∧ v ≠ none
  | .unsure, v, v' => v' = v
  | .stale, v, v' => strict = true → v' = v

/-- Two frames of which an outline is known. -/
def Frame.Alike {α : Type} (strict : Bool) (F : Outline) (G G' : Frame α) : Prop :=
  ∀ x, (F x).Allows strict (G.get? x) (G'.get? x)

/-- Two scopes of which the outlines are known, frame by frame. -/
inductive Scope.Alike {α : Type} (strict : Bool) : List Outline → Scope α → Scope α → Prop
  | nil : Alike strict [] [] []
  | cons {F : Outline} {M : List Outline} {G G' : Frame α} {sc sc' : Scope α} :
      Frame.Alike strict F G G' → Alike strict M sc sc' →
      Alike strict (F :: M) (G :: sc) (G' :: sc')

namespace Outline

/-- Looked up from the inside outwards, the name is bound before it is stale. -/
def clean : List Outline → String → Bool
  | [], _ => true
  | F :: M, x =>
    match F x with
    | .bound => true
    | .stale => false
    | .absent | .unsure => clean M x

/-- Looked up from the inside outwards, the name is bound before there is any doubt. -/
def sharp : List Outline → String → Bool
  | [], _ => true
  | F :: M, x =>
    match F x with
    | .bound => true
    | .absent => sharp M x
    | .stale | .unsure => false

/-- The name is bound in some frame. -/
def binds (M : List Outline) (x : String) : Bool := M.any fun F => F x = .bound

/-- A name that is bound in some frame stays bound. -/
theorem binds_of_grows {F G : Outline} {names : List String} (h : F.Grows names G)
    {M : List Outline} {x : String} (hx : binds (F :: M) x = true) : binds (G :: M) x = true := by
  rw [binds, List.any_cons, Bool.or_eq_true, decide_eq_true_iff] at hx ⊢
  exact hx.imp_left h.bound

end Outline

variable {α β : Type} {strict : Bool} {F F' : Outline} {M : List Outline}

theorem Standing.Allows.weaken {a b : Standing} (hab : a.Implies b) {v v' : Option α}
    (h : a.Allows strict v v') : b.Allows strict v v' := by
  have hsame : a ≠ .stale → v' = v := by
    cases a with
    | absent => exact fun _ => h.2.trans h.1.symm
    | bound => exact fun _ => h.1
    | unsure => exact fun _ => h
    | stale => exact fun hne => absurd rfl hne
  rcases hab with rfl | rfl | ⟨rfl, ha⟩
  · exact h
  · cases a with
    | stale => exact h
    | absent | bound | unsure => exact fun _ => hsame (by simp)
  · exact hsame ha

namespace Frame.Alike

variable {G G' : Frame α}

theorem weaken (hF : F.Implies F') (h : Frame.Alike strict F G G') : Frame.Alike strict F' G G' :=
  fun x => (h x).weaken (hF x)

/-- A declaration in both frames. -/
theorem declare (h : Frame.Alike strict F G G') (name : String) (v : α) :
    Frame.Alike strict (F.declare name) (G.declare name v) (G'.declare name v) := by
  intro x
  rw [Frame.get?_declare, Frame.get?_declare, Outline.declare]
  by_cases hx : x = name
  · subst hx
    simp [Standing.Allows]
  · simpa [hx, Ne.symm hx] using h x

/-- A name that stands for the same in both frames may be set in both. -/
theorem set (h : Frame.Alike strict F G G') {name : String} (hname : G.has name = true) (v : α) :
    Frame.Alike strict F (G.declare name v) (G'.declare name v) := by
  intro x
  rw [Frame.get?_declare, Frame.get?_declare]
  by_cases hx : name = x
  · subst hx
    have hallows := h name
    cases hF : F name with
    | absent =>
      rw [hF] at hallows
      simp [Frame.has, hallows.1] at hname
    | bound | unsure | stale => simp [Standing.Allows]
  · simpa [hx] using h x

theorem empty : Frame.Alike strict .empty ([] : Frame α) [] := fun _ => ⟨rfl, rfl⟩

end Frame.Alike

namespace Scope.Alike

variable {sc sc' : Scope α} {x : String}

theorem weaken (hF : F.Implies F') (h : Scope.Alike strict (F :: M) sc sc') :
    Scope.Alike strict (F' :: M) sc sc' := by
  cases h with
  | cons hframe hrest => exact .cons (hframe.weaken hF) hrest

theorem length_eq (h : Scope.Alike strict M sc sc') : sc.length = M.length := by
  induction h with
  | nil => rfl
  | cons _ _ ih => rw [List.length_cons, List.length_cons, ih]

/-- A name that is not stale on the way is looked up in both scopes alike. -/
theorem get?_eq (h : Scope.Alike strict M sc sc')
    (hx : strict = true ∨ Outline.clean M x = true) : sc'.get? x = sc.get? x := by
  induction h with
  | nil => rfl
  | @cons F M G G' sc sc' hframe _ ih =>
    rw [Scope.get?, Scope.get?, List.findSome?_cons, List.findSome?_cons]
    have hallows := hframe x
    cases hF : F x with
    | bound =>
      rw [hF] at hallows
      obtain ⟨v, hv⟩ := Option.ne_none_iff_exists'.1 hallows.2
      rw [hallows.1, hv]
    | absent =>
      rw [hF] at hallows
      rw [hallows.1, hallows.2]
      exact ih (by simpa [Outline.clean, hF] using hx)
    | unsure =>
      rw [hF] at hallows
      rw [show G'.get? x = G.get? x from hallows]
      cases G.get? x with
      | some v => rfl
      | none => exact ih (by simpa [Outline.clean, hF] using hx)
    | stale =>
      -- The name stands in the way, so the comparison is strict.
      have hstrict : strict = true := by simpa [Outline.clean, hF] using hx
      rw [hF] at hallows
      rw [hallows hstrict]
      cases G.get? x with
      | some v => rfl
      | none => exact ih (.inl hstrict)

/-- A name that is bound in some frame stands for something. -/
theorem get?_ne_none (h : Scope.Alike strict M sc sc') (hx : Outline.binds M x = true) :
    sc.get? x ≠ none := by
  induction h with
  | nil => cases hx
  | @cons F M G G' sc sc' hframe _ ih =>
    rw [Scope.get?, List.findSome?_cons]
    cases hG : G.get? x with
    | some v => simp
    | none =>
      have hF : F x ≠ .bound := by
        intro hF
        have hallows := hframe x
        rw [hF] at hallows
        exact hallows.2 hG
      exact ih (by simpa [Outline.binds, hF] using hx)

theorem declare (h : Scope.Alike strict (F :: M) sc sc') (name : String) (v : α) :
    Scope.Alike strict (F.declare name :: M) (sc.declare name v) (sc'.declare name v) := by
  cases h with
  | cons hframe hrest => exact .cons (hframe.declare name v) hrest

/-- A name that is not stale on the way is set in both scopes alike. -/
theorem set? (h : Scope.Alike strict M sc sc') (hx : strict = true ∨ Outline.clean M x = true)
    {v : α} {t : Scope α} (hset : sc.set? x v = some t) :
    ∃ t', sc'.set? x v = some t' ∧ Scope.Alike strict M t t' := by
  induction h generalizing t with
  | nil => cases hset
  | @cons F M G G' sc sc' hframe hrest ih =>
    -- Both frames declare the name, or neither does.
    have hhas : F x = .stale ∧ strict = false ∨ G'.has x = G.has x := by
      have hallows := hframe x
      cases hF : F x with
      | absent =>
        rw [hF] at hallows
        exact .inr (by rw [Frame.has, Frame.has, hallows.1, hallows.2])
      | bound =>
        rw [hF] at hallows
        exact .inr (by rw [Frame.has, Frame.has, hallows.1])
      | unsure =>
        rw [hF] at hallows
        exact .inr (congrArg Option.isSome hallows)
      | stale =>
        rw [hF] at hallows
        cases hstrict : strict with
        | false => exact .inl ⟨rfl, rfl⟩
        | true => exact .inr (congrArg Option.isSome (hallows hstrict))
    have hhas : G'.has x = G.has x := by
      rcases hhas with ⟨hF, rfl⟩ | hhas
      · simp [Outline.clean, hF] at hx
      · exact hhas
    rw [Scope.set?] at hset ⊢
    rw [hhas]
    by_cases hG : G.has x = true
    · rw [if_pos hG] at hset ⊢
      obtain rfl := Option.some.inj hset
      exact ⟨_, rfl, .cons (hframe.set hG v) hrest⟩
    · rw [if_neg hG] at hset ⊢
      obtain ⟨u, hu, rfl⟩ := Option.map_eq_some_iff.1 hset
      have hrest : strict = true ∨ Outline.clean M x = true := by
        have hF : F x ≠ .bound := by
          intro hF
          have hallows := hframe x
          rw [hF] at hallows
          exact hG (Option.isSome_iff_ne_none.2 hallows.2)
        refine hx.imp_right fun hclean => ?_
        rw [Outline.clean] at hclean
        cases hF' : F x <;> simp_all
      obtain ⟨u', hu', halike⟩ := ih hrest hu
      exact ⟨G' :: u', by rw [hu', Option.map_some], .cons hframe halike⟩

theorem push (h : Scope.Alike strict M sc sc') :
    Scope.Alike strict (.empty :: M) sc.push sc'.push := .cons .empty h

/-- Leaving a block. -/
theorem pop {F₀ : Outline} (h : Scope.Alike strict (F :: F₀ :: M) sc sc') :
    Scope.Alike strict (F₀ :: M) sc.pop sc'.pop := by
  cases h with
  | cons _ hrest =>
    cases hrest with
    | cons hframe hrest => exact .cons hframe hrest

/-- Leaving a block that only the first scope has. -/
theorem pop_left {F₀ : Outline} (h : Scope.Alike strict (F :: F₀ :: M) sc sc'.push) :
    Scope.Alike strict (F₀ :: M) sc.pop sc' := by
  rw [Scope.push] at h
  cases h with
  | cons _ hrest =>
    cases hrest with
    | cons hframe hrest => exact .cons hframe hrest

/-- A frame of which nothing is known but what may be left over from a round before, and a new frame
in its place. -/
theorem reopen {F₀ : Outline} {names : List String} (hF : F.Implies (.leftover names))
    (h : Scope.Alike false (F :: F₀ :: M) sc sc') :
    Scope.Alike false (.leftover names :: F₀ :: M) sc sc'.pop.push := by
  cases h with
  | cons hframe hrest =>
    cases hrest with
    | cons hframe₀ hrest =>
      refine .cons ?_ (.cons hframe₀ hrest)
      intro x
      have hallows := hframe.weaken hF x
      cases hx : Outline.leftover names x with
      | absent =>
        rw [hx] at hallows
        exact ⟨hallows.1, rfl⟩
      | stale => exact fun hstrict => by cases hstrict
      | bound | unsure =>
        rw [Outline.leftover] at hx
        split at hx <;> cases hx

end Scope.Alike

/-! ## States -/

namespace State

/-- The states are equal but for the variables. -/
def Beside (s s' : State) : Prop := s' = { s with scope := s'.scope }

/-- The states are equal but for the variables, of which the outlines are known. -/
structure Alike (strict : Bool) (M : List Outline) (s s' : State) : Prop where
  beside : s.Beside s'
  scope : Scope.Alike strict M s.scope s'.scope

theorem Beside.refl (s : State) : s.Beside s := rfl

theorem Beside.scope {s s' : State} (h : s.Beside s') (sc sc' : Scope Value) :
    State.Beside { s with scope := sc } { s' with scope := sc' } := by
  rw [Beside] at h ⊢
  rw [h]

/-- States that are equal but for the variables are equal once these are. -/
theorem Beside.eq {s s' : State} (h : s.Beside s') (sc : Scope Value) :
    ({ s' with scope := sc } : State) = { s with scope := sc } := by
  rw [Beside] at h
  rw [h]

theorem Alike.weaken {s s' : State} (hF : F.Implies F') (h : s.Alike strict (F :: M) s') :
    s.Alike strict (F' :: M) s' :=
  ⟨h.beside, h.scope.weaken hF⟩

theorem Alike.push {s s' : State} (h : s.Alike strict M s') :
    State.Alike strict (.empty :: M) { s with scope := s.scope.push }
      { s' with scope := s'.scope.push } :=
  ⟨h.beside.scope _ _, h.scope.push⟩

theorem Alike.pop {s s' : State} {F₀ : Outline} (h : s.Alike strict (F :: F₀ :: M) s') :
    State.Alike strict (F₀ :: M) { s with scope := s.scope.pop }
      { s' with scope := s'.scope.pop } :=
  ⟨h.beside.scope _ _, h.scope.pop⟩

end State

/-! ## Runs -/

namespace Run

/-- The runs end with the same result, in states as `Q` says; or they stop for the same reason, one
that `E` admits, in states that are equal but for the variables. -/
def Twin (E : Stop → Prop) (act act' : Run α) (s s' : State) (Q : α → State → State → Prop) :
    Prop :=
  (∃ a t t', act.run s = (.ok a, t) ∧ act'.run s' = (.ok a, t') ∧ Q a t t') ∨
    ∃ e t t', act.run s = (.error e, t) ∧ act'.run s' = (.error e, t') ∧ E e ∧ t.Beside t'

/-- The run neither looks at variables nor changes them, and stops only for reasons that `E`
admits. -/
structure Blind (E : Stop → Prop) (act : Run α) : Prop where
  run_scope : ∀ s sc, act.run { s with scope := sc } =
    ((act.run s).1, { (act.run s).2 with scope := sc })
  admitted : ∀ s e t, act.run s = (.error e, t) → E e

variable {E : Stop → Prop} {s s' : State}

theorem Twin.imp {act act' : Run α} {Q Q' : α → State → State → Prop} (h : Twin E act act' s s' Q)
    (hQ : ∀ a t t', Q a t t' → Q' a t t') : Twin E act act' s s' Q' := by
  rcases h with ⟨a, t, t', hrun, hrun', hend⟩ | hstop
  · exact .inl ⟨a, t, t', hrun, hrun', hQ a t t' hend⟩
  · exact .inr hstop

theorem twin_pure {a : α} {Q : α → State → State → Prop} (h : Q a s s') :
    Twin E (pure a) (pure a) s s' Q := .inl ⟨a, s, s', rfl, rfl, h⟩

theorem twin_throw {e : Stop} {Q : α → State → State → Prop} (he : E e) (h : s.Beside s') :
    Twin E (throw e) (throw e) s s' Q := .inr ⟨e, s, s', rfl, rfl, he, h⟩

/-- One pair of runs after the other. -/
theorem Twin.bind {act act' : Run α} {f f' : α → Run β} {P : α → State → State → Prop}
    {Q : β → State → State → Prop} (h : Twin E act act' s s' P)
    (hf : ∀ a t t', P a t t' → Twin E (f a) (f' a) t t' Q) :
    Twin E (act >>= f) (act' >>= f') s s' Q := by
  rcases h with ⟨a, t, t', hrun, hrun', hP⟩ | ⟨e, t, t', hrun, hrun', hstop⟩
  · rw [Twin, run_bind_ok hrun, run_bind_ok hrun']
    exact hf a t t' hP
  · exact .inr ⟨e, t, t', run_bind_error hrun f, run_bind_error hrun' f', hstop⟩

/-- What is known of a run that is a twin of itself and was seen to end with a result. -/
theorem Twin.self {act : Run α} {Q : α → State → State → Prop} (h : Twin E act act s s Q) {a : α}
    {t : State} (hrun : act.run s = (.ok a, t)) : Q a t t := by
  rcases h with ⟨b, u, u', hend, hend', hQ⟩ | ⟨e, u, u', hstop, -⟩
  · obtain rfl : b = a := Except.ok.inj (congrArg Prod.fst (hend.symm.trans hrun))
    obtain rfl : u = t := congrArg Prod.snd (hend.symm.trans hrun)
    obtain rfl : u' = u := congrArg Prod.snd (hend'.symm.trans hrun)
    exact hQ
  · cases hrun.symm.trans hstop

/-! ## Runs that leave variables alone -/

theorem Blind.imp {E' : Stop → Prop} {act : Run α} (h : Blind E act) (hE : ∀ e, E e → E' e) :
    Blind E' act :=
  ⟨h.run_scope, fun s e t hrun => hE e (h.admitted s e t hrun)⟩

theorem blind_pure (a : α) : Blind E (pure a : Run α) := by
  refine ⟨fun _ _ => rfl, ?_⟩
  intro s e t hrun
  cases hrun

theorem blind_throw {e : Stop} (he : E e) : Blind E (throw e : Run α) := by
  refine ⟨fun _ _ => rfl, ?_⟩
  intro s e' t hrun
  cases hrun
  exact he

theorem Blind.bind {act : Run α} {f : α → Run β} (h : Blind E act) (hf : ∀ a, Blind E (f a)) :
    Blind E (act >>= f) := by
  constructor
  · intro s sc
    have hscope := h.run_scope s sc
    rcases hrun : act.run s with ⟨e | a, t⟩ <;> rw [hrun] at hscope
    · rw [run_bind_error hrun, run_bind_error hscope]
    · rw [run_bind_ok hrun, run_bind_ok hscope]
      exact (hf a).run_scope t sc
  · intro s e t hbind
    rcases hrun : act.run s with ⟨e' | a, t'⟩
    · rw [run_bind_error hrun] at hbind
      cases hbind
      exact h.admitted s _ _ hrun
    · rw [run_bind_ok hrun] at hbind
      exact (hf a).admitted t' e t hbind

/-- A look at the state that shows no variables. -/
theorem blind_get {f : State → Run α} (hf : ∀ s, Blind E (f s))
    (hscope : ∀ s sc, f { s with scope := sc } = f s) : Blind E (get >>= f) := by
  constructor
  · intro s sc
    rw [run_get_bind, run_get_bind, hscope]
    exact (hf s).run_scope s sc
  · intro s e t hrun
    rw [run_get_bind] at hrun
    exact (hf s).admitted s e t hrun

/-- A change of the state that keeps the variables. -/
theorem blind_modify {f : State → State}
    (hf : ∀ s sc, f { s with scope := sc } = { f s with scope := sc }) :
    Blind E (modify f : Run Unit) := by
  refine ⟨fun s sc => ?_, ?_⟩
  · show ((.ok (), f { s with scope := sc }) : Except Stop Unit × State) = _
    rw [hf]
    rfl
  · intro s e t hrun
    cases hrun

/-- Runs that leave variables alone are twins of themselves. -/
theorem Blind.twin {act : Run α} (h : Blind E act) (hs : s.Alike strict M s') :
    Twin E act act s s' fun _ t t' => t.Alike strict M t' := by
  have hself := h.run_scope s s.scope
  have hother := h.run_scope s s'.scope
  rw [← hs.beside] at hother
  rcases hrun : act.run s with ⟨e | a, t⟩ <;>
    rw [show ({ s with scope := s.scope } : State) = s from rfl, hrun] at hself <;>
    rw [hrun] at hother <;>
    have hscope : t.scope = s.scope := congrArg (fun r => r.2.scope) hself
  · exact .inr ⟨e, t, _, hrun, hother, h.admitted s e t hrun, rfl⟩
  · refine .inl ⟨a, t, _, hrun, hother, rfl, ?_⟩
    rw [hscope]
    exact hs.scope

theorem blind_note (level : Nat) (text : String) : Blind E (note level text) :=
  blind_modify fun _ _ => rfl

theorem blind_keeps (level : Nat) : Blind E (keeps level) :=
  blind_get (fun _ => blind_pure _) fun _ _ => rfl

theorem blind_itemsOf (h : Handle) : Blind E (itemsOf h) :=
  blind_get (fun _ => blind_pure _) fun _ _ => rfl

theorem blind_alloc (items : List Value) : Blind E (alloc items) :=
  blind_get (fun _ => (blind_modify fun _ _ => rfl).bind fun _ => blind_pure _) fun _ _ => rfl

theorem blind_store (h : Handle) (i : Nat) (v : Value) : Blind E (store h i v) :=
  blind_modify fun _ _ => rfl

theorem blind_announceStatement (e : Expr) : Blind E (announceStatement e) := by
  rw [announceStatement]
  split
  · exact blind_note _ _
  · exact blind_pure _

end Run

/-! ## Operations -/

/-- The stop is about no name that stands for nothing. -/
def Stop.KnowsNames : Stop → Prop
  | .breach (.undefinedVariable _) | .breach (.undefinedTarget _)
  | .breach (.undefinedFunction _) => False
  | _ => True

namespace Run

theorem blind_textOf (v : Value) : Blind Stop.KnowsNames (textOf v) := by
  refine blind_get (fun s => ?_) fun _ _ => rfl
  cases s.heap.text? v with
  | none => exact blind_throw trivial
  | some text => exact blind_pure text

theorem blind_noteText (level : Nat) (text : CodeText) :
    Blind Stop.KnowsNames (noteText level text) := by
  refine (blind_keeps level).bind fun kept => ?_
  split
  · cases text.encode? with
    | none => exact blind_throw trivial
    | some line => exact blind_note level line
  · exact blind_pure _

theorem blind_noteValue (level : Nat) (label : String) (v : Value) :
    Blind Stop.KnowsNames (noteValue level label v) :=
  (blind_textOf v).bind fun _ => blind_noteText _ _

theorem blind_textsOf (vs : List Value) : Blind Stop.KnowsNames (textsOf vs) := by
  refine blind_get (fun s => ?_) fun _ _ => rfl
  cases s.heap.texts? vs with
  | none => exact blind_throw trivial
  | some texts => exact blind_pure texts

theorem blind_print (text : CodeText) : Blind Stop.KnowsNames (print text) := by
  unfold print
  cases text.encode? with
  | none => exact blind_throw trivial
  | some shown => exact blind_modify fun _ _ => rfl

theorem blind_readLine : Blind Stop.KnowsNames readLine := by
  refine blind_get (fun s => ?_) fun _ _ => rfl
  cases s.console.readLine? with
  | none => exact blind_throw trivial
  | some read => exact (blind_modify fun _ _ => rfl).bind fun _ => blind_pure _

theorem blind_expectInt (v : Value) : Blind Stop.KnowsNames (expectInt v) := by
  cases v with
  | int n => exact blind_pure n
  | _ => exact blind_throw trivial

theorem blind_position (v : Value) (length : Nat) : Blind Stop.KnowsNames (position v length) := by
  refine (blind_expectInt v).bind fun i => ?_
  split
  · exact blind_pure _
  · exact blind_throw trivial

theorem blind_noteCall (what : String) (args : List Value) :
    Blind Stop.KnowsNames (noteCall what args) := by
  refine (blind_keeps 2).bind fun keeps => ?_
  cases keeps with
  | false => exact blind_pure _
  | true => exact (blind_textsOf args).bind fun _ => blind_noteText _ _

end Run

open Run

theorem Value.blind_elementAt (container i : Value) :
    Blind Stop.KnowsNames (container.elementAt i) := by
  cases container with
  | array h =>
    exact (blind_itemsOf h).bind fun items => (blind_position _ _).bind fun _ => blind_pure _
  | str s => exact (blind_position _ _).bind fun _ => blind_pure _
  | _ => exact blind_throw trivial

theorem Value.blind_order (a b : Value) : Blind Stop.KnowsNames (Value.order a b) := by
  unfold Value.order
  split <;> first | exact blind_pure _ | exact blind_throw trivial

theorem Value.blind_plus (a b : Value) : Blind Stop.KnowsNames (Value.plus a b) := by
  unfold Value.plus
  split
  · exact (blind_textOf _).bind fun _ => (blind_textOf _).bind fun _ => blind_pure _
  · exact (blind_textOf _).bind fun _ => (blind_textOf _).bind fun _ => blind_pure _
  · exact (blind_expectInt _).bind fun _ => (blind_expectInt _).bind fun _ => blind_pure _

theorem Value.blind_operate (op : BinOp) (a b : Value) :
    Blind Stop.KnowsNames (Value.operate op a b) := by
  cases op with
  | add => exact Value.blind_plus a b
  | sub | mul =>
    exact (blind_expectInt a).bind fun _ => (blind_expectInt b).bind fun _ => blind_pure _
  | div =>
    refine (blind_expectInt a).bind fun m => (blind_expectInt b).bind fun n => ?_
    cases Word.div? m n with
    | none => exact blind_throw trivial
    | some q => exact blind_pure _
  | range => exact blind_pure _
  | less | greater => exact (Value.blind_order a b).bind fun _ => blind_pure _
  | and | or => exact blind_throw trivial

theorem BinOp.blind_combine (op : BinOp) (a b : Value) :
    Blind Stop.KnowsNames (op.combine a b) := by
  unfold BinOp.combine
  split
  · exact blind_pure _
  · exact blind_pure _
  · exact Value.blind_operate _ a b

theorem Value.blind_elements (v : Value) : Blind Stop.KnowsNames v.elements := by
  unfold Value.elements
  split
  · exact (blind_itemsOf _).bind fun _ => blind_pure _
  · exact blind_pure _
  · exact blind_throw trivial
  · exact (blind_expectInt _).bind fun _ => (blind_expectInt _).bind fun _ => blind_pure _
  · exact blind_pure _
  · exact blind_throw trivial

theorem Builtin.blind_apply (b : Builtin) (args : List Value) :
    Blind Stop.KnowsNames (b.apply args) := by
  cases b with
  | print | println =>
    exact (blind_textsOf args).bind fun _ => (blind_print _).bind fun _ => blind_pure _
  | readln => exact blind_readLine.bind fun _ => blind_pure _
  | readlnInt =>
    refine blind_readLine.bind fun line => ?_
    cases hread : Text.readInt line with
    | ok n => exact blind_pure _
    | error stop =>
      obtain rfl | rfl := Text.readInt_error hread <;> exact blind_throw trivial
  | readlnBoolean =>
    refine blind_readLine.bind fun line => ?_
    cases Text.readBoolean? line with
    | none => exact blind_throw trivial
    | some b => exact blind_pure _
  | arrayOf => exact blind_alloc args

end Scriptlet
