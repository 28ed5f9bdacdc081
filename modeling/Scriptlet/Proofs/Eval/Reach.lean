import Scriptlet.Proofs.Eval.Calls

/-!
# Points of a run

A point of a run is a form that is about to be run, in a state.  `Machine.Enters` says how running a
form gets to a form inside of it, and `Program.Reaches` how a run of a program gets from call to call.
In a regular program variables and arrays have their types at every point, in the function that runs
and in those that wait for it.
-/

namespace Scriptlet

open Run
open Check (Ready ReadyAll contextOf)

/-! ## From form to form -/

/-- So many rounds of a loop lead from the first state to the second one. -/
inductive Machine.Rounds (m : Machine) (cond : Expr) (body : List Expr) :
    Nat → State → State → Prop
  | none {s : State} : Rounds m cond body 0 s s
  | more {k : Nat} {s s₁ s₂ s₃ s₄ : State} {c : Value} :
      Rounds m cond body k s s₁ → (m.eval cond).run s₁ = (.ok c, s₂) → c.truth = true →
      (note 3 "while iteration").run s₂ = (.ok (), s₃) →
      (inBlock (m.block body)).run s₃ = (.ok .normal, s₄) → Rounds m cond body (k + 1) s s₄

/-- The statements before the last one are run from the first state, and then the last one is about
to be run in the second state. -/
def Machine.Comes (m : Machine) (before : List Expr) (e : Expr) (s s' : State) : Prop :=
  ∃ s₁, (m.block before).run s = (.ok .normal, s₁) ∧ (announce e).run s₁ = (.ok (), s')

/-- Running the first form from the first state gets to the second form, which is a part of it, in
the second state. -/
inductive Machine.Enters (m : Machine) : State → Expr → State → Expr → Prop
  | index {s s₁ s' : State} {span : Span} {base : Name} {position : Expr} {v : Value} :
      (lookup base.text).run s = (.ok v, s₁) →
      (announceStatement position).run s₁ = (.ok (), s') →
      Enters m s (.index span base position) s' position
  | neg {s s' : State} {span : Span} {e : Expr} :
      (announceStatement e).run s = (.ok (), s') → Enters m s (.neg span e) s' e
  | not {s s' : State} {span : Span} {e : Expr} :
      (announceStatement e).run s = (.ok (), s') → Enters m s (.not span e) s' e
  | parens {s s' : State} {span : Span} {e : Expr} :
      (announceStatement e).run s = (.ok (), s') → Enters m s (.parens span e) s' e
  | left {s s' : State} {span : Span} {op : BinOp} {l r : Expr} :
      (announceStatement l).run s = (.ok (), s') → Enters m s (.binary span op l r) s' l
  | right {s s₁ s' : State} {span : Span} {op : BinOp} {l r : Expr} {a : Value} :
      (m.eval l).run s = (.ok a, s₁) → op.shortcut? a = none →
      (announceStatement r).run s₁ = (.ok (), s') → Enters m s (.binary span op l r) s' r
  | declared {s s' : State} {span : Span} {mutable : Bool} {name : String} {value : Expr} :
      (announceStatement value).run s = (.ok (), s') →
      Enters m s (.declare span mutable name value) s' value
  | assigned {s s' : State} {span : Span} {name : String} {value : Expr} :
      (announceStatement value).run s = (.ok (), s') →
      Enters m s (.assign span name value) s' value
  | argument {s s₁ s' : State} {span : Span} {name : String} {before rest : List Expr} {e : Expr}
      {vs : List Value} :
      (m.values before).run s = (.ok vs, s₁) → (announceStatement e).run s₁ = (.ok (), s') →
      Enters m s (.call span name (before ++ e :: rest)) s' e
  | position {s s₁ s' : State} {span target : Span} {base : Name} {position value : Expr}
      {v : Value} :
      (lookup base.text).run s = (.ok v, s₁) →
      (announceStatement position).run s₁ = (.ok (), s') →
      Enters m s (.store span target base position value) s' position
  | stored {s s₁ s₂ s' : State} {span target : Span} {base : Name} {position value : Expr}
      {v i : Value} :
      (lookup base.text).run s = (.ok v, s₁) → (m.eval position).run s₁ = (.ok i, s₂) →
      (announceStatement value).run s₂ = (.ok (), s') →
      Enters m s (.store span target base position value) s' value
  | tested {s s' : State} {span : Span} {cond : Expr} {body otherwise : List Expr} :
      (announceStatement cond).run s = (.ok (), s') →
      Enters m s (.branch span cond body otherwise) s' cond
  | taken {s s₁ s₂ s' : State} {span : Span} {cond e : Expr} {before rest otherwise : List Expr}
      {c : Value} :
      (m.eval cond).run s = (.ok c, s₁) → c.truth = true →
      (noteValue 3 "if condition -> " c).run s₁ = (.ok (), s₂) →
      m.Comes before e { s₂ with scope := s₂.scope.push } s' →
      Enters m s (.branch span cond (before ++ e :: rest) otherwise) s' e
  | otherwise {s s₁ s₂ s' : State} {span : Span} {cond e : Expr} {body before rest : List Expr}
      {c : Value} :
      (m.eval cond).run s = (.ok c, s₁) → c.truth = false →
      (noteValue 3 "if condition -> " c).run s₁ = (.ok (), s₂) →
      m.Comes before e { s₂ with scope := s₂.scope.push } s' →
      Enters m s (.branch span cond body (before ++ e :: rest)) s' e
  | iterable {s s' : State} {span : Span} {name : String} {iterable : Expr} {body : List Expr} :
      (announceStatement iterable).run s = (.ok (), s') →
      Enters m s (.forIn span name iterable body) s' iterable
  | round {s s₁ s₂ s₃ s₄ s' : State} {span : Span} {name : String} {iterable e : Expr}
      {before rest : List Expr} {v w : Value} {items : Items} {done todo : List Value} :
      m.forScope = .shared → (m.eval iterable).run s = (.ok v, s₁) →
      v.elements.run s₁ = (.ok items, s₂) → items.toList = done ++ w :: todo →
      (eachValue (roundFor name (m.block (before ++ e :: rest))) done).run
        { s₂ with scope := s₂.scope.push } = (.ok .normal, s₃) →
      (roundFor name (m.block before) w).run s₃ = (.ok .normal, s₄) →
      (announce e).run s₄ = (.ok (), s') →
      Enters m s (.forIn span name iterable (before ++ e :: rest)) s' e
  | freshRound {s s₁ s₂ s₃ s₄ s' : State} {span : Span} {name : String} {iterable e : Expr}
      {before rest : List Expr} {v w : Value} {items : Items} {done todo : List Value} :
      m.forScope = .fresh → (m.eval iterable).run s = (.ok v, s₁) →
      v.elements.run s₁ = (.ok items, s₂) → items.toList = done ++ w :: todo →
      (eachValue (fun v => inBlock (roundFor name (m.block (before ++ e :: rest)) v)) done).run s₂ =
        (.ok .normal, s₃) →
      (roundFor name (m.block before) w).run { s₃ with scope := s₃.scope.push } =
        (.ok .normal, s₄) →
      (announce e).run s₄ = (.ok (), s') →
      Enters m s (.forIn span name iterable (before ++ e :: rest)) s' e
  | held {s s₁ s' : State} {span : Span} {cond : Expr} {body : List Expr} {k : Nat} :
      m.Rounds cond body k s s₁ → k < m.rounds → (announceStatement cond).run s₁ = (.ok (), s') →
      Enters m s (.loop span cond body) s' cond
  | repeated {s s₁ s₂ s₃ s' : State} {span : Span} {cond e : Expr} {before rest : List Expr}
      {k : Nat} {c : Value} :
      m.Rounds cond (before ++ e :: rest) k s s₁ → k < m.rounds →
      (m.eval cond).run s₁ = (.ok c, s₂) → c.truth = true →
      (note 3 "while iteration").run s₂ = (.ok (), s₃) →
      m.Comes before e { s₃ with scope := s₃.scope.push } s' →
      Enters m s (.loop span cond (before ++ e :: rest)) s' e
  | returned {s s' : State} {span : Span} {value : Expr} :
      (announceStatement value).run s = (.ok (), s') → Enters m s (.returnValue span value) s' value

/-! ## From call to call -/

/-- The machine that runs the body of a function from which calls may be nested so deep. -/
def Program.machineAt (p : Program) (o : Settings) (depth : Nat) : Machine :=
  ⟨p.dispatch (p.invoke o depth), o.rounds, o.forScope⟩

/-- A call that waits for another one: the function, the call that it makes, and its variables. -/
structure Waiting where
  caller : Fun
  call : Expr
  scope : Scope Value

/-- A run of a program from the state `s₀` gets to a form in the body of a function, in a state, where
calls may be nested so much deeper and these calls wait for the function, the innermost first. -/
inductive Program.Reaches (p : Program) (o : Settings) (s₀ : State) :
    Nat → List Waiting → Fun → State → Expr → Prop
  | start {depth : Nat} {f : Fun} {s s' : State} {before rest : List Expr} {e : Expr} :
      o.calls = depth + 1 → p.find? "main" = some f →
      (do note 1 "run: main"; noteCall "main" []).run s₀ = (.ok (), s) →
      f.body = before ++ e :: rest →
      (p.machineAt o depth).Comes before e { s with scope := [f.frame []] } s' →
      Reaches p o s₀ depth [] f s' e
  | part {depth : Nat} {waiting : List Waiting} {f : Fun} {s s' : State} {e e' : Expr} :
      Reaches p o s₀ depth waiting f s e → (p.machineAt o depth).Enters s e s' e' →
      Reaches p o s₀ depth waiting f s' e'
  | call {depth : Nat} {waiting : List Waiting} {f g : Fun} {s s₁ s₂ s' : State} {span : Span}
      {name : String} {args before rest : List Expr} {e : Expr} {vs : List Value} :
      Reaches p o s₀ (depth + 1) waiting f s (.call span name args) →
      ((p.machineAt o (depth + 1)).values args).run s = (.ok vs, s₁) →
      Builtin.ofName? name = none → p.find? name = some g →
      (noteCall name vs).run s₁ = (.ok (), s₂) → g.body = before ++ e :: rest →
      (p.machineAt o depth).Comes before e { s₂ with scope := [g.frame vs] } s' →
      Reaches p o s₀ depth (⟨f, .call span name args, s₂.scope⟩ :: waiting) g s' e

/-! ## Variables have their types -/

section

variable {Γ : Context} {Seen : Checking → Expr → Prop} {m : Machine} {S : List Ty}
  {Xs : List (List String)} {Δ Δ' : Scope Ty} {s s' : State} {e e' : Expr} {t : Ty} {ts : List Ty}

/-- The form is ready, and the variables and arrays that it is run with have their types. -/
def Machine.Good (Γ : Context) (Seen : Checking → Expr → Prop) (S : List Ty) (s : State)
    (e : Expr) : Prop :=
  ∃ S' Xs Δ t Δ', S <+: S' ∧ Ready Γ Seen Δ e t Δ' ∧ s.Fits S' Xs Δ

theorem Machine.Good.weaken {S₁ : List Ty} (hS : S <+: S₁) (h : Good Γ Seen S₁ s e) :
    Good Γ Seen S s e := by
  obtain ⟨S', Xs, Δ, t, Δ', hS', hready, hs⟩ := h
  exact ⟨S', Xs, Δ, t, Δ', hS.trans hS', hready, hs⟩

/-- An operand that is run next. -/
theorem Machine.good_operand (hready : Ready Γ Seen Δ e t Δ') (hs : s.Fits S Xs Δ)
    (hrun : (announceStatement e).run s = (.ok (), s')) : Good Γ Seen S s' e :=
  ⟨S, Xs, Δ, t, Δ', List.prefix_rfl, hready,
    (safe_announceStatement (R := fun _ _ => True) (B := fun _ => False) hs).of_run hrun⟩

/-- A statement that is run next. -/
theorem Machine.good_statement {before rest : List Expr}
    (hforms : ∀ e, m.SafeForm Γ Seen e)
    (hready : ReadyAll Γ Seen Δ (before ++ e :: rest) ts Δ') (hs : s.Fits S Xs Δ)
    (hcomes : m.Comes before e s s') : Good Γ Seen S s' e := by
  obtain ⟨us, u, Δ₁, Δ₂, hbefore, he⟩ := hready.split
  obtain ⟨s₁, hrun, hannounce⟩ := hcomes
  obtain ⟨S₁, hS₁, hs₁⟩ :=
    (safe_block (fun e _ => hforms e) hbefore List.prefix_rfl hs).of_run hrun
  cases hannounce
  exact ⟨S₁, Xs, Δ₁, u, Δ₂, hS₁, he, hs₁.note _ _⟩

/-- The rounds of a loop keep variables and arrays in shape. -/
theorem Machine.Rounds.keeps {cond : Expr} {body : List Expr} {k : Nat}
    (hforms : ∀ e, m.SafeForm Γ Seen e) (hframed : ∃ F Δ₀, Δ = F :: Δ₀)
    (hcond : Ready Γ Seen Δ cond .boolean Δ) (hbody : ReadyAll Γ Seen Δ.push body ts Δ')
    (hrounds : m.Rounds cond body k s s') (hs : s.Fits S Xs Δ) : s'.Keeps S Xs Δ := by
  induction hrounds with
  | none => exact hs.keeps
  | more _ hcondition _ hnote hrun ih =>
    obtain ⟨S₁, hS₁, hs₁⟩ := ih hs
    obtain ⟨S₂, hS₂, hs₂, -⟩ := ((hforms cond).value hcond List.prefix_rfl hs₁).of_run hcondition
    cases hnote
    obtain ⟨S₃, hS₃, hs₃⟩ := (safe_inner hframed (fun e _ => hforms e) hbody List.prefix_rfl
      (hs₂.note _ _)).of_run hrun
    exact ⟨S₃, hS₁.trans (hS₂.trans hS₃), hs₃⟩

/-- Looking up a variable that checking knows does not change the state. -/
theorem eq_of_run_lookup {x : String} {v : Value} (hs : s.Fits S Xs Δ) (hget : Δ.get? x = some t)
    (hrun : (lookup x).run s = (.ok v, s')) : s' = s := by
  obtain ⟨w, hw, -⟩ := hs.scope.get? hget
  rw [run_lookup hw] at hrun
  exact (Prod.mk.inj hrun).2.symm

/-- What is noted about a condition changes neither variables nor arrays. -/
theorem fits_of_noteCondition {c : Value} (hs : s.Fits S Xs Δ)
    (hrun : (noteValue 3 "if condition -> " c).run s = (.ok (), s')) :
    s'.Fits S Xs Δ := by
  exact Safe.of_run (Q := fun _ s' => s'.Fits S Xs Δ) (R := fun _ _ => True)
    (B := fun _ => False) (safe_noteValue hs.traced) hrun

/-- From a form that is ready, running gets to forms that are ready. -/
theorem Machine.good_of_enters (hforms : ∀ e, m.SafeForm Γ Seen e)
    (hshared : m.forScope = .shared) (hregular : ∀ c e, Seen c e → Check.Regular Γ c e)
    (hready : Ready Γ Seen Δ e t Δ') (hs : s.Fits S Xs Δ) (henters : m.Enters s e s' e') :
    Good Γ Seen S s' e' := by
  have hself : S <+: S := List.prefix_rfl
  -- blocks start in a frame of their own, empty for checking and for the run alike
  have hpush : ∀ {S₁ : List Ty} {s₁ : State}, s₁.Fits S₁ Xs Δ →
      State.Fits S₁ ([] :: Xs) Δ.push { s₁ with scope := s₁.scope.push } :=
    fun hs₁ => ⟨hs₁.heap, hs₁.scope.push⟩
  cases henters with
  | index hlookup hrun =>
    obtain ⟨rfl, hposition, u, hget, -⟩ := hready.index
    obtain rfl := eq_of_run_lookup hs hget hlookup
    exact good_operand hposition hs hrun
  | neg hrun => exact good_operand hready.neg.2.2 hs hrun
  | not hrun => exact good_operand hready.not.2.2 hs hrun
  | parens hrun => exact good_operand hready.parens.2 hs hrun
  | left hrun =>
    obtain ⟨-, u, w, hl, -⟩ := hready.binary hregular
    exact good_operand hl hs hrun
  | right hleft _ hrun =>
    obtain ⟨-, u, w, hl, hr, -⟩ := hready.binary hregular
    obtain ⟨S₁, hS₁, hs₁, -⟩ := ((hforms _).value hl hself hs).of_run hleft
    exact (good_operand hr hs₁ hrun).weaken hS₁
  | declared hrun =>
    obtain ⟨-, u, hvalue, -⟩ := hready.declare
    exact good_operand hvalue hs hrun
  | assigned hrun =>
    obtain ⟨-, -, u, hvalue, -⟩ := hready.assign
    exact good_operand hvalue hs hrun
  | argument hbefore hrun =>
    obtain ⟨-, us, hargs, hops, -⟩ := hready.call
    obtain ⟨ws, w, Δ₁, Δ₂, hfront, he⟩ := hargs.split
    have hfrontOps := fun x hx => hops x (List.mem_append_left _ hx)
    obtain rfl := hfront.typed.scope_eq hfrontOps
    obtain ⟨S₁, hS₁, hs₁, -⟩ :=
      (safe_values (fun e _ => hforms e) hfront hfrontOps hself hs).of_run hbefore
    exact (good_operand he hs₁ hrun).weaken hS₁
  | position hlookup hrun =>
    obtain ⟨rfl, -, hposition, u, w, hget, -⟩ := hready.store
    obtain rfl := eq_of_run_lookup hs hget hlookup
    exact good_operand hposition hs hrun
  | stored hlookup hposition hrun =>
    obtain ⟨rfl, -, hready, u, w, hget, -, hvalue⟩ := hready.store
    obtain rfl := eq_of_run_lookup hs hget hlookup
    obtain ⟨S₁, hS₁, hs₁, -⟩ := ((hforms _).value hready hself hs).of_run hposition
    exact (good_operand hvalue hs₁ hrun).weaken hS₁
  | tested hrun =>
    obtain ⟨-, -, hcond, -⟩ := hready.branch
    exact good_operand hcond hs hrun
  | taken hcondition _ hnote hcomes =>
    obtain ⟨-, -, hcond, ⟨us, Δ₁, hbody⟩, -⟩ := hready.branch
    obtain ⟨S₁, hS₁, hs₁, -⟩ := ((hforms _).value hcond hself hs).of_run hcondition
    exact (good_statement hforms hbody (hpush (fits_of_noteCondition hs₁ hnote)) hcomes).weaken hS₁
  | otherwise hcondition _ hnote hcomes =>
    obtain ⟨-, -, hcond, -, us, Δ₁, hother⟩ := hready.branch
    obtain ⟨S₁, hS₁, hs₁, -⟩ := ((hforms _).value hcond hself hs).of_run hcondition
    exact (good_statement hforms hother (hpush (fits_of_noteCondition hs₁ hnote)) hcomes).weaken hS₁
  | iterable hrun =>
    obtain ⟨-, -, u, w, hiterable, -⟩ := hready.forIn hregular
    exact good_operand hiterable hs hrun
  | round _ hiter helements hitems hdone hround hannounce =>
    obtain ⟨-, -, u, w, hiterable, hvisited, hwalk, ⟨us, Δ₁, hbody⟩, hfresh⟩ :=
      hready.forIn hregular
    obtain ⟨S₁, hS₁, hs₁, hv⟩ := ((hforms _).value hiterable hself hs).of_run hiter
    obtain ⟨rfl, hvalues⟩ := (Value.safe_elements (R := fun _ _ => True) (B := fun _ => False)
      hs₁ hv hvisited (.inr hwalk)).of_run helements
    rw [hitems] at hvalues
    -- the rounds that are done, each with the whole body
    obtain ⟨S₂, hS₂, hbetween⟩ := (safe_eachValue
      (fun v S s hS hv hs => safe_roundFor (fun e _ => hforms e) hbody hS hv hs)
      (fun v hv => hvalues v (List.mem_append_left _ hv)) List.prefix_rfl
      (hs₁.betweenRounds hfresh _ w)).of_run hdone
    -- the round that is going on, with the statements before the one that comes next
    obtain ⟨ws, z, Δ₂, Δ₃, hbefore, he⟩ := hbody.split
    have hw := (hvalues _ (List.mem_append_right _ List.mem_cons_self)).mono hS₂
    obtain ⟨S₃, hS₃, hs₃⟩ := (safe_roundFor_of hw hbetween fun s₁ hs₁ =>
      safe_block (fun e _ => hforms e) hbefore List.prefix_rfl hs₁).of_run hround
    cases hannounce
    exact ⟨S₃, _, Δ₂, z, Δ₃, hS₁.trans (hS₂.trans hS₃), he, hs₃.note _ _⟩
  | freshRound hfresh =>
    -- checking lets a round see what the round before declared, so frames are shared here
    rw [hshared] at hfresh
    cases hfresh
  | held hrounds _ hrun =>
    obtain ⟨-, -, hcond, us, Δ₁, hbody⟩ := hready.loop
    obtain ⟨S₁, hS₁, hs₁⟩ := hrounds.keeps hforms hready.framed hcond hbody hs
    exact (good_operand hcond hs₁ hrun).weaken hS₁
  | repeated hrounds _ hcondition _ hnote hcomes =>
    obtain ⟨-, -, hcond, us, Δ₁, hbody⟩ := hready.loop
    obtain ⟨S₁, hS₁, hs₁⟩ := hrounds.keeps hforms hready.framed hcond hbody hs
    obtain ⟨S₂, hS₂, hs₂, -⟩ := ((hforms _).value hcond List.prefix_rfl hs₁).of_run hcondition
    cases hnote
    exact (good_statement hforms hbody (hpush (hs₂.note _ _)) hcomes).weaken (hS₁.trans hS₂)
  | returned hrun => exact good_operand hready.returnValue.2.2 hs hrun

end

/-! ## Every point of a run -/

/-- The variables of a scope hold values of the types that checking knows for them, frame by frame
and as they are looked up. -/
structure Scope.Holds (S : List Ty) (Δ : Scope Ty) (sc : Scope Value) : Prop where
  frames : List.Forall₂ (Frame.Fits S) Δ sc
  visible : ∀ x t, Δ.get? x = some t → ∃ v, sc.get? x = some v ∧ v.HasTy S t

theorem Scope.Fits.holds {S : List Ty} {Xs : List (List String)} {Δ : Scope Ty} {sc : Scope Value}
    (h : Scope.Fits S Xs Δ sc) : Scope.Holds S Δ sc :=
  ⟨h.forall₂, fun _ _ hx => h.get? hx⟩

theorem Scope.Holds.mono {S S' : List Ty} (hS : S <+: S') {Δ : Scope Ty} {sc : Scope Value}
    (h : Scope.Holds S Δ sc) : Scope.Holds S' Δ sc := by
  refine ⟨h.frames.imp fun _ _ hframe => hframe.mono hS, fun x t hx => ?_⟩
  obtain ⟨v, hv, ht⟩ := h.visible x t hx
  exact ⟨v, hv, ht.mono hS⟩

section

variable {p : Program} {trace : Trace} {o : Settings}

/-- The variables of the calls that wait have their types. -/
def Program.Suspended (p : Program) (trace : Trace) (S : List Ty) (waiting : List Waiting) : Prop :=
  ∀ w ∈ waiting, ∃ c, p.Visits trace w.caller c w.call ∧ Scope.Holds S c.scope w.scope

theorem Program.Suspended.mono {S S' : List Ty} (hS : S <+: S') {waiting : List Waiting}
    (h : p.Suspended trace S waiting) : p.Suspended trace S' waiting := by
  intro w hw
  obtain ⟨c, hvisits, hholds⟩ := h w hw
  exact ⟨c, hvisits, hholds.mono hS⟩

/-- A statement of the body of a function that was called with arguments of the right types. -/
theorem Program.good_of_comes (h : p.WellTyped) (hregular : p.Regular trace)
    (hforms : ∀ depth f e,
      (p.machineAt o depth).SafeForm (contextOf p.signatures f) (p.Visits trace f) e)
    {depth : Nat} {f : Fun} (hf : f ∈ p.functions) {vs : List Value} {S : List Ty}
    {s s' : State} {before rest : List Expr} {e : Expr} (hheap : s.heap.Typed S)
    (hvs : List.Forall₂ (Value.HasTy S) vs (f.params.map fun p => Ty.ofRef p.type))
    (hbody : f.body = before ++ e :: rest)
    (hcomes : (p.machineAt o depth).Comes before e { s with scope := [f.frame vs] } s') :
    Machine.Good (contextOf p.signatures f) (p.Visits trace f) S s' e := by
  obtain ⟨ts, Δ', hready⟩ := h.ready_body hregular.settled hf
  rw [hbody] at hready
  have hstart : State.Fits S [[]] f.scope { s with scope := [f.frame vs] } :=
    ⟨hheap, Fun.fits_frame (h.2.2 f hf).1 hvs⟩
  exact Machine.good_statement (hforms depth f) hready hstart hcomes

/-- At every point of a run the form is ready, and the variables of all active calls have their
types. -/
theorem Program.Reaches.good (h : p.WellTyped) (hregular : p.Regular trace)
    (hforms : ∀ depth f e,
      (p.machineAt o depth).SafeForm (contextOf p.signatures f) (p.Visits trace f) e)
    (hshared : o.forScope = .shared) {s₀ : State} {S₀ : List Ty} {Xs₀ : List (List String)}
    {Δ₀ : Scope Ty} (hs₀ : s₀.Fits S₀ Xs₀ Δ₀) {depth : Nat} {waiting : List Waiting} {f : Fun}
    {s : State} {e : Expr}
    (hreach : p.Reaches o s₀ depth waiting f s e) :
    ∃ S, Machine.Good (contextOf p.signatures f) (p.Visits trace f) S s e ∧
      p.Suspended trace S waiting := by
  induction hreach with
  | @start depth f s s' before rest e _ hfind hnote hbody hcomes =>
    have hf := List.mem_of_find?_eq_some hfind
    have hs : s.Fits S₀ Xs₀ Δ₀ := by
      refine Safe.of_run (Q := fun _ s' => s'.Fits S₀ Xs₀ Δ₀) (R := fun _ _ => True)
        (B := fun _ => False) ?_ hnote
      refine Safe.bind (P := fun _ s' => s'.Fits S₀ Xs₀ Δ₀) (safe_note (hs₀.note _ _)) ?_
      exact fun _ s₁ hs₁ => safe_noteCall hs₁
    -- the program starts without variables, for `main` has no parameters
    obtain ⟨g, hmain, hparams⟩ := h.main
    obtain rfl := Option.some.inj (hfind.symm.trans hmain)
    refine ⟨S₀, Program.good_of_comes h hregular hforms hf hs.heap ?_ hbody hcomes, ?_⟩
    · rw [hparams]
      exact .nil
    · intro w hw
      cases hw
  | part _ henters ih =>
    obtain ⟨S, ⟨S₁, Xs, Δ, t, Δ', hS₁, hready, hs⟩, hwaiting⟩ := ih
    exact ⟨S₁, Machine.good_of_enters (hforms _ _) hshared (fun c e => hregular.forms _ c e) hready
      hs henters, hwaiting.mono hS₁⟩
  | @call depth waiting f g s s₁ s₂ s' span name args before rest e vs _ hvalues hname hfind hnote
      hbody hcomes ih =>
    obtain ⟨S, ⟨S₁, Xs, Δ, t, Δ', hS₁, hready, hs⟩, hwaiting⟩ := ih
    obtain ⟨rfl, ts, hargs, hops, hcall⟩ := hready.call
    obtain ⟨S₂, hS₂, hs₂, hvs⟩ := (safe_values (fun e _ => hforms _ _ e) hargs hops List.prefix_rfl
      hs).of_run hvalues
    have hs₃ := (safe_noteCall (R := fun _ _ => True) (B := fun _ => False) hs₂).of_run hnote
    obtain ⟨c, rfl, hseen⟩ := hready.seen
    refine ⟨S₂, Program.good_of_comes h hregular hforms (List.mem_of_find?_eq_some hfind) hs₃.heap
      ?_ hbody hcomes, ?_⟩
    · -- the arguments have the types of the parameters, so they make a frame that fits
      cases hcall with
      | builtin hb => simp [hname] at hb
      | user _ hsig =>
        obtain ⟨g', hfind', rfl⟩ := Program.find?_of_signature hsig
        obtain rfl := Option.some.inj (hfind.symm.trans hfind')
        exact hvs
    · intro w hw
      rcases List.mem_cons.1 hw with rfl | hw
      · exact ⟨c, hseen _ _ .here, hs₃.scope.holds⟩
      · exact hwaiting.mono (hS₁.trans hS₂) w hw

end

/-! ## Typed points -/

/-- At a point of a run every variable of every active call holds a value of the type that checking
gives it, and so does every element of an array.  The form that is run has a type, and whenever it
ends with a value the value has that type. -/
def Program.PointTyped (p : Program) (trace : Trace) (m : Machine) (waiting : List Waiting) (f : Fun)
    (s : State) (e : Expr) : Prop :=
  ∃ S, s.heap.Typed S ∧
    (∃ c, p.Visits trace f c e ∧ Scope.Holds S c.scope s.scope ∧
      ∃ t, ((Check.expr (contextOf p.signatures f) e).run c).1 = some t ∧
        ∀ v s', (m.eval e).run s = (.ok v, s') → ∃ S', s'.heap.Typed S' ∧ v.HasTy S' t) ∧
    p.Suspended trace S waiting

/-- At every point of a run of a program that is accepted and regular, variables hold values of their
types. -/
theorem Program.Reaches.pointTyped {p : Program} {trace : Trace} {o : Settings} {s₀ : State}
    (h : p.WellTyped) (hregular : p.Regular trace) (hshared : o.forScope = .shared)
    (hstart : State.Fits [] [[]] Scope.empty s₀) {depth : Nat} {waiting : List Waiting} {f : Fun}
    {s : State} {e : Expr} (hreach : p.Reaches o s₀ depth waiting f s e) :
    p.PointTyped trace (p.machineAt o depth) waiting f s e := by
  have hforms : ∀ depth f e, (p.machineAt o depth).SafeForm
      (contextOf p.signatures f) (p.Visits trace f) e := fun depth f e =>
    Machine.safeForm (Program.soundCalls h hregular hshared depth rfl) hshared
      (fun c e => hregular.forms f c e) e
  obtain ⟨S, ⟨S₁, Xs, Δ, t, Δ', hS₁, hready, hs⟩, hwaiting⟩ :=
    hreach.good h hregular hforms hshared hstart
  obtain ⟨c, rfl, hseen⟩ := hready.seen
  refine ⟨S₁, hs.heap, ⟨c, hseen _ _ .here, hs.scope.holds, t,
    (Check.exists_run_of_hasType hready.framed hready.typed).1, ?_⟩, hwaiting.mono hS₁⟩
  intro v s' hrun
  obtain ⟨S₂, -, hs₂, hv⟩ := ((hforms depth f e).value hready List.prefix_rfl hs).of_run hrun
  exact ⟨S₂, hs₂.heap, hv⟩

end Scriptlet
