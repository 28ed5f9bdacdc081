import Scriptlet.Proofs.Eval.Safe
import Scriptlet.Proofs.Typing.Ready

/-!
# Running forms of a regular program

A form that is ready, run from a state whose variables and arrays have their types, ends as its type
says and leaves such a state behind.  The argument follows the syntax; calls are assumed to be sound,
and loops keep the state in shape from round to round.
-/

namespace Scriptlet

open Run Check

variable {Γ : Context} {Seen : Checking → Expr → Prop} {m : Machine}
  {S₀ S : List Ty} {Xs : List (List String)} {Δ Δ' : Scope Ty} {s : State} {e : Expr}
  {es : List Expr} {t : Ty} {ts : List Ty} {B : Breach → Prop}

/-! ## How forms end -/

/-- The state fits, with arrays added to those in `S`. -/
def State.Keeps (S : List Ty) (Xs : List (List String)) (Δ : Scope Ty) (s : State) : Prop :=
  ∃ S', S <+: S' ∧ s.Fits S' Xs Δ

/-- The state fits and the value has a type, with arrays added to those in `S`. -/
def State.Gives (S : List Ty) (Xs : List (List String)) (Δ : Scope Ty) (t : Ty) (v : Value)
    (s : State) : Prop :=
  ∃ S', S <+: S' ∧ s.Fits S' Xs Δ ∧ v.HasTy S' t

/-- The value that leaves a call has the type of its result.  Nothing is said about variables, which
the call takes along. -/
def State.Leaves (result : Ty) (S : List Ty) (v : Value) (s : State) : Prop :=
  ∃ S', S <+: S' ∧ s.heap.Typed S' ∧ v.HasTy S' result

/-- A statement ends in a state as `N` says, or leaves the call. -/
def Completion.Ends (result : Ty) (S₀ : List Ty) (N : State → Prop) : Completion → State → Prop
  | .normal, s => N s
  | .returned v, s => s.Leaves result S₀ v

/-- A statement ends in a state that fits, or leaves the call. -/
def Completion.Sound (result : Ty) (S₀ S : List Ty) (Xs : List (List String)) (Δ : Scope Ty) :
    Completion → State → Prop :=
  Completion.Ends result S₀ (State.Keeps S Xs Δ)

/-- A form of type `t` ends with a value of that type, or like a statement where `t` is `Unit`. -/
def Effect.Sound (result : Ty) (S₀ S : List Ty) (Xs : List (List String)) (Δ : Scope Ty) (t : Ty) :
    Effect → State → Prop
  | .value v, s => s.Gives S Xs Δ t v
  | .completed c, s => t = .unit ∧ c.Sound result S₀ S Xs Δ s

theorem State.Fits.gives (hs : s.Fits S Xs Δ) {v : Value} (hv : v.HasTy S t) :
    s.Gives S Xs Δ t v :=
  ⟨S, List.prefix_rfl, hs, hv⟩

theorem State.Fits.keeps (hs : s.Fits S Xs Δ) : s.Keeps S Xs Δ := ⟨S, List.prefix_rfl, hs⟩

theorem State.Gives.weaken {S₁ : List Ty} (hS : S <+: S₁) {v : Value} (h : s.Gives S₁ Xs Δ t v) :
    s.Gives S Xs Δ t v := by
  obtain ⟨S', hS', hs, hv⟩ := h
  exact ⟨S', hS.trans hS', hs, hv⟩

theorem State.Keeps.weaken {S₁ : List Ty} (hS : S <+: S₁) (h : s.Keeps S₁ Xs Δ) :
    s.Keeps S Xs Δ := by
  obtain ⟨S', hS', hs⟩ := h
  exact ⟨S', hS.trans hS', hs⟩

theorem Completion.Ends.imp {result : Ty} {N N' : State → Prop} (hN : ∀ s, N s → N' s)
    {c : Completion} (h : c.Ends result S₀ N s) : c.Ends result S₀ N' s := by
  cases c with
  | normal => exact hN s h
  | returned v => exact h

/-! ## What is to be shown -/

/-- Calls end with values of the types that checking assumes, and never with a `return`. -/
def Machine.SoundCalls (m : Machine) (Γ : Context) (B : Breach → Prop := fun _ => False) : Prop :=
  ∀ ⦃name : String⦄ ⦃vs : List Value⦄ ⦃ts : List Ty⦄ ⦃t : Ty⦄ ⦃S : List Ty⦄
    ⦃Xs : List (List String)⦄ ⦃Δ : Scope Ty⦄ ⦃s : State⦄ ⦃R : Value → State → Prop⦄,
    Γ.Calls name ts t → s.Fits S Xs Δ → List.Forall₂ (Value.HasTy S) vs ts →
    Safe (m.call name vs) s (State.Gives S Xs Δ t) R B

/-- A form that is ready is safe to run. -/
def Machine.SafeForm (m : Machine) (Γ : Context) (Seen : Checking → Expr → Prop) (e : Expr)
    (B : Breach → Prop := fun _ => False) : Prop :=
  ∀ ⦃S₀ S : List Ty⦄ ⦃Xs : List (List String)⦄ ⦃Δ Δ' : Scope Ty⦄ ⦃t : Ty⦄ ⦃s : State⦄,
    Ready Γ Seen Δ e t Δ' → S₀ <+: S → s.Fits S Xs Δ →
    Safe (m.step e) s (Effect.Sound Γ.result S₀ S Xs Δ' t) (State.Leaves Γ.result S₀) B

/-- The trace holds neither variables nor arrays. -/
theorem State.Fits.traced (hs : s.Fits S Xs Δ) (trace : Trace) :
    State.Fits S Xs Δ { s with trace := trace } :=
  ⟨hs.heap, hs.scope⟩

theorem State.Fits.note (hs : s.Fits S Xs Δ) (level : Nat) (text : String) :
    State.Fits S Xs Δ { s with trace := s.trace.write level text } :=
  hs.traced _

theorem safe_announceStatement (hs : s.Fits S Xs Δ) {R : Value → State → Prop} :
    Safe (announceStatement e) s (fun _ s' => s'.Fits S Xs Δ) R B := by
  rw [announceStatement]
  split
  · exact safe_note (hs.note _ _)
  · exact safe_pure hs

/-- The value of a form. -/
theorem Machine.SafeForm.value (h : m.SafeForm Γ Seen e B) (hready : Ready Γ Seen Δ e t Δ')
    (hS : S₀ <+: S) (hs : s.Fits S Xs Δ) :
    Safe (m.eval e) s (State.Gives S Xs Δ' t) (State.Leaves Γ.result S₀) B := by
  refine Safe.bind (safe_announceStatement hs) ?_
  intro _ s₁ hs₁
  refine Safe.bind (h hready hS hs₁) ?_
  intro effect s₂ hs₂
  cases effect with
  | value v => exact safe_pure hs₂
  | completed c =>
    obtain ⟨rfl, hc⟩ := hs₂
    cases c with
    | normal =>
      obtain ⟨S', hS', hfits⟩ := hc
      exact safe_pure ⟨S', hS', hfits, .unit⟩
    | returned v => exact hc

/-- A form that is run as a statement. -/
theorem Machine.SafeForm.statement (h : m.SafeForm Γ Seen e B) (hready : Ready Γ Seen Δ e t Δ')
    (hS : S₀ <+: S) (hs : s.Fits S Xs Δ) :
    Safe (m.exec e) s (Completion.Sound Γ.result S₀ S Xs Δ') (State.Leaves Γ.result S₀) B := by
  refine Safe.bind (P := fun _ s' => s'.Fits S Xs Δ) (safe_note (hs.note _ _)) ?_
  intro _ s₁ hs₁
  refine Safe.bind (h hready hS hs₁) ?_
  intro effect s₂ hs₂
  cases effect with
  | value v =>
    obtain ⟨S', hS', hfits, -⟩ := hs₂
    exact safe_pure ⟨S', hS', hfits⟩
  | completed c => exact safe_pure hs₂.2

/-- The second of two runs is reached only if the first one ends normally. -/
theorem safe_andThen {first second : Run Completion} {result : Ty} {N N' : State → Prop}
    {R : Value → State → Prop} (hfirst : Safe first s (Completion.Ends result S₀ N) R B)
    (hsecond : ∀ s₁, N s₁ → Safe second s₁ (Completion.Ends result S₀ N') R B) :
    Safe (andThen first second) s (Completion.Ends result S₀ N') R B := by
  refine Safe.bind hfirst ?_
  intro c s₁ hc
  cases c with
  | normal => exact hsecond s₁ hc
  | returned v => exact safe_pure hc

/-! ## Several forms -/

/-- The values of operands, which all stand in one scope. -/
theorem safe_values (ih : ∀ e ∈ es, m.SafeForm Γ Seen e B) (hready : ReadyAll Γ Seen Δ es ts Δ')
    (hops : ∀ e ∈ es, e.IsOperand) (hS : S₀ <+: S) (hs : s.Fits S Xs Δ) :
    Safe (m.values es) s
      (fun vs s' => ∃ S', S <+: S' ∧ s'.Fits S' Xs Δ ∧ List.Forall₂ (Value.HasTy S') vs ts)
      (State.Leaves Γ.result S₀) B := by
  induction es generalizing S ts s with
  | nil =>
    cases hready.typed
    exact safe_pure ⟨S, List.prefix_rfl, hs, .nil⟩
  | cons e es ihes =>
    obtain ⟨u, us, Δ₁, rfl, he, hes⟩ := hready.cons
    obtain rfl := he.typed.scope_eq (hops e List.mem_cons_self)
    refine Safe.bind ((ih e List.mem_cons_self).value he hS hs) ?_
    rintro v s₁ ⟨S₁, hS₁, hs₁, hv⟩
    refine Safe.bind (ihes (fun x hx => ih x (List.mem_cons_of_mem _ hx)) hes
      (fun x hx => hops x (List.mem_cons_of_mem _ hx)) (hS.trans hS₁) hs₁) ?_
    rintro vs s₂ ⟨S₂, hS₂, hs₂, hvs⟩
    exact safe_pure ⟨S₂, hS₁.trans hS₂, hs₂, .cons (hv.mono hS₂) hvs⟩

/-- Statements, one after the other. -/
theorem safe_block (ih : ∀ e ∈ es, m.SafeForm Γ Seen e B) (hready : ReadyAll Γ Seen Δ es ts Δ')
    (hS : S₀ <+: S) (hs : s.Fits S Xs Δ) :
    Safe (m.block es) s (Completion.Sound Γ.result S₀ S Xs Δ') (State.Leaves Γ.result S₀) B := by
  induction es generalizing S Δ ts s with
  | nil =>
    cases hready.typed
    exact safe_pure hs.keeps
  | cons e es ihes =>
    obtain ⟨u, us, Δ₁, rfl, he, hes⟩ := hready.cons
    refine safe_andThen ((ih e List.mem_cons_self).statement he hS hs) ?_
    rintro s₁ ⟨S₁, hS₁, hs₁⟩
    refine (ihes (fun x hx => ih x (List.mem_cons_of_mem _ hx)) hes (hS.trans hS₁) hs₁).imp ?_
      fun _ _ h => h
    exact fun c s₂ h => h.imp fun _ => State.Keeps.weaken hS₁

/-- A block of its own leaves the variables around it in shape. -/
theorem safe_ownBlock (hframed : ∃ F Δ₀, Δ = F :: Δ₀) {act : Run Completion} {X : List String}
    {result : Ty}
    (h : Safe act { s with scope := s.scope.push }
      (Completion.Ends result S₀ fun s' => ∃ F', s'.Keeps S (X :: Xs) (F' :: Δ))
      (State.Leaves result S₀) B) :
    Safe (inBlock act) s (Completion.Sound result S₀ S Xs Δ) (State.Leaves result S₀) B := by
  obtain ⟨F, Δ₀, rfl⟩ := hframed
  refine safe_inBlock (h.imp ?_ fun _ _ hleaves => hleaves)
  intro c s' hc
  cases c with
  | normal =>
    obtain ⟨F', S', hS', hfits⟩ := hc
    exact ⟨S', hS', hfits.heap, hfits.scope.pop⟩
  | returned v => exact hc

/-- Statements in a block of their own. -/
theorem safe_inner (hframed : ∃ F Δ₀, Δ = F :: Δ₀) (ih : ∀ e ∈ es, m.SafeForm Γ Seen e B)
    (hready : ReadyAll Γ Seen Δ.push es ts Δ') (hS : S₀ <+: S) (hs : s.Fits S Xs Δ) :
    Safe (inBlock (m.block es)) s (Completion.Sound Γ.result S₀ S Xs Δ)
      (State.Leaves Γ.result S₀) B := by
  obtain ⟨F', rfl⟩ := hready.typed.outer
  have hpush : State.Fits S ([] :: Xs) Δ.push { s with scope := s.scope.push } :=
    ⟨hs.heap, hs.scope.push⟩
  refine safe_ownBlock (X := []) hframed ((safe_block ih hready hS hpush).imp ?_ fun _ _ h => h)
  exact fun c s' h => h.imp fun _ hkeeps => ⟨F', hkeeps⟩

/-! ## Loops -/

/-- Rounds that keep the state in shape, as long as a condition holds. -/
theorem safe_whileTrue {cond : Run Value} {body : Run Completion} {result : Ty}
    (hcond : ∀ ⦃S s⦄, S₀ <+: S → s.Fits S Xs Δ →
      Safe cond s (State.Gives S Xs Δ .boolean) (State.Leaves result S₀) B)
    (hbody : ∀ ⦃S s⦄, S₀ <+: S → s.Fits S Xs Δ →
      Safe (inBlock body) s (Completion.Sound result S₀ S Xs Δ) (State.Leaves result S₀) B)
    (rounds : Nat) (hS : S₀ <+: S) (hs : s.Fits S Xs Δ) :
    Safe (whileTrue cond body rounds) s (Completion.Sound result S₀ S Xs Δ)
      (State.Leaves result S₀) B := by
  induction rounds generalizing S s with
  | zero => trivial
  | succ rounds ih =>
    refine Safe.bind (hcond hS hs) ?_
    rintro v s₁ ⟨S₁, hS₁, hs₁, -⟩
    by_cases hv : v.truth = true
    · rw [if_pos hv]
      refine Safe.bind (P := fun _ s' => s'.Fits S₁ Xs Δ) (safe_note (hs₁.note _ _)) ?_
      intro _ s₂ hs₂
      refine safe_andThen (hbody (hS.trans hS₁) hs₂) ?_
      rintro s₃ ⟨S₃, hS₃, hs₃⟩
      refine (ih (hS.trans (hS₁.trans hS₃)) hs₃).imp ?_ fun _ _ h => h
      exact fun c s' h => h.imp fun _ => State.Keeps.weaken (hS₁.trans hS₃)
    · rw [if_neg hv]
      exact safe_pure ⟨S₁, hS₁, hs₁⟩

/-- Rounds that keep an invariant, one for each value. -/
theorem safe_eachValue {body : Value → Run Completion} {result : Ty} {I : List Ty → State → Prop}
    {R : Value → State → Prop} {vs : List Value}
    (hround : ∀ v S s, S₀ <+: S → v.HasTy S t → I S s →
      Safe (body v) s (Completion.Ends result S₀ fun s' => ∃ S', S <+: S' ∧ I S' s') R B)
    (hvs : ∀ v ∈ vs, v.HasTy S t) (hS : S₀ <+: S) (hs : I S s) :
    Safe (eachValue body vs) s (Completion.Ends result S₀ fun s' => ∃ S', S <+: S' ∧ I S' s') R
      B := by
  induction vs generalizing S s with
  | nil => exact safe_pure ⟨S, List.prefix_rfl, hs⟩
  | cons v vs ih =>
    refine safe_andThen (hround v S s hS (hvs v List.mem_cons_self) hs) ?_
    rintro s₁ ⟨S₁, hS₁, hs₁⟩
    refine (ih (fun w hw => (hvs w (List.mem_cons_of_mem _ hw)).mono hS₁) (hS.trans hS₁) hs₁).imp
      ?_ fun _ _ h => h
    exact fun c s₂ h => h.imp fun _ ⟨S₂, hS₂, hs₂⟩ => ⟨S₂, hS₁.trans hS₂, hs₂⟩

/-- The state between the rounds of a loop: the frame of the loop holds the loop variable, once there
was a round, and otherwise only names that the body is going to declare again. -/
def BetweenRounds (name : String) (t : Ty) (X : List String) (Xs : List (List String))
    (Δ : Scope Ty) (S : List Ty) (s : State) : Prop :=
  ∃ F : Frame Ty, (F = [] ∨ F = [(name, t)]) ∧ s.Fits S (X :: Xs) (F :: Δ)

/-- A loop starts with a frame of its own, where the body may declare what is not visible around. -/
theorem State.Fits.betweenRounds (hs : s.Fits S Xs Δ) {X : List String}
    (hfresh : ∀ x ∈ X, Δ.get? x = none) (name : String) (t : Ty) :
    BetweenRounds name t X Xs Δ S { s with scope := s.scope.push } :=
  ⟨[], .inl rfl, hs.heap, hs.scope.push.reserve hfresh⟩

theorem Frame.declare_loopVariable {F : Frame Ty} {name : String}
    (hF : F = [] ∨ F = [(name, t)]) : F.declare name t = [(name, t)] := by
  rcases hF with rfl | rfl
  · rfl
  · simp [Frame.declare]

/-- The start of a round puts the loop variable in place. -/
theorem safe_roundFor_of {name : String} {X : List String} {act : Run Completion} {v : Value}
    {Q : Completion → State → Prop} {R : Value → State → Prop} (hv : v.HasTy S t)
    (hs : BetweenRounds name t X Xs Δ S s)
    (hact : ∀ s₁, s₁.Fits S (X :: Xs) (Δ.push.declare name t) → Safe act s₁ Q R B) :
    Safe (roundFor name act v) s Q R B := by
  obtain ⟨F, hF, hfits⟩ := hs
  refine Safe.bind (P := fun _ s' => s'.Fits S (X :: Xs) (F :: Δ)) (safe_noteValue hfits.traced) ?_
  intro _ s₁ hs₁
  refine Safe.bind (P := fun _ s' => s'.Fits S (X :: Xs) (Δ.push.declare name t)) ?_
    fun _ s₂ hs₂ => hact s₂ hs₂
  refine safe_of_run rfl ⟨hs₁.heap, ?_⟩
  have hdeclared := hs₁.scope.declare hv name
  rwa [Scope.declare, Frame.declare_loopVariable hF] at hdeclared

/-- One round of a loop. -/
theorem safe_roundFor {name : String} {body : List Expr} {v : Value}
    (ih : ∀ e ∈ body, m.SafeForm Γ Seen e B)
    (hready : ReadyAll Γ Seen (Δ.push.declare name t) body ts Δ') (hS : S₀ <+: S)
    (hv : v.HasTy S t)
    (hs : BetweenRounds name t (Expr.declaredIn body) Xs Δ S s) :
    Safe (roundFor name (m.block body) v) s
      (Completion.Ends Γ.result S₀ fun s' =>
        ∃ S', S <+: S' ∧ BetweenRounds name t (Expr.declaredIn body) Xs Δ S' s')
      (State.Leaves Γ.result S₀) B := by
  refine safe_roundFor_of hv hs fun s₁ hs₁ => ?_
  obtain ⟨F', rfl⟩ := hready.typed.outer
  refine (safe_block ih hready hS hs₁).imp ?_ fun _ _ h => h
  refine fun c s' h => h.imp ?_
  rintro s₂ ⟨S₂, hS₂, hs₂⟩
  -- What the body declared is forgotten, up to the names, which the next round declares again.
  refine ⟨S₂, hS₂, [(name, t)], .inr rfl, hs₂.heap, hs₂.scope.forget ?_ ?_⟩
  · exact fun x u hx => hready.typed.get?_of_tidy hready.tidy hx
  · exact fun y hy => hready.typed.has_of_tidy hready.tidy hy

/-- A loop whose body declares nothing that is visible around the loop. -/
theorem safe_forLoop {name : String} {body : List Expr} {items : Items}
    (hframed : ∃ F Δ₀, Δ = F :: Δ₀) (ih : ∀ e ∈ body, m.SafeForm Γ Seen e B)
    (hready : ReadyAll Γ Seen (Δ.push.declare name t) body ts Δ')
    (hfresh : ∀ x ∈ Expr.declaredIn body, Δ.get? x = none)
    (hitems : ∀ v ∈ items.toList, v.HasTy S t) (hS : S₀ <+: S) (hs : s.Fits S Xs Δ) :
    Safe (forLoop .shared name (m.block body) items) s (Completion.Sound Γ.result S₀ S Xs Δ)
      (State.Leaves Γ.result S₀) B := by
  rw [forLoop, each_eq]
  refine safe_ownBlock (X := Expr.declaredIn body) hframed ((safe_eachValue
    (fun v S s hS hv hs => safe_roundFor ih hready hS hv hs) hitems hS
      (hs.betweenRounds hfresh name t)).imp ?_ fun _ _ h => h)
  refine fun c s' h => h.imp ?_
  rintro s₁ ⟨S₁, hS₁, F, -, hfits⟩
  exact ⟨F, S₁, hS₁, hfits⟩

/-! ## Forms -/

/-- Every form is safe to run when it is ready.  That operators and loops may find no numbers is
tolerated, or the program is regular. -/
theorem Machine.safeForm_of (hcalls : m.SoundCalls Γ B) (hshared : m.forScope = .shared)
    (hsettled : ∀ c e, Seen c e → Settled c e)
    (hnumbers : (∀ kind, B (.notAnInt kind)) ∨ ∀ c e, Seen c e → Regular Γ c e) (e : Expr) :
    m.SafeForm Γ Seen e B := by
  induction e using Expr.induction with
  | int s n =>
    intro S₀ S Xs Δ Δ' t s hready hS hs
    cases hready.typed
    exact safe_pure (hs.gives .int)
  | bool s b =>
    intro S₀ S Xs Δ Δ' t s hready hS hs
    cases hready.typed
    exact safe_pure (hs.gives .bool)
  | char s c =>
    intro S₀ S Xs Δ Δ' t s hready hS hs
    cases hready.typed
    exact safe_pure (hs.gives .char)
  | str s v =>
    intro S₀ S Xs Δ Δ' t s hready hS hs
    cases hready.typed
    exact safe_pure (hs.gives .str)
  | var s name =>
    intro S₀ S Xs Δ Δ' t s hready hS hs
    cases hready.typed with
    | var hget =>
      obtain ⟨v, hv, ht⟩ := hs.scope.get? hget
      refine safe_bind_of_run (run_lookup hv) ?_
      exact safe_pure (hs.gives ht)
  | index s base position ih =>
    intro S₀ S Xs Δ Δ' t s hready hS hs
    obtain ⟨rfl, hposition, u, hget, hindexed⟩ := hready.index
    obtain ⟨container, hlookup, hc⟩ := hs.scope.get? hget
    refine safe_bind_of_run (run_lookup hlookup) ?_
    refine Safe.bind (ih.value hposition hS hs) ?_
    rintro i s₁ ⟨S₁, hS₁, hs₁, hi⟩
    refine Safe.bind (Value.safe_elementAt hs₁ (hc.mono hS₁) hindexed hi) ?_
    rintro v s₂ ⟨rfl, hv⟩
    exact safe_pure ⟨S₁, hS₁, hs₁, hv⟩
  | neg s e ih =>
    intro S₀ S Xs Δ Δ' t s hready hS hs
    obtain ⟨rfl, rfl, he⟩ := hready.neg
    refine Safe.bind (ih.value he hS hs) ?_
    rintro v s₁ ⟨S₁, hS₁, hs₁, hv⟩
    cases hv with
    | int => exact safe_pure ⟨S₁, hS₁, hs₁, .int⟩
  | not s e ih =>
    intro S₀ S Xs Δ Δ' t s hready hS hs
    obtain ⟨rfl, rfl, he⟩ := hready.not
    refine Safe.bind (ih.value he hS hs) ?_
    rintro v s₁ ⟨S₁, hS₁, hs₁, -⟩
    exact safe_pure ⟨S₁, hS₁, hs₁, .bool⟩
  | parens s e ih =>
    intro S₀ S Xs Δ Δ' t s hready hS hs
    obtain ⟨rfl, he⟩ := hready.parens
    exact Safe.bind (ih.value he hS hs) fun v s₁ hv => safe_pure hv
  | binary s op l r ihl ihr =>
    intro S₀ S Xs Δ Δ' t s hready hS hs
    obtain ⟨rfl, u, w, hl, hr, htyped, happlies⟩ := hready.operands
    refine Safe.bind (ihl.value hl hS hs) ?_
    rintro a s₁ ⟨S₁, hS₁, hs₁, ha⟩
    -- The right operand of a connective may not be needed.
    cases hshortcut : op.shortcut? a with
    | some v =>
      exact safe_pure ⟨S₁, hS₁, hs₁, BinOp.hasTy_of_shortcut hshortcut htyped⟩
    | none =>
      refine Safe.bind (ihr.value hr (hS.trans hS₁) hs₁) ?_
      rintro b s₂ ⟨S₂, hS₂, hs₂, hb⟩
      refine Safe.bind (BinOp.safe_combine (ha.mono hS₂) hb htyped (hnumbers.imp_right happlies)) ?_
      rintro v s₃ ⟨rfl, hv⟩
      exact safe_pure ⟨S₂, hS₁.trans hS₂, hs₂, hv⟩
  | call s name args ih =>
    intro S₀ S Xs Δ Δ' t s hready hS hs
    obtain ⟨rfl, us, hargs, hops, hcall⟩ := hready.call
    refine Safe.bind (safe_values ih hargs hops hS hs) ?_
    rintro vs s₁ ⟨S₁, hS₁, hs₁, hvs⟩
    refine Safe.bind (hcalls hcall hs₁ hvs) ?_
    rintro v s₂ ⟨S₂, hS₂, hs₂, hv⟩
    exact safe_pure ⟨S₂, hS₁.trans hS₂, hs₂, hv⟩
  | declare s mutable name value ih =>
    intro S₀ S Xs Δ Δ' t s hready hS hs
    obtain ⟨rfl, u, hvalue, rfl⟩ := hready.declare
    obtain ⟨F, Δ₀, rfl⟩ := hready.framed
    refine Safe.bind (ih.value hvalue hS hs) ?_
    rintro v s₁ ⟨S₁, hS₁, hs₁, hv⟩
    refine Safe.bind (P := fun _ s' => s'.Fits S₁ Xs (Scope.declare (F :: Δ₀) name u))
      (safe_of_run rfl ⟨hs₁.heap, hs₁.scope.declare hv name⟩) ?_
    intro _ s₂ hs₂
    refine Safe.bind (P := fun _ s' => s'.Fits S₁ Xs (Scope.declare (F :: Δ₀) name u))
      (safe_noteValue hs₂.traced) ?_
    intro _ s₃ hs₃
    exact safe_pure ⟨rfl, S₁, hS₁, hs₃⟩
  | assign s name value ih =>
    intro S₀ S Xs Δ Δ' t s hready hS hs
    obtain ⟨rfl, rfl, u, hvalue, hget⟩ := hready.assign
    refine Safe.bind (ih.value hvalue hS hs) ?_
    rintro v s₁ ⟨S₁, hS₁, hs₁, hv⟩
    obtain ⟨sc, hset, hfits⟩ := hs₁.scope.set? hget hv
    refine Safe.bind (P := fun _ s' => s'.Fits S₁ Xs Δ')
      (safe_of_run (run_assign hset) ⟨hs₁.heap, hfits⟩) ?_
    intro _ s₂ hs₂
    exact safe_pure ⟨rfl, S₁, hS₁, hs₂⟩
  | store s target base position value ihp ihv =>
    intro S₀ S Xs Δ Δ' t s hready hS hs
    obtain ⟨rfl, rfl, hposition, u, w, hget, hindexed, hvalue⟩ := hready.store
    obtain ⟨container, hlookup, hc⟩ := hs.scope.get? hget
    refine safe_bind_of_run (run_lookup hlookup) ?_
    refine Safe.bind (ihp.value hposition hS hs) ?_
    rintro i s₁ ⟨S₁, hS₁, hs₁, hi⟩
    refine Safe.bind (ihv.value hvalue (hS.trans hS₁) hs₁) ?_
    rintro v s₂ ⟨S₂, hS₂, hs₂, hv⟩
    refine Safe.bind (Value.safe_storeAt hs₂ hget (hc.mono (hS₁.trans hS₂)) hindexed (hi.mono hS₂)
      hv) ?_
    intro _ s₃ hs₃
    exact safe_pure ⟨rfl, S₂, hS₁.trans hS₂, hs₃⟩
  | branch s cond body otherwise ihc ihb iho =>
    intro S₀ S Xs Δ Δ' t s hready hS hs
    obtain ⟨rfl, rfl, hcond, ⟨us, Δ₁, hbody⟩, ws, Δ₂, hother⟩ := hready.branch
    refine Safe.bind (ihc.value hcond hS hs) ?_
    rintro v s₁ ⟨S₁, hS₁, hs₁, -⟩
    refine Safe.bind (P := fun _ s' => s'.Fits S₁ Xs Δ') (safe_noteValue hs₁.traced) ?_
    intro _ s₂ hs₂
    -- Both branches end alike.
    have hend : ∀ c s', Completion.Sound Γ.result S₀ S₁ Xs Δ' c s' →
        Safe (pure (Effect.completed c)) s' (Effect.Sound Γ.result S₀ S Xs Δ' .unit)
          (State.Leaves Γ.result S₀) B :=
      fun c s' h => safe_pure ⟨rfl, h.imp fun _ => State.Keeps.weaken hS₁⟩
    by_cases hv : v.truth = true
    · rw [if_pos hv]
      exact Safe.bind (safe_inner hready.framed ihb hbody (hS.trans hS₁) hs₂) hend
    · rw [if_neg hv]
      exact Safe.bind (safe_inner hready.framed iho hother (hS.trans hS₁) hs₂) hend
  | forIn s name iterable body ihi ihb =>
    intro S₀ S Xs Δ Δ' t s hready hS hs
    obtain ⟨rfl, rfl, u, w, hiterable, hvisited, hwalk, ⟨us, Δ₁, hbody⟩, hfresh⟩ :=
      hready.rounds hsettled
    refine Safe.bind (ihi.value hiterable hS hs) ?_
    rintro v s₁ ⟨S₁, hS₁, hs₁, hv⟩
    refine Safe.bind (Value.safe_elements hs₁ hv hvisited (hnumbers.imp_right hwalk)) ?_
    rintro items s₂ ⟨rfl, hitems⟩
    rw [hshared]
    refine Safe.bind (safe_forLoop hready.framed ihb hbody hfresh hitems (hS.trans hS₁) hs₁) ?_
    exact fun c s' h => safe_pure ⟨rfl, h.imp fun _ => State.Keeps.weaken hS₁⟩
  | loop s cond body ihc ihb =>
    intro S₀ S Xs Δ Δ' t s hready hS hs
    obtain ⟨rfl, rfl, hcond, us, Δ₁, hbody⟩ := hready.loop
    refine Safe.bind (safe_whileTrue (fun _ _ hS hs => ihc.value hcond hS hs)
      (fun _ _ hS hs => safe_inner hready.framed ihb hbody hS hs) m.rounds hS hs) ?_
    exact fun c s' h => safe_pure ⟨rfl, h⟩
  | returnUnit s =>
    intro S₀ S Xs Δ Δ' t s hready hS hs
    cases hready.typed with
    | returnUnit hresult => exact safe_pure ⟨rfl, S, hS, hs.heap, hresult ▸ .unit⟩
  | returnValue s value ih =>
    intro S₀ S Xs Δ Δ' t s hready hS hs
    obtain ⟨rfl, rfl, hvalue⟩ := hready.returnValue
    refine Safe.bind (ih.value hvalue hS hs) ?_
    rintro v s₁ ⟨S₁, hS₁, hs₁, hv⟩
    exact safe_pure ⟨rfl, S₁, hS.trans hS₁, hs₁.heap, hv⟩

/-- In a regular program every form is safe to run when it is ready. -/
theorem Machine.safeForm (hcalls : m.SoundCalls Γ) (hshared : m.forScope = .shared)
    (hregular : ∀ c e, Seen c e → Regular Γ c e) (e : Expr) : m.SafeForm Γ Seen e :=
  Machine.safeForm_of hcalls hshared (fun c e hseen => (hregular c e hseen).settled)
    (.inr hregular) e

end Scriptlet
