import Scriptlet.Eval.Call
import Scriptlet.Proofs.Eval.Soundness

/-!
# Running regular programs

Calls are sound at every depth: a function is run from the variables that its parameters make, its
body is ready, and it does not end without its result.
-/

namespace Scriptlet

open Run Check

/-! ## Bodies that return -/

namespace Run

variable {α β : Type}

/-- Whenever the run ends with a result, the result is as `P` says. -/
def Only (act : Run α) (P : α → Prop) : Prop := ∀ s a t, act.run s = (.ok a, t) → P a

theorem only_pure {P : α → Prop} {a : α} (h : P a) : Only (pure a) P := by
  rintro s _ t hrun
  cases hrun
  exact h

theorem only_bind {act : Run α} {f : α → Run β} {Q : α → Prop} {P : β → Prop} (hact : act.Only Q)
    (hf : ∀ a, Q a → (f a).Only P) : (act >>= f).Only P := by
  intro s b t hrun
  rcases hfirst : act.run s with ⟨e | a, s₁⟩
  · rw [run_bind_error hfirst] at hrun
    cases hrun
  · rw [run_bind_ok hfirst] at hrun
    exact hf a (hact s a s₁ hfirst) s₁ b t hrun

theorem only_trivial (act : Run α) : act.Only fun _ => True := fun _ _ _ _ => trivial

theorem only_inBlock {act : Run α} {P : α → Prop} (h : act.Only P) : (inBlock act).Only P := by
  intro s a t hrun
  have hfst : (act.run { s with scope := s.scope.push }).1 = .ok a := congrArg Prod.fst hrun
  exact h _ a _ (Prod.ext hfst rfl)

end Run

/-- The statement does not end normally. -/
def Completion.IsReturn (c : Completion) : Prop := ∃ v, c = .returned v

/-- Statements one of which never ends normally do not end normally. -/
theorem Machine.block_returns_of {m : Machine} {es : List Expr}
    (ih : ∀ e ∈ es, e.returns = true →
      (m.step e).Only fun r => ∃ v, r = .completed (.returned v))
    (h : Expr.someReturns es = true) : (m.block es).Only Completion.IsReturn := by
  induction es with
  | nil => cases h
  | cons e es ihes =>
    rcases Bool.or_eq_true_iff.1 h with he | hes
    · refine only_bind (Q := Completion.IsReturn) ?_ ?_
      · refine only_bind (only_trivial _) fun _ _ => ?_
        refine only_bind (ih e List.mem_cons_self he) ?_
        rintro r ⟨v, rfl⟩
        exact only_pure ⟨v, rfl⟩
      · rintro c ⟨v, rfl⟩
        exact only_pure ⟨v, rfl⟩
    · refine only_bind (only_trivial _) fun c _ => ?_
      cases c with
      | normal => exact ihes (fun x hx => ih x (List.mem_cons_of_mem _ hx)) hes
      | returned v => exact only_pure ⟨v, rfl⟩

/-- A statement that returns on every path does not end normally. -/
theorem Machine.step_returns (m : Machine) (e : Expr) : e.returns = true →
    (m.step e).Only fun r => ∃ v, r = .completed (.returned v) := by
  induction e using Expr.induction with
  | returnUnit s =>
    intro _
    exact only_pure ⟨.unit, rfl⟩
  | returnValue s value ih =>
    intro _
    exact only_bind (only_trivial _) fun v _ => only_pure ⟨v, rfl⟩
  | branch s cond body otherwise ihc ihb iho =>
    intro h
    obtain ⟨hbody, hother⟩ := Bool.and_eq_true_iff.1 h
    have hend : ∀ es, (m.block es).Only Completion.IsReturn →
        (do return Effect.completed (← inBlock (m.block es))).Only
          fun r => ∃ v, r = Effect.completed (.returned v) := by
      intro es hes
      refine only_bind (only_inBlock hes) ?_
      rintro c ⟨v, rfl⟩
      exact only_pure ⟨v, rfl⟩
    refine only_bind (only_trivial _) fun c _ => ?_
    refine only_bind (only_trivial _) fun _ _ => ?_
    by_cases hc : c.truth = true
    · rw [if_pos hc]
      exact hend body (Machine.block_returns_of ihb hbody)
    · rw [if_neg hc]
      exact hend otherwise (Machine.block_returns_of iho hother)
  | _ =>
    intro h
    cases h

theorem Machine.block_returns (m : Machine) {es : List Expr} (h : Expr.someReturns es = true) :
    (m.block es).Only Completion.IsReturn :=
  Machine.block_returns_of (fun e _ => m.step_returns e) h

/-! ## Parameters -/

/-- Fresh names are declared one behind the other. -/
theorem Param.foldl_declare {ps : List Param} {F : Frame Value}
    (hfresh : F.Fresh (ps.map Param.name)) (vs : List Value) :
    (ps.zip vs).foldl (fun frame pv => Frame.declare pv.1.name pv.2 frame) F =
      F ++ (ps.zip vs).map fun pv => (pv.1.name, pv.2) := by
  induction ps generalizing vs F with
  | nil => simp
  | cons p ps ih =>
    cases vs with
    | nil => simp
    | cons v vs =>
      rw [List.map_cons, Frame.fresh_cons v] at hfresh
      simp only [List.zip_cons_cons, List.foldl_cons, List.map_cons,
        Frame.declare_of_fresh hfresh.1, ih hfresh.2, List.append_assoc, List.singleton_append]

/-- With distinct names, parameters and arguments are paired one by one. -/
theorem Fun.frame_eq {f : Fun} (hnodup : (f.params.map Param.name).Nodup) (args : List Value) :
    f.frame args = (f.params.zip args).map fun pv => (pv.1.name, pv.2) :=
  Param.foldl_declare (Frame.fresh_empty.2 hnodup) args

/-- A name is an argument's exactly if it is a parameter's, and then the argument has its type. -/
theorem Param.get?_zip {S : List Ty} {ps : List Param} {vs : List Value}
    (h : List.Forall₂ (Value.HasTy S) vs (ps.map fun p => Ty.ofRef p.type)) (x : String) :
    (∀ t, Frame.get? x (ps.map fun p => (p.name, Ty.ofRef p.type)) = some t →
      ∃ v, Frame.get? x ((ps.zip vs).map fun pv => (pv.1.name, pv.2)) = some v ∧ v.HasTy S t) ∧
    (Frame.get? x (ps.map fun p => (p.name, Ty.ofRef p.type)) = none →
      Frame.get? x ((ps.zip vs).map fun pv => (pv.1.name, pv.2)) = none) := by
  induction ps generalizing vs with
  | nil =>
    refine ⟨fun t ht => ?_, fun _ => rfl⟩
    cases ht
  | cons p ps ih =>
    cases h with
    | @cons v _ vs _ hv hvs =>
      by_cases hx : p.name = x
      · refine ⟨fun t ht => ⟨v, ?_⟩, fun hnone => ?_⟩
        · simp only [List.map_cons, Frame.get?, if_pos hx, Option.some_inj] at ht
          simp only [List.zip_cons_cons, List.map_cons, Frame.get?, if_pos hx, true_and]
          exact ht ▸ hv
        · simp [Frame.get?, hx] at hnone
      · simpa only [List.zip_cons_cons, List.map_cons, Frame.get?, if_neg hx] using ih hvs

/-- Arguments of the declared types make variables of those types. -/
theorem Fun.fits_frame {f : Fun} (hnodup : (f.params.map Param.name).Nodup) {S : List Ty}
    {args : List Value}
    (hargs : List.Forall₂ (Value.HasTy S) args (f.params.map fun p => Ty.ofRef p.type)) :
    Scope.Fits S [[]] f.scope [f.frame args] := by
  rw [Fun.frame_eq hnodup]
  refine .cons (fun x t hx => (Param.get?_zip hargs x).1 t hx) ?_ ?_ .nil
  · intro y hG hF
    have hnone := (Param.get?_zip hargs y).2 (by simpa [Frame.has] using hF)
    simp [Frame.has, hnone] at hG
  · intro y hy
    cases hy

/-! ## Functions of a program -/

/-- The signature known for a name is that of the function which the name means. -/
theorem Program.get?_signatures (p : Program) (name : String) :
    p.signatures.get? name = (p.find? name).map Signature.ofFun := by
  rw [Program.signatures, Program.find?]
  induction p.functions with
  | nil => rfl
  | cons f fs ih =>
    by_cases hf : f.name = name
    · simp [Frame.get?, hf]
    · simpa [Frame.get?, hf] using ih

theorem Program.find?_of_signature {p : Program} {name : String} {sig : Signature}
    (h : p.signatures.get? name = some sig) :
    ∃ f, p.find? name = some f ∧ sig = Signature.ofFun f := by
  rw [Program.get?_signatures, Option.map_eq_some_iff] at h
  obtain ⟨f, hf, rfl⟩ := h
  exact ⟨f, hf, rfl⟩

/-- The body of a function is ready. -/
theorem Program.WellTyped.ready_body {p : Program} (h : p.WellTyped) {trace : Trace}
    (hsettled : p.Settled trace) {f : Fun} (hf : f ∈ p.functions) :
    ∃ ts Δ', ReadyAll (contextOf p.signatures f) (p.Visits trace f) f.scope f.body ts Δ' := by
  obtain ⟨-, ts, Δ', hts⟩ := h.2.2 f hf
  obtain ⟨before, rest, hfunctions⟩ := List.append_of_mem hf
  obtain ⟨c₀, hscope, hstart, -⟩ := h.body_start trace hfunctions
  refine ⟨ts, Δ', ⟨_, _, rfl⟩, hts, Expr.areTidy_iff.1 (hsettled.tidy f hf), c₀, hscope, ?_⟩
  intro es e es' hbody c' e' hvisits
  exact .body (h.run_signatures trace) hfunctions hbody (by rwa [hstart])

/-- The value of a call from how the body of the function ends. -/
theorem safe_resultOf {body : Run Completion} {result : Ty} {S : List Ty} {N : State → Prop}
    {s : State} {R : Value → State → Prop} {B : Breach → Prop}
    (hbody : Safe body s (Completion.Ends result S N) (State.Leaves result S) B)
    (hnormal : ∀ s', N s' → ∃ S', S <+: S' ∧ s'.heap.Typed S')
    (hreturns : result ≠ .unit → body.Only Completion.IsReturn) :
    Safe (resultOf body) s (State.Leaves result S) R B := by
  have hrun : (resultOf body).run s = resultOf body s := rfl
  unfold Safe at hbody ⊢
  rw [hrun]
  unfold resultOf
  rcases hend : body.run s with ⟨stop | completion, t⟩ <;> rw [hend] at hbody
  · cases stop with
    | returned v => exact hbody
    | fault | tooDeep | outOfRounds | overlong | unprintable | untraceable => trivial
    | breach | unitOrder | rangeEnd | noPlace => exact hbody
  · cases completion with
    | returned v => exact hbody
    | normal =>
      by_cases hunit : result = .unit
      · obtain ⟨S', hS', hheap⟩ := hnormal t hbody
        exact ⟨S', hS', hheap, hunit ▸ .unit⟩
      · obtain ⟨v, hv⟩ := hreturns hunit s .normal t hend
        cases hv

section

variable {p : Program} {trace : Trace} {o : Settings} {S : List Ty} {Xs : List (List String)}
  {Δ : Scope Ty} {s : State} {R : Value → State → Prop} {B : Breach → Prop}

theorem safe_noteCall {what : String} {args : List Value} (hs : s.Fits S Xs Δ) :
    Safe (noteCall what args) s (fun _ s' => s'.Fits S Xs Δ) R B := by
  refine Safe.bind (P := fun _ s' => s' = s) (safe_of_run rfl rfl) ?_
  rintro keeps s₁ rfl
  cases keeps with
  | false => exact safe_pure hs
  | true =>
    refine Safe.bind (P := fun _ s' => s' = s₁) (safe_textsOf fun _ => rfl) ?_
    rintro texts _ rfl
    exact safe_noteText hs.traced

/-- What is known of the runs of functions of a program. -/
def Program.SoundInvoke (p : Program) (user : Fun → List Value → Run Value)
    (B : Breach → Prop) : Prop :=
  ∀ ⦃f : Fun⦄ ⦃vs : List Value⦄ ⦃S : List Ty⦄ ⦃Xs : List (List String)⦄ ⦃Δ : Scope Ty⦄
    ⦃s : State⦄ ⦃R : Value → State → Prop⦄, f ∈ p.functions → s.Fits S Xs Δ →
    List.Forall₂ (Value.HasTy S) vs (f.params.map fun p => Ty.ofRef p.type) →
    Safe (user f vs) s (State.Gives S Xs Δ (Ty.ofRef? f.result)) R B

/-- Calls are sound if runs of functions are. -/
theorem Program.safe_dispatch {user : Fun → List Value → Run Value} (huser : p.SoundInvoke user B)
    {Γ : Context} (hΓ : Γ.signatures = p.signatures) {name : String} {vs : List Value}
    {ts : List Ty} {t : Ty} (hcall : Γ.Calls name ts t) (hs : s.Fits S Xs Δ)
    (hvs : List.Forall₂ (Value.HasTy S) vs ts) :
    Safe (p.dispatch user name vs) s (State.Gives S Xs Δ t) R B := by
  cases hcall with
  | builtin hname hb =>
    rw [Program.dispatch, hname]
    exact Safe.bind (safe_noteCall hs) fun _ s₁ hs₁ => Builtin.safe_apply hs₁ hb hvs
  | user hname hsig =>
    obtain ⟨f, hfind, rfl⟩ := Program.find?_of_signature (hΓ ▸ hsig)
    simp only [Program.dispatch, hname, hfind]
    refine Safe.bind (safe_noteCall hs) fun _ s₁ hs₁ => ?_
    refine Safe.bind (huser (List.mem_of_find?_eq_some hfind) hs₁ hvs) ?_
    rintro v s₂ ⟨S₂, hS₂, hs₂, hv⟩
    refine Safe.bind (P := fun _ s' => s'.Fits S₂ Xs Δ) (safe_noteValue hs₂.traced) ?_
    exact fun _ s₃ hs₃ => safe_pure ⟨S₂, hS₂, hs₃, hv⟩

/-- Runs of functions are sound at every depth, where it is tolerated that no numbers are found or the
program is regular. -/
theorem Program.soundInvoke (h : p.WellTyped) (hsettled : p.Settled trace)
    (hnumbers : (∀ kind, B (.notAnInt kind)) ∨ p.Regular trace)
    (hshared : o.forScope = .shared) (depth : Nat) : p.SoundInvoke (p.invoke o depth) B := by
  induction depth with
  | zero =>
    intro f vs S Xs Δ s R _ _ _
    trivial
  | succ depth ih =>
    intro f vs S Xs Δ s R hf hs hvs
    obtain ⟨ts, Δ', hready⟩ := h.ready_body hsettled hf
    have hcalls : Machine.SoundCalls ⟨p.dispatch (p.invoke o depth), o.rounds, o.forScope⟩
        (contextOf p.signatures f) B :=
      fun name vs ts t S Xs Δ s R hcall hs hvs => Program.safe_dispatch ih rfl hcall hs hvs
    have hstart : State.Fits S [[]] f.scope { s with scope := [f.frame vs] } :=
      ⟨hs.heap, Fun.fits_frame (h.2.2 f hf).1 hvs⟩
    have hbody := safe_block (fun e _ => Machine.safeForm_of hcalls hshared
      (fun c e => hsettled.forms f c e) (hnumbers.imp_right fun hregular => hregular.forms f) e)
      hready List.prefix_rfl hstart
    refine safe_inCall ((safe_resultOf hbody ?_ ?_).imp ?_ fun _ _ h => h)
    · rintro s' ⟨S', hS', hs'⟩
      exact ⟨S', hS', hs'.heap⟩
    · intro hresult
      exact Machine.block_returns _ (hsettled.returns f hf hresult)
    · rintro v s' ⟨S', hS', hheap, hv⟩
      exact ⟨S', hS', ⟨hheap, hs.scope.mono hS'⟩, hv⟩

/-- Calls in a regular program are sound at every depth. -/
theorem Program.soundCalls (h : p.WellTyped) (hregular : p.Regular trace)
    (hshared : o.forScope = .shared) (depth : Nat) {Γ : Context}
    (hΓ : Γ.signatures = p.signatures) :
    Machine.SoundCalls ⟨p.dispatch (p.invoke o depth), o.rounds, o.forScope⟩ Γ :=
  fun _ _ _ _ _ _ _ _ _ hcall hs hvs =>
    Program.safe_dispatch (Program.soundInvoke h hregular.settled (.inr hregular) hshared depth) hΓ
      hcall hs hvs

/-- A program obeying the rules has one function to start with, which takes no arguments. -/
theorem Program.WellTyped.main (h : p.WellTyped) :
    ∃ main, p.find? "main" = some main ∧ main.params = [] := by
  obtain ⟨main, hmain, hname, hparams⟩ := h.2.1
  exact ⟨main, hname ▸ Check.find?_eq_some_of_nodup h.1 hmain, hparams⟩

/-- A run gives a value of the type that the main function declares. -/
theorem Program.safe_run_of (h : p.WellTyped) (hsettled : p.Settled trace)
    (hnumbers : (∀ kind, B (.notAnInt kind)) ∨ p.Regular trace)
    (hshared : o.forScope = .shared) {main : Fun} (hmain : p.find? "main" = some main)
    (hs : s.Fits S Xs Δ) :
    Safe (p.run o) s (State.Gives S Xs Δ (Ty.ofRef? main.result)) (fun _ _ => False) B := by
  obtain ⟨f, hfind, hparams⟩ := h.main
  obtain rfl := Option.some.inj (hmain.symm.trans hfind)
  have hcall : Context.Calls { signatures := p.signatures } "main" (Signature.ofFun main).params
      (Ty.ofRef? main.result) :=
    .user rfl (by rw [Program.get?_signatures, hmain, Option.map_some])
  rw [Signature.ofFun, hparams] at hcall
  refine Safe.bind (P := fun _ s' => s'.Fits S Xs Δ) (safe_note (hs.note _ _)) fun _ s₁ hs₁ => ?_
  refine Safe.bind (Program.safe_dispatch
    (Program.soundInvoke h hsettled hnumbers hshared o.calls) rfl hcall hs₁ .nil) ?_
  rintro v s₂ ⟨S₂, hS₂, hs₂, hv⟩
  refine Safe.bind (P := fun _ s' => s'.Fits S₂ Xs Δ) (safe_note (hs₂.note _ _)) ?_
  exact fun _ s₃ hs₃ => safe_pure ⟨S₂, hS₂, hs₃, hv⟩

/-- A run of a regular program gives a value of the type that its main function declares. -/
theorem Program.safe_run (h : p.WellTyped) (hregular : p.Regular trace)
    (hshared : o.forScope = .shared) {main : Fun} (hmain : p.find? "main" = some main)
    (hs : s.Fits S Xs Δ) :
    Safe (p.run o) s (State.Gives S Xs Δ (Ty.ofRef? main.result)) fun _ _ => False :=
  Program.safe_run_of h hregular.settled (.inr hregular) hshared hmain hs

end

end Scriptlet
