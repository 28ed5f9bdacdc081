import Scriptlet.Proofs.Eval.Reach
import Scriptlet.Proofs.Scoping.SideBySide

/-!
# Programs, run side by side

A call runs a body with nothing but the parameters in scope and gives the variables of the caller
back, so runs side by side are the same run outside of the call.  By induction on how deep calls are
nested, a program whose names are not stale runs alike whichever scope its loops have.
-/

namespace Scriptlet

open Run

/-- The name is that of a built-in function, or of a function of the program with so many
parameters. -/
def Program.Takes (p : Program) (name : String) (count : Nat) : Prop :=
  (∃ b, Builtin.ofName? name = some b) ∨ ∃ f, p.find? name = some f ∧ f.params.length = count

/-- What is known of the frame of a function at the start of a call: its parameters are bound. -/
def Fun.outline (f : Fun) : Outline := .ofNames (f.params.map Param.name)

/-- Whether `ok` holds of every name that is used in a program. -/
def Program.uses (ok : List Outline → String → Bool) (p : Program) : Bool :=
  p.functions.all fun f => Expr.usesAll ok [] f.outline f.body

theorem Program.usesAll_body {ok : List Outline → String → Bool} {p : Program}
    (h : p.uses ok = true) {f : Fun} (hf : f ∈ p.functions) :
    Expr.usesAll ok [] f.outline f.body = true :=
  List.all_eq_true.1 h f hf

/-! ## Calls that the rules admit -/

theorem HasTypes.length_eq {Γ : Context} {Δ Δ' : Scope Ty} {es : List Expr} {ts : List Ty}
    (h : HasTypes Γ Δ es ts Δ') : ts.length = es.length := by
  induction es generalizing Δ ts with
  | nil =>
    cases h
    rfl
  | cons e es ih =>
    cases h with
    | cons _ hes => rw [List.length_cons, List.length_cons, ih hes]

/-- In a program that obeys the rules every call finds a function, and with the right number of
arguments. -/
theorem Program.WellTyped.callsKnown {p : Program} (h : p.WellTyped) {f : Fun}
    (hf : f ∈ p.functions) {e : Expr} (he : e ∈ f.body) : e.CallsKnown p.Takes := by
  intro span name args hwithin
  obtain ⟨before, rest, hfunctions⟩ := List.append_of_mem hf
  obtain ⟨es, es', hbody⟩ := List.append_of_mem he
  obtain ⟨-, hfine⟩ := h.fine_statement (h.run_signatures ⟨0, #[]⟩) hfunctions hbody
  obtain ⟨c, hvisits⟩ := Check.exists_visits_of_within hfine hwithin
  obtain ⟨t, -, ⟨Δ', htyped⟩, -⟩ := Check.unique_type_of_fine (Check.fine_of_visits hfine hvisits)
  cases htyped with
  | call hargs hcall =>
    cases hcall with
    | builtin hname _ => exact .inl ⟨_, hname⟩
    | user _ hsig =>
      obtain ⟨g, hfind, rfl⟩ := Program.find?_of_signature hsig
      refine .inr ⟨g, hfind, ?_⟩
      rw [← hargs.length_eq, Signature.ofFun, List.length_map]

/-! ## Parameters -/

/-- With an argument for each parameter, the names in the frame are those of the parameters. -/
theorem Param.get?_zip_ne_none {ps : List Param} {vs : List Value} (h : vs.length = ps.length)
    (x : String) :
    Frame.get? x ((ps.zip vs).map fun pv => (pv.1.name, pv.2)) ≠ none ↔ x ∈ ps.map Param.name := by
  induction ps generalizing vs with
  | nil => simp [Frame.get?]
  | cons p ps ih =>
    cases vs with
    | nil => cases h
    | cons v vs =>
      have hrest := ih (Nat.succ.inj h)
      rw [List.zip_cons_cons, List.map_cons, List.map_cons, List.mem_cons, Frame.get?]
      by_cases hx : p.name = x
      · simp [hx]
      · simpa [hx, Ne.symm hx] using hrest

theorem Fun.alike_frame {f : Fun} (hnodup : (f.params.map Param.name).Nodup) {vs : List Value}
    (hvs : vs.length = f.params.length) (strict : Bool) :
    Frame.Alike strict f.outline (f.frame vs) (f.frame vs) := by
  intro x
  have hiff := Param.get?_zip_ne_none hvs x
  rw [← Fun.frame_eq hnodup] at hiff
  rw [Fun.outline, Outline.ofNames]
  by_cases hx : x ∈ f.params.map Param.name
  · rw [if_pos hx]
    exact ⟨rfl, hiff.2 hx⟩
  · have hnone : (f.frame vs).get? x = none := not_not.1 fun hne => hx (hiff.1 hne)
    rw [if_neg hx]
    exact ⟨hnone, hnone⟩

/-! ## Calls -/

section

variable {strict : Bool} {ok : List Outline → String → Bool} {E : Stop → Prop} {p : Program}
  {o o' : Settings}

/-- What a body leaves to the call is its value; the variables are gone. -/
theorem Run.twin_resultOf {body body' : Run Completion} {M : List Outline} {s s' : State}
    (h : Twin E body body' s s' (Completion.Meets strict M)) :
    Twin E (resultOf body) (resultOf body') s s' fun _ t t' => t.Beside t' := by
  have hrun : ∀ {act : Run Completion} {u : State}, (resultOf act).run u = resultOf act u :=
    fun {_ _} => rfl
  rcases h with ⟨c, t, t', hact, hact', hc⟩ | ⟨e, t, t', hact, hact', hE, hbeside⟩
  · cases c with
    | normal =>
      refine .inl ⟨.unit, t, t', ?_, ?_, hc.beside⟩
      · rw [hrun, resultOf, hact]
      · rw [hrun, resultOf, hact']
    | returned v =>
      refine .inl ⟨v, t, t', ?_, ?_, hc⟩
      · rw [hrun, resultOf, hact]
      · rw [hrun, resultOf, hact']
  · cases e with
    | returned v =>
      refine .inl ⟨v, t, t', ?_, ?_, hbeside⟩
      · rw [hrun, resultOf, hact]
      · rw [hrun, resultOf, hact']
    | _ =>
      refine .inr ⟨_, t, t', ?_, ?_, hE, hbeside⟩
      · rw [hrun, resultOf, hact]
      · rw [hrun, resultOf, hact']

/-- A call of runs that go side by side is one and the same, and leaves the variables of the caller
alone. -/
theorem Run.inCall_eq {act act' : Run Value} {frame : Frame Value}
    (h : ∀ s : State, Twin E act act' { s with scope := [frame] } { s with scope := [frame] }
      fun _ t t' => t.Beside t') :
    inCall frame act' = inCall frame act ∧ Blind E (inCall frame act) := by
  refine ⟨?_, fun _ _ => rfl, ?_⟩
  · funext s
    show ((act'.run { s with scope := [frame] }).1,
        { (act'.run { s with scope := [frame] }).2 with scope := s.scope }) =
      ((act.run { s with scope := [frame] }).1,
        { (act.run { s with scope := [frame] }).2 with scope := s.scope })
    rcases h s with ⟨v, t, t', hact, hact', hbeside⟩ | ⟨e, t, t', hact, hact', -, hbeside⟩ <;>
      rw [hact, hact', hbeside.eq]
  · intro s e t hrun
    have hfst : (act.run { s with scope := [frame] }).1 = .error e := congrArg Prod.fst hrun
    rcases h s with ⟨v, u, u', hact, -⟩ | ⟨e', u, u', hact, -, hE, -⟩ <;> rw [hact] at hfst
    · cases hfst
    · exact Except.error.inj hfst ▸ hE

/-- Runs of functions that go alike whatever settings they have. -/
def Program.SameInvoke (E : Stop → Prop) (p : Program) (user user' : Fun → List Value → Run Value) :
    Prop :=
  ∀ f ∈ p.functions, ∀ vs : List Value, vs.length = f.params.length →
    user' f vs = user f vs ∧ Blind E (user f vs)

theorem Program.dispatch_eq {user user' : Fun → List Value → Run Value}
    (hE : ∀ e : Stop, e.KnowsNames → E e) (huser : p.SameInvoke E user user') {name : String}
    {vs : List Value} (hname : p.Takes name vs.length) :
    p.dispatch user' name vs = p.dispatch user name vs ∧ Blind E (p.dispatch user name vs) := by
  unfold Program.dispatch
  cases hbuiltin : Builtin.ofName? name with
  | some b =>
    exact ⟨rfl, ((blind_noteCall _ _).imp hE).bind fun _ => (b.blind_apply vs).imp hE⟩
  | none =>
    obtain ⟨b, hb⟩ | ⟨f, hfind, hparams⟩ := hname
    · cases hbuiltin.symm.trans hb
    · obtain ⟨heq, hblind⟩ := huser f (List.mem_of_find?_eq_some hfind) vs hparams.symm
      simp only [hfind, heq]
      refine ⟨trivial, ((blind_noteCall _ _).imp hE).bind fun _ => hblind.bind fun v => ?_⟩
      exact ((blind_noteValue _ _ v).imp hE).bind fun _ => blind_pure _

/-- Settings that differ at most in the scope of loops. -/
structure Settings.Pair (strict : Bool) (o o' : Settings) : Prop where
  calls : o'.calls = o.calls
  rounds : o'.rounds = o.rounds
  shared : o.forScope = .shared
  other : o'.forScope = if strict then .shared else .fresh

/-- Machines whose calls go alike. -/
theorem Settings.Pair.machines (ho : o.Pair strict o') (hE : ∀ e : Stop, e.KnowsNames → E e)
    {depth : Nat} (huser : p.SameInvoke E (p.invoke o depth) (p.invoke o' depth)) :
    Machine.Pair strict E p.Takes (p.machineAt o depth) (p.machineAt o' depth) :=
  ⟨ho.rounds, ho.shared, ho.other, fun hname => Program.dispatch_eq hE huser hname⟩

/-- Runs of functions go alike at every depth. -/
theorem Program.sameInvoke (h : p.WellTyped) (hr : Regime strict ok E) (huses : p.uses ok = true)
    (ho : o.Pair strict o') (depth : Nat) :
    p.SameInvoke E (p.invoke o depth) (p.invoke o' depth) := by
  induction depth with
  | zero => exact fun f _ vs _ => ⟨rfl, blind_throw (hr.admits _ trivial)⟩
  | succ depth ih =>
    intro f hf vs hvs
    have hm := ho.machines hr.admits ih
    -- A call starts with the same frame in both runs.
    have hframe := Fun.alike_frame (h.2.2 f hf).1 hvs strict
    exact Run.inCall_eq fun s => twin_resultOf (Machine.twin_block (fun e _ => hm.sideBySide hr e)
      (Program.usesAll_body huses hf) (fun e he => h.callsKnown hf he)
      ⟨.refl _, .cons hframe .nil⟩)

/-- A program runs alike whatever scope its loops have, and stops only for reasons that `E`
admits. -/
theorem Program.run_eq (h : p.WellTyped) (hr : Regime strict ok E) (huses : p.uses ok = true)
    (ho : o.Pair strict o') : p.run o' = p.run o ∧ Blind E (p.run o) := by
  obtain ⟨main, hmain, hparams⟩ := h.main
  have htakes : p.Takes "main" ([] : List Value).length := .inr ⟨main, hmain, by simp [hparams]⟩
  obtain ⟨heq, hblind⟩ := Program.dispatch_eq hr.admits
    (Program.sameInvoke h hr huses ho o.calls) htakes
  refine ⟨?_, (blind_note _ _).bind fun _ => hblind.bind fun _ =>
    (blind_note _ _).bind fun _ => blind_pure _⟩
  simp only [Program.run, Program.call, ho.calls, heq]

end

end Scriptlet
