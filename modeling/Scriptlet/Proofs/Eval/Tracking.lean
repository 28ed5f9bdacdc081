import Scriptlet.Proofs.Eval.Lockstep
import Scriptlet.Proofs.Syntax.Induction

/-!
# Runs that track others

A run tracks another one if it is in lockstep with it, unless it stops for a reason that counts as an
excuse.  So a run with smaller bounds tracks one with larger bounds until it comes to a bound, and a
run that writes more to its trace tracks one that writes less until there is something that cannot
be written.  An excuse depends on the reason to stop and on the arrays at that time.

Runs in lockstep track each other, so only how runs are put together is to be shown anew.
-/

namespace Scriptlet

/-- Reasons to stop, with the arrays that are there at the stop. -/
abbrev Excuses := Stop → Heap → Prop

/-- A `return` is no excuse: it is caught by the call around it. -/
class Excuses.Final (X : Excuses) : Prop where
  not_returned (v : Value) (m : Heap) : ¬ X (.returned v) m

/-- The second bound is the same, or it is smaller and coming to it is excused. -/
def Excuses.Bounds (X : Excuses) (stop : Stop) (n n' : Nat) : Prop :=
  n' = n ∨ n' ≤ n ∧ ∀ m, X stop m

/-- Where a smaller bound is not used up, neither is the larger one. -/
theorem Excuses.Bounds.exists_succ {X : Excuses} {stop : Stop} {n n' : Nat}
    (h : X.Bounds stop n (n' + 1)) : ∃ k, n = k + 1 ∧ X.Bounds stop k n' := by
  rcases h with rfl | ⟨hle, hexcused⟩
  · exact ⟨n', rfl, .inl rfl⟩
  · exact ⟨n - 1, by omega, .inr ⟨by omega, hexcused⟩⟩

namespace Run

variable {α β : Type} {T : Trace → Trace → Prop} {X : Excuses}

/-- The run stopped with an excuse. -/
def Excused (X : Excuses) (r : Except Stop α × State) : Prop :=
  ∃ stop, r.1 = .error stop ∧ X stop r.2.heap

/-- From states that are equal but for their traces, the second run ends as the first one, in a state
that is equal but for its trace, unless it stops with an excuse. -/
def Tracks (T : Trace → Trace → Prop) (X : Excuses) (act act' : Run α) : Prop :=
  ∀ ⦃s s' : State⦄, s.Linked T s' → Excused X (act'.run s') ∨
    (act'.run s').1 = (act.run s).1 ∧ (act.run s).2.Linked T (act'.run s').2

/-! ## Runs in general -/

theorem Lockstep.tracks {act act' : Run α} (h : Lockstep T act act') : Tracks T X act act' :=
  fun _ _ hs => .inr (h hs)

/-- A run that only stops with an excuse tracks any run. -/
theorem tracks_throw_excused {act : Run α} {stop : Stop} (h : ∀ m, X stop m) :
    Tracks T X act (throw stop) :=
  fun _ s' _ => .inl ⟨stop, rfl, h s'.heap⟩

/-- One pair of runs after the other. -/
theorem Tracks.bind {act act' : Run α} {f f' : α → Run β} (h : Tracks T X act act')
    (hf : ∀ a, Tracks T X (f a) (f' a)) : Tracks T X (act >>= f) (act' >>= f') := by
  intro s s' hs
  rcases h hs with ⟨stop, hstop, hX⟩ | ⟨hresult, hlinked⟩
  · -- What excuses the first part excuses the whole, which stops there.
    have hrun' : act'.run s' = (.error stop, (act'.run s').2) := Prod.ext hstop rfl
    refine .inl ⟨stop, ?_, ?_⟩ <;> rw [run_bind_error hrun']
    exact hX
  · rcases hrun : act.run s with ⟨e | a, t⟩ <;> rcases hrun' : act'.run s' with ⟨e' | a', t'⟩ <;>
      rw [hrun, hrun'] at hresult hlinked
    · obtain rfl := Except.error.inj hresult
      rw [run_bind_error hrun, run_bind_error hrun']
      exact .inr ⟨rfl, hlinked⟩
    · cases hresult
    · cases hresult
    · obtain rfl := Except.ok.inj hresult
      rw [run_bind_ok hrun, run_bind_ok hrun']
      exact hf a' hlinked

theorem Tracks.inBlock {act act' : Run α} (h : Tracks T X act act') :
    Tracks T X (inBlock act) (inBlock act') := by
  intro s s' hs
  rcases h (hs.scope Scope.push) with hexcused | ⟨hresult, hlinked⟩
  · exact .inl hexcused
  · exact .inr ⟨hresult, hlinked.scope Scope.pop⟩

theorem Tracks.inCall {act act' : Run α} (h : Tracks T X act act') (frame : Frame Value) :
    Tracks T X (inCall frame act) (inCall frame act') := by
  intro s s' hs
  have hscope : s'.scope = s.scope := by rw [hs.same]
  rcases h (hs.scope fun _ => [frame]) with hexcused | ⟨hresult, hlinked⟩
  · exact .inl hexcused
  · refine .inr ⟨hresult, ?_⟩
    show State.Linked T { (act.run { s with scope := [frame] }).2 with scope := s.scope }
      { (act'.run { s' with scope := [frame] }).2 with scope := s'.scope }
    rw [hscope]
    exact hlinked.scope fun _ => s.scope

/-- The call catches a `return` and lets every excuse pass. -/
theorem Tracks.resultOf [final : X.Final] {body body' : Run Completion}
    (h : Tracks T X body body') : Tracks T X (resultOf body) (resultOf body') := by
  intro s s' hs
  have hrun : ∀ (b : Run Completion) (u : State), (Run.resultOf b).run u = Run.resultOf b u :=
    fun _ _ => rfl
  rw [hrun, hrun, Run.resultOf, Run.resultOf]
  rcases h hs with ⟨stop, hstop, hX⟩ | ⟨hresult, hlinked⟩
  · rcases hbody' : body'.run s' with ⟨e' | c', t'⟩ <;> rw [hbody'] at hstop hX
    · obtain rfl := Except.error.inj hstop
      -- The one reason that does not pass is no excuse.
      cases e' with
      | returned v => exact absurd hX (final.not_returned v _)
      | _ => exact .inl ⟨_, rfl, hX⟩
    · cases hstop
  · rcases hbody : body.run s with ⟨e | c, t⟩ <;>
      rcases hbody' : body'.run s' with ⟨e' | c', t'⟩ <;> rw [hbody, hbody'] at hresult hlinked
    · obtain rfl := Except.error.inj hresult
      cases e' <;> exact .inr ⟨rfl, hlinked⟩
    · cases hresult
    · cases hresult
    · obtain rfl := Except.ok.inj hresult
      cases c' <;> exact .inr ⟨rfl, hlinked⟩

/-- What is noted is tracked: a text or a call is refused by both traces or by none, or that the second
one refuses it is an excuse. -/
class TracksNotes (T : Trace → Trace → Prop) (X : Excuses) : Prop where
  text (level : Nat) (text : CodeText) : Tracks T X (noteText level text) (noteText level text)
  call (what : String) (args : List Value) : Tracks T X (noteCall what args) (noteCall what args)

instance [Trace.SameLevels T] : TracksNotes T X where
  text level text := (lockstep_noteText level text).tracks
  call what args := (lockstep_noteCall what args).tracks

/-! ## Statements and loops -/

section

variable [Trace.Link T]

theorem lockstep_announceStatement (e : Expr) :
    Lockstep T (announceStatement e) (announceStatement e) := by
  rw [announceStatement]
  split
  · exact lockstep_note _ _
  · exact lockstep_pure _

theorem Tracks.asValue {act act' : Run Effect} (h : Tracks T X act act') (e : Expr) :
    Tracks T X (asValue e act) (asValue e act') := by
  refine (lockstep_announceStatement e).tracks.bind fun _ => h.bind fun effect => ?_
  rcases effect with v | _ | v
  · exact (lockstep_pure v).tracks
  · exact (lockstep_pure _).tracks
  · exact (lockstep_throw _).tracks

theorem Tracks.asStatement {act act' : Run Effect} (h : Tracks T X act act') (e : Expr) :
    Tracks T X (asStatement e act) (asStatement e act') := by
  refine (lockstep_note _ _).tracks.bind fun _ => h.bind fun effect => ?_
  rcases effect with v | c
  · exact (lockstep_pure _).tracks
  · exact (lockstep_pure c).tracks

omit [Trace.Link T] in
theorem Tracks.andThen {first first' second second' : Run Completion}
    (h : Tracks T X first first') (h' : Tracks T X second second') :
    Tracks T X (andThen first second) (andThen first' second') := by
  refine h.bind fun c => ?_
  cases c with
  | normal => exact h'
  | returned v => exact (lockstep_pure _).tracks

theorem tracks_whileTrue {cond cond' : Run Value} {body body' : Run Completion}
    (hcond : Tracks T X cond cond') (hbody : Tracks T X body body') {rounds rounds' : Nat}
    (hrounds : X.Bounds .outOfRounds rounds rounds') :
    Tracks T X (whileTrue cond body rounds) (whileTrue cond' body' rounds') := by
  -- By the smaller bound: where it is used up, the larger one may go on.
  induction rounds' generalizing rounds with
  | zero =>
    rcases hrounds with rfl | ⟨-, hexcused⟩
    · exact (lockstep_throw _).tracks
    · exact tracks_throw_excused hexcused
  | succ rounds' ih =>
    obtain ⟨k, rfl, hk⟩ := hrounds.exists_succ
    refine hcond.bind fun v => ?_
    split
    · exact (lockstep_note _ _).tracks.bind fun _ => hbody.inBlock.andThen (ih hk)
    · exact (lockstep_pure _).tracks

omit [Trace.Link T] in
theorem tracks_eachValue {body body' : Value → Run Completion}
    (hbody : ∀ v, Tracks T X (body v) (body' v)) (vs : List Value) :
    Tracks T X (eachValue body vs) (eachValue body' vs) := by
  induction vs with
  | nil => exact (lockstep_pure _).tracks
  | cons v vs ih => exact (hbody v).andThen ih

omit [Trace.Link T] in
theorem tracks_noteValue [notes : TracksNotes T X] (level : Nat) (label : String) (v : Value) :
    Tracks T X (noteValue level label v) (noteValue level label v) :=
  (lockstep_textOf v).tracks.bind fun _ => notes.text _ _

omit [Trace.Link T] in
theorem tracks_forLoop [TracksNotes T X] {body body' : Run Completion} (hbody : Tracks T X body body')
    (scope : ForScope) (name : String) (items : Items) :
    Tracks T X (forLoop scope name body items) (forLoop scope name body' items) := by
  have hround : ∀ v, Tracks T X (roundFor name body v) (roundFor name body' v) := fun v =>
    (tracks_noteValue _ _ v).bind fun _ => (lockstep_declare name v).tracks.bind fun _ => hbody
  -- Both loops visit the same elements, fixed when they start.
  cases scope with
  | shared =>
    rw [forLoop, forLoop, each_eq, each_eq]
    exact (tracks_eachValue hround items.toList).inBlock
  | fresh =>
    rw [forLoop, forLoop, each_eq, each_eq]
    exact tracks_eachValue (fun v => (hround v).inBlock) items.toList

end

end Run

open Run

/-! ## Forms -/

namespace Machine

variable {T : Trace → Trace → Prop} {X : Excuses} {m m' : Machine}

/-- The calls of the second machine track those of the first one, and so do its loops. -/
structure Tracks (T : Trace → Trace → Prop) (X : Excuses) (m m' : Machine) : Prop where
  rounds : X.Bounds .outOfRounds m.rounds m'.rounds
  forScope : m'.forScope = m.forScope
  call : ∀ name vs, Run.Tracks T X (m.call name vs) (m'.call name vs)

variable [Trace.Link T]

theorem tracks_values {es : List Expr} (h : ∀ e ∈ es, Run.Tracks T X (m.step e) (m'.step e)) :
    Run.Tracks T X (m.values es) (m'.values es) := by
  induction es with
  | nil => exact (lockstep_pure _).tracks
  | cons e es ih =>
    obtain ⟨he, hes⟩ := List.forall_mem_cons.1 h
    exact (he.asValue e).bind fun _ => (ih hes).bind fun _ => (lockstep_pure _).tracks

theorem tracks_block {es : List Expr} (h : ∀ e ∈ es, Run.Tracks T X (m.step e) (m'.step e)) :
    Run.Tracks T X (m.block es) (m'.block es) := by
  induction es with
  | nil => exact (lockstep_pure _).tracks
  | cons e es ih =>
    obtain ⟨he, hes⟩ := List.forall_mem_cons.1 h
    exact (he.asStatement e).andThen (ih hes)

/-- The forms of one machine track those of the other if its calls do. -/
theorem Tracks.step [Run.TracksNotes T X] (hm : Tracks T X m m') (e : Expr) :
    Run.Tracks T X (m.step e) (m'.step e) := by
  -- only notes need more than lockstep, so a step that notes nothing is passed on as it is
  induction e using Expr.induction with
  | int | bool | char | str | returnUnit => exact (lockstep_pure _).tracks
  | var span name => exact ((lockstep_lookup name).bind fun _ => lockstep_pure _).tracks
  | index span base position ih =>
    exact (lockstep_lookup base.text).tracks.bind fun container =>
      (ih.asValue position).bind fun i =>
        ((container.lockstep_elementAt i).bind fun _ => lockstep_pure _).tracks
  | neg span e ih =>
    exact (ih.asValue e).bind fun v => ((lockstep_expectInt v).bind fun _ => lockstep_pure _).tracks
  | not span e ih | parens span e ih | returnValue span e ih =>
    exact (ih.asValue e).bind fun _ => (lockstep_pure _).tracks
  | binary span op l r ihl ihr =>
    refine (ihl.asValue l).bind fun a => ?_
    cases op.shortcut? a with
    | some v => exact (lockstep_pure _).tracks
    | none =>
      exact (ihr.asValue r).bind fun b =>
        ((op.lockstep_combine a b).bind fun _ => lockstep_pure _).tracks
  | declare span mutable name value ih =>
    exact (ih.asValue value).bind fun v => (lockstep_declare name v).tracks.bind fun _ =>
      (tracks_noteValue _ _ v).bind fun _ => (lockstep_pure _).tracks
  | assign span name value ih =>
    exact (ih.asValue value).bind fun v =>
      ((lockstep_assign name v).bind fun _ => lockstep_pure _).tracks
  | call span name args ih =>
    exact (tracks_values ih).bind fun vs => (hm.call name vs).bind fun _ =>
      (lockstep_pure _).tracks
  | store span target base position value ihp ihv =>
    exact (lockstep_lookup base.text).tracks.bind fun container =>
      (ihp.asValue position).bind fun i => (ihv.asValue value).bind fun v =>
        ((container.lockstep_storeAt base.text i v).bind fun _ => lockstep_pure _).tracks
  | branch span cond body otherwise ihc ihb iho =>
    refine (ihc.asValue cond).bind fun c => (tracks_noteValue _ _ c).bind fun _ => ?_
    split
    · exact (tracks_block ihb).inBlock.bind fun _ => (lockstep_pure _).tracks
    · exact (tracks_block iho).inBlock.bind fun _ => (lockstep_pure _).tracks
  | forIn span name iterable body ihi ihb =>
    refine (ihi.asValue iterable).bind fun v => v.lockstep_elements.tracks.bind fun items => ?_
    rw [hm.forScope]
    exact (tracks_forLoop (tracks_block ihb) m.forScope name items).bind fun _ =>
      (lockstep_pure _).tracks
  | loop span cond body ihc ihb =>
    exact (tracks_whileTrue (ihc.asValue cond) (tracks_block ihb) hm.rounds).bind fun _ =>
      (lockstep_pure _).tracks

end Machine

/-! ## Programs -/

/-- The bounds of the second settings are those of the first ones, or they are smaller and coming to
them is excused. -/
structure Settings.Tracks (X : Excuses) (o o' : Settings) : Prop where
  calls : X.Bounds .tooDeep o.calls o'.calls
  rounds : X.Bounds .outOfRounds o.rounds o'.rounds
  forScope : o'.forScope = o.forScope

namespace Program

variable {T : Trace → Trace → Prop} [Trace.Link T] {X : Excuses} [notes : TracksNotes T X] [X.Final]
  {o o' : Settings}

omit [X.Final] [Trace.Link T] in
theorem tracks_dispatch (p : Program) {user user' : Fun → List Value → Run Value}
    (huser : ∀ f vs, Tracks T X (user f vs) (user' f vs)) (name : String) (vs : List Value) :
    Tracks T X (p.dispatch user name vs) (p.dispatch user' name vs) := by
  unfold Program.dispatch
  cases Builtin.ofName? name with
  | some b => exact (notes.call _ vs).bind fun _ => (b.lockstep_apply vs).tracks
  | none =>
    cases p.find? name with
    | none => exact (lockstep_throw _).tracks
    | some f =>
      refine (notes.call name vs).bind fun _ => (huser f vs).bind fun v => ?_
      exact (tracks_noteValue _ _ v).bind fun _ => (lockstep_pure v).tracks

theorem tracks_invoke (p : Program) (ho : o.Tracks X o') {depth depth' : Nat}
    (hdepth : X.Bounds .tooDeep depth depth') (f : Fun) (vs : List Value) :
    Tracks T X (p.invoke o depth f vs) (p.invoke o' depth' f vs) := by
  -- As for loops, by the smaller bound; the machine below has one call less on both sides.
  induction depth' generalizing depth f vs with
  | zero =>
    rcases hdepth with rfl | ⟨-, hexcused⟩
    · exact (lockstep_throw _).tracks
    · exact tracks_throw_excused hexcused
  | succ depth' ih =>
    obtain ⟨k, rfl, hk⟩ := hdepth.exists_succ
    have hm : Machine.Tracks T X ⟨p.dispatch (p.invoke o k), o.rounds, o.forScope⟩
        ⟨p.dispatch (p.invoke o' depth'), o'.rounds, o'.forScope⟩ :=
      ⟨ho.rounds, ho.forScope, p.tracks_dispatch fun f vs => ih hk f vs⟩
    exact (Machine.tracks_block fun e _ => hm.step e).resultOf.inCall (f.frame vs)

/-- A whole run tracks one with larger bounds, or with another trace. -/
theorem tracks_run (p : Program) (ho : o.Tracks X o') :
    Tracks T X (p.run o) (p.run o') := by
  have hcall : Tracks T X (p.call o "main" []) (p.call o' "main" []) :=
    p.tracks_dispatch (fun f vs => p.tracks_invoke ho ho.calls f vs) "main" []
  exact (lockstep_note _ _).tracks.bind fun _ => hcall.bind fun v =>
    ((lockstep_note _ _).bind fun _ => lockstep_pure v).tracks

end Program

end Scriptlet
