import Scriptlet.Proofs.Rewriting.Bodies
import Scriptlet.Syntax.Spanless

/-!
# What of a tree matters to a run

A run does not look at parentheses, and at spans only for those entries of its trace that are about
single statements.  So a program and the bare tree of it, without spans and parentheses, run alike,
and so do any two programs with the same bare tree: `Program.alike_of_bare`.

A `return` is where this takes an argument: what stands between parentheses is run for its value,
and the same statement without them is run as a statement.
-/

namespace Scriptlet

/-! ## Bare trees -/

namespace Expr

mutual

/-- An expression with each `(inner)` replaced by `inner`; all other nodes keep their spans. -/
def ungrouped : Expr → Expr
  | int s n => int s n
  | bool s b => bool s b
  | char s c => char s c
  | str s t => str s t
  | var s name => var s name
  | index s base position => index s base position.ungrouped
  | neg s e => neg s e.ungrouped
  | not s e => not s e.ungrouped
  | parens _ e => e.ungrouped
  | binary s op l r => binary s op l.ungrouped r.ungrouped
  | declare s mutable name value => declare s mutable name value.ungrouped
  | assign s name value => assign s name value.ungrouped
  | call s name args => call s name (ungroupedAll args)
  | store s target base position value => store s target base position.ungrouped value.ungrouped
  | branch s cond body otherwise =>
    branch s cond.ungrouped (ungroupedAll body) (ungroupedAll otherwise)
  | forIn s name iterable body => forIn s name iterable.ungrouped (ungroupedAll body)
  | loop s cond body => loop s cond.ungrouped (ungroupedAll body)
  | returnUnit s => returnUnit s
  | returnValue s value => returnValue s value.ungrouped

/-- Several expressions, each with every `(inner)` replaced by `inner`. -/
def ungroupedAll : List Expr → List Expr
  | [] => []
  | e :: es => e.ungrouped :: ungroupedAll es

end

/-- An expression without spans and parentheses. -/
def bare (e : Expr) : Expr := e.spanless.ungrouped

/-- Several expressions without spans and parentheses. -/
def bareAll (es : List Expr) : List Expr := ungroupedAll (spanlessAll es)

theorem bareAll_ungroupedAll_of {es : List Expr} (h : ∀ e ∈ es, e.ungrouped.bare = e.bare) :
    bareAll (ungroupedAll es) = bareAll es := by
  induction es with
  | nil => rfl
  | cons e es ih =>
    obtain ⟨he, hes⟩ := List.forall_mem_cons.1 h
    exact congrArg₂ List.cons he (ih hes)

/-- Parentheses that were taken away before are not missed. -/
theorem bare_ungrouped (e : Expr) : e.ungrouped.bare = e.bare := by
  induction e using Expr.induction with
  | int | bool | char | str | var | returnUnit => rfl
  | index s base position ih => exact congrArg (index .zero base.spanless) ih
  | neg s e ih => exact congrArg (neg .zero) ih
  | not s e ih => exact congrArg (not .zero) ih
  | parens s e ih => exact ih
  | binary s op l r ihl ihr => exact congrArg₂ (binary .zero op) ihl ihr
  | declare s mutable name value ih => exact congrArg (declare .zero mutable name) ih
  | assign s name value ih => exact congrArg (assign .zero name) ih
  | call s name args ih => exact congrArg (call .zero name) (bareAll_ungroupedAll_of ih)
  | store s target base position value ihp ihv =>
    exact congrArg₂ (store .zero .zero base.spanless) ihp ihv
  | branch s cond body otherwise ihc ihb iho =>
    show branch .zero cond.ungrouped.bare (bareAll (ungroupedAll body))
        (bareAll (ungroupedAll otherwise)) = branch .zero cond.bare (bareAll body) (bareAll otherwise)
    rw [ihc, bareAll_ungroupedAll_of ihb, bareAll_ungroupedAll_of iho]
  | forIn s name iterable body ihi ihb =>
    exact congrArg₂ (forIn .zero name) ihi (bareAll_ungroupedAll_of ihb)
  | loop s cond body ihc ihb => exact congrArg₂ (loop .zero) ihc (bareAll_ungroupedAll_of ihb)
  | returnValue s value ih => exact congrArg (returnValue .zero) ih

theorem bareAll_ungroupedAll (es : List Expr) : bareAll (ungroupedAll es) = bareAll es :=
  bareAll_ungroupedAll_of fun e _ => bare_ungrouped e

end Expr

/-! ## Traces without single statements -/

/-- The entries of a trace that are not about single statements. -/
def Trace.overview (t : Trace) : List TraceEntry := t.entries.toList.filter fun e => e.level < 4

/-- Traces of one verbosity that differ at most in entries about single statements. -/
structure Trace.SameOverview (t t' : Trace) : Prop where
  verbosity : t'.verbosity = t.verbosity
  overview : t'.overview = t.overview

namespace Trace

variable {t t' t'' : Trace}

theorem SameOverview.refl (t : Trace) : t.SameOverview t := ⟨rfl, rfl⟩

theorem SameOverview.symm (h : t.SameOverview t') : t'.SameOverview t :=
  ⟨h.verbosity.symm, h.overview.symm⟩

theorem SameOverview.trans (h : t.SameOverview t') (h' : t'.SameOverview t'') :
    t.SameOverview t'' :=
  ⟨h'.verbosity.trans h.verbosity, h'.overview.trans h.overview⟩

theorem overview_write (t : Trace) (level : Nat) (text : String) :
    (t.write level text).overview =
      t.overview ++ if level ≤ t.verbosity ∧ level < 4 then [⟨level, text⟩] else [] := by
  rw [overview, toList_entries_write, List.filter_append]
  by_cases hkept : level ≤ t.verbosity <;> by_cases hlevel : level < 4 <;>
    simp [overview, hkept, hlevel]

instance : SameLevels SameOverview where
  write {t t'} level text h := by
    refine ⟨?_, ?_⟩
    · rw [verbosity_write, verbosity_write, h.verbosity]
    · rw [overview_write, overview_write, h.overview, h.verbosity]
  verbosity h := h.verbosity

/-- What is written about a single statement does not show. -/
theorem sameOverview_write (t : Trace) (text : String) : t.SameOverview (t.write 4 text) := by
  refine ⟨verbosity_write t 4 text, ?_⟩
  rw [overview_write, if_neg (by omega), List.append_nil]

end Trace

namespace Run

variable {α : Type}

/-- The run does nothing but write about single statements. -/
def Silent (act : Run Unit) : Prop :=
  ∀ s, ∃ t, act.run s = (.ok (), { s with trace := t }) ∧ s.trace.SameOverview t

theorem silent_pure : Silent (pure ()) := fun s => ⟨s.trace, rfl, .refl _⟩

theorem silent_announce (e : Expr) : Silent (announce e) :=
  fun s => ⟨_, rfl, s.trace.sameOverview_write _⟩

theorem silent_announceStatement (e : Expr) : Silent (announceStatement e) := by
  rw [announceStatement]
  split
  · exact silent_announce e
  · exact silent_pure

theorem Silent.lockstep {act act' : Run Unit} (h : Silent act) (h' : Silent act') :
    Lockstep Trace.SameOverview act act' := by
  intro s s' hs
  obtain ⟨t, hrun, htrace⟩ := h s
  obtain ⟨t', hrun', htrace'⟩ := h' s'
  rw [hrun, hrun']
  refine ⟨rfl, ?_, htrace.symm.trans (hs.trace.trans htrace')⟩
  show ({ s' with trace := t' } : State) = { s with trace := t' }
  rw [hs.same]

end Run

/-! ## Bare forms -/

open Run

namespace Machine

variable {m m' : Machine}

/-- A form and the bare form of it have the same value, in lockstep. -/
def BareAlike (m m' : Machine) (e : Expr) : Prop :=
  Lockstep Trace.SameOverview (settled (m.step e)) (settled (m'.step e.bare))

theorem BareAlike.value {e : Expr} (h : BareAlike m m' e) :
    Lockstep Trace.SameOverview (m.eval e) (m'.eval e.bare) := by
  have hsilent := (silent_announceStatement e).lockstep (silent_announceStatement e.bare)
  rw [eval, eval, asValue_eq, asValue_eq]
  exact hsilent.bind fun _ => h

theorem BareAlike.values {es : List Expr} (h : ∀ e ∈ es, BareAlike m m' e) :
    Lockstep Trace.SameOverview (m.values es) (m'.values (Expr.bareAll es)) := by
  induction es with
  | nil => exact lockstep_pure []
  | cons e es ih =>
    obtain ⟨he, hes⟩ := List.forall_mem_cons.1 h
    exact he.value.bind fun v => (ih hes).bind fun vs => lockstep_pure (v :: vs)

theorem BareAlike.block {es : List Expr} (h : ∀ e ∈ es, BareAlike m m' e) :
    Lockstep Trace.SameOverview (unwound (m.block es)) (unwound (m'.block (Expr.bareAll es))) := by
  induction es with
  | nil => exact lockstep_pure ()
  | cons e es ih =>
    obtain ⟨he, hes⟩ := List.forall_mem_cons.1 h
    have hsilent := (silent_announce e).lockstep (silent_announce e.bare)
    show Lockstep _ (unwound (andThen (asStatement e (m.step e)) (m.block es)))
      (unwound (andThen (asStatement e.bare (m'.step e.bare)) (m'.block (Expr.bareAll es))))
    -- Once it is unwound, a statement is run like a value that nobody looks at.
    rw [unwound_andThen, unwound_andThen, unwound_asStatement, unwound_asStatement]
    refine Lockstep.bind ?_ fun _ => ih hes
    exact hsilent.bind fun _ => he.bind fun _ => lockstep_pure ()

/-- The argument follows the syntax; only the first form changes its shape. -/
theorem Linked.bareAlike (hm : Linked Trace.SameOverview m m') (e : Expr) : BareAlike m m' e := by
  induction e using Expr.induction with
  | parens span e ih =>
    -- What stands between the parentheses was run for its value; now it may be run as a statement.
    have hparens : settled (m.step (.parens span e)) =
        announceStatement e >>= fun _ => settled (m.step e) := by
      rw [step, settled_bind]
      exact bind_pure _
    have hbare : settled (m'.step (Expr.parens span e).bare) =
        (pure () : Run Unit) >>= fun _ => settled (m'.step e.bare) := rfl
    rw [BareAlike, hparens, hbare]
    exact ((silent_announceStatement e).lockstep silent_pure).bind fun _ => ih
  | int | bool | char | str => exact lockstep_pure _
  | var span name =>
    have hstep : Lockstep Trace.SameOverview (m.step (.var span name)) (m'.step (.var .zero name)) :=
      (lockstep_lookup name).bind fun _ => lockstep_pure _
    exact hstep.settled
  | index span base position ih =>
    have hstep : Lockstep Trace.SameOverview (m.step (.index span base position))
        (m'.step (.index .zero base.spanless position.bare)) :=
      (lockstep_lookup base.text).bind fun container => ih.value.bind fun i =>
        (container.lockstep_elementAt i).bind fun _ => lockstep_pure _
    exact hstep.settled
  | neg span e ih =>
    have hstep : Lockstep Trace.SameOverview (m.step (.neg span e)) (m'.step (.neg .zero e.bare)) :=
      ih.value.bind fun v => (lockstep_expectInt v).bind fun _ => lockstep_pure _
    exact hstep.settled
  | not span e ih =>
    have hstep : Lockstep Trace.SameOverview (m.step (.not span e)) (m'.step (.not .zero e.bare)) :=
      ih.value.bind fun v => lockstep_pure _
    exact hstep.settled
  | binary span op l r ihl ihr =>
    have hstep : Lockstep Trace.SameOverview (m.step (.binary span op l r))
        (m'.step (.binary .zero op l.bare r.bare)) := by
      refine ihl.value.bind fun a => ?_
      cases op.shortcut? a with
      | some v => exact lockstep_pure _
      | none =>
        exact ihr.value.bind fun b => (op.lockstep_combine a b).bind fun _ => lockstep_pure _
    exact hstep.settled
  | declare span mutable name value ih =>
    have hstep : Lockstep Trace.SameOverview (m.step (.declare span mutable name value))
        (m'.step (.declare .zero mutable name value.bare)) :=
      ih.value.bind fun v => (lockstep_declare name v).bind fun _ =>
        (lockstep_noteValue _ _ v).bind fun _ => lockstep_pure _
    exact hstep.settled
  | assign span name value ih =>
    have hstep : Lockstep Trace.SameOverview (m.step (.assign span name value))
        (m'.step (.assign .zero name value.bare)) :=
      ih.value.bind fun v => (lockstep_assign name v).bind fun _ => lockstep_pure _
    exact hstep.settled
  | call span name args ih =>
    have hstep : Lockstep Trace.SameOverview (m.step (.call span name args))
        (m'.step (.call .zero name (Expr.bareAll args))) :=
      (BareAlike.values ih).bind fun vs => (hm.call name vs).bind fun _ => lockstep_pure _
    exact hstep.settled
  | store span target base position value ihp ihv =>
    have hstep : Lockstep Trace.SameOverview (m.step (.store span target base position value))
        (m'.step (.store .zero .zero base.spanless position.bare value.bare)) :=
      (lockstep_lookup base.text).bind fun container => ihp.value.bind fun i =>
        ihv.value.bind fun v => (container.lockstep_storeAt base.text i v).bind fun _ =>
          lockstep_pure _
    exact hstep.settled
  | branch span cond body otherwise ihc ihb iho =>
    show Lockstep _ (settled (m.step (.branch span cond body otherwise)))
      (settled (m'.step (.branch .zero cond.bare (Expr.bareAll body) (Expr.bareAll otherwise))))
    simp only [step, settled_bind]
    refine ihc.value.bind fun c => (lockstep_noteValue 3 _ c).bind fun _ => ?_
    by_cases hc : c.truth = true
    · rw [if_pos hc, if_pos hc]
      exact (BareAlike.block ihb).ownBlock.completed
    · rw [if_neg hc, if_neg hc]
      exact (BareAlike.block iho).ownBlock.completed
  | forIn span name iterable body ihi ihb =>
    show Lockstep _ (settled (m.step (.forIn span name iterable body)))
      (settled (m'.step (.forIn .zero name iterable.bare (Expr.bareAll body))))
    rw [step, step, settled_bind, settled_bind]
    refine ihi.value.bind fun v => ?_
    rw [settled_bind, settled_bind]
    refine v.lockstep_elements.bind fun items => ?_
    rw [hm.forScope]
    exact (lockstep_forLoop (BareAlike.block ihb) m.forScope name items).completed
  | loop span cond body ihc ihb =>
    show Lockstep _ (settled (m.step (.loop span cond body)))
      (settled (m'.step (.loop .zero cond.bare (Expr.bareAll body))))
    rw [step, step, hm.rounds]
    exact (lockstep_whileTrue ihc.value (BareAlike.block ihb) m.rounds).completed
  | returnUnit span => exact lockstep_throw _
  | returnValue span value ih =>
    have hstep : Lockstep Trace.SameOverview (m.step (.returnValue span value))
        (m'.step (.returnValue .zero value.bare)) := ih.value.bind fun v => lockstep_pure _
    exact hstep.settled

end Machine

/-! ## Bare programs -/

/-- A function with each `(inner)` in its body replaced by `inner`. -/
def Fun.ungrouped (f : Fun) : Fun := { f with body := Expr.ungroupedAll f.body }

/-- A program with each `(inner)` replaced by `inner`; all other nodes keep their spans. -/
def Program.ungrouped (p : Program) : Program :=
  { p with functions := p.functions.map Fun.ungrouped }

/-- A program without spans and parentheses. -/
def Program.bare (p : Program) : Program := p.spanless.ungrouped

theorem Fun.bare_ungrouped (f : Fun) : f.ungrouped.spanless.ungrouped = f.spanless.ungrouped :=
  congrArg (Fun.mk .zero f.name (f.params.map Param.spanless) (f.result.map TypeRef.spanless))
    (Expr.bareAll_ungroupedAll f.body)

theorem Program.bare_ungrouped (p : Program) : p.ungrouped.bare = p.bare := by
  have hfunctions : ((p.functions.map Fun.ungrouped).map Fun.spanless).map Fun.ungrouped =
      (p.functions.map Fun.spanless).map Fun.ungrouped := by
    rw [List.map_map, List.map_map, List.map_map]
    exact List.map_congr_left fun f _ => f.bare_ungrouped
  exact congrArg (Program.mk .zero) hfunctions

/-- A function and its bare tree are called alike. -/
theorem Fun.linked_bare (f : Fun) : Fun.Linked Trace.SameOverview f f.spanless.ungrouped where
  params := by
    show (f.params.map Param.spanless).map Param.name = f.params.map Param.name
    rw [List.map_map]
    rfl
  body _ _ hm := Machine.BareAlike.block fun e _ => hm.bareAlike e

theorem Program.linked_bare (p : Program) : p.Linked Trace.SameOverview p.bare := by
  have hmap : p.bare = ⟨.zero, p.functions.map fun f => f.spanless.ungrouped⟩ :=
    congrArg (Program.mk .zero) (List.map_map ..)
  rw [hmap]
  exact linked_map _ p .zero (fun _ => rfl) Fun.linked_bare

namespace Execution

/-- Two executions with the same outcome, which leave the same variables, arrays and console; their
traces differ at most in entries about single statements. -/
structure Alike (x y : Execution) : Prop where
  outcome : y.outcome = x.outcome
  state : x.state.Linked Trace.SameOverview y.state

theorem Alike.symm {x y : Execution} (h : x.Alike y) : y.Alike x := by
  refine ⟨h.outcome.symm, ?_, h.state.trace.symm⟩
  rw [h.state.same]

theorem Alike.trans {x y z : Execution} (h : x.Alike y) (h' : y.Alike z) : x.Alike z := by
  refine ⟨h'.outcome.trans h.outcome, ?_, h.state.trace.trans h'.state.trace⟩
  rw [h'.state.same, h.state.same]

end Execution

namespace Program

/-- A program and its bare tree run alike. -/
theorem alike_bare (p : Program) (o : Settings) (s : State) :
    (p.execute o s).Alike (p.bare.execute o s) := by
  have hs : s.Linked Trace.SameOverview s := ⟨rfl, .refl _⟩
  obtain ⟨hresult, hlinked⟩ := p.linked_bare.run o hs
  refine ⟨?_, hlinked⟩
  exact congrArg (Except.mapError Failure.stopped) hresult

/-- Programs with the same bare tree run alike. -/
theorem alike_of_bare {p q : Program} (h : p.bare = q.bare) (o : Settings) (s : State) :
    (p.execute o s).Alike (q.execute o s) := by
  have hq := (q.alike_bare o s).symm
  rw [← h] at hq
  exact (p.alike_bare o s).trans hq

end Program

end Scriptlet
