import Scriptlet.Pipeline
import Scriptlet.Proofs.Eval.Tracking
import Scriptlet.Proofs.Typing.Steady

/-!
# The stages with other traces

No stage looks at what is in the trace.  So from two states that are equal but for related traces,
checking reports the same and leaves related traces, and where the run behind it tracks another one,
so does the execution as a whole.
-/

namespace Scriptlet

open Run

variable {T : Trace → Trace → Prop} {X : Excuses}

theorem Trace.Link.writeAll [link : Trace.Link T] {t t' : Trace} (h : T t t')
    (notes : List TraceEntry) : T (t.writeAll notes) (t'.writeAll notes) := by
  induction notes generalizing t t' with
  | nil => exact h
  | cons e notes ih => exact ih (link.write e.level e.text h)

/-- The executions come to the same, in states that are equal but for their traces, unless the second
one stopped with an excuse. -/
def Execution.Tracks (T : Trace → Trace → Prop) (X : Excuses) (x x' : Execution) : Prop :=
  (∃ stop, x'.outcome = .error (.stopped stop) ∧ X stop x'.state.heap) ∨
    x'.outcome = x.outcome ∧ x.state.Linked T x'.state

namespace Program

/-- What is wrong with a program is no matter of the trace, and it is noted alike in all traces. -/
theorem check_linked [Trace.Link T] (p : Program) {t t' : Trace} (h : T t t') :
    (p.check t').1 = (p.check t).1 ∧ T (p.check t).2 (p.check t').2 := by
  -- Only the last note looks back: at how much was reported.
  have hcheck : ∀ u : Trace, p.check u =
      let c := ((Check.signatures p >>= fun known => Check.functions known p.functions).run
        { trace := u }).2
      (c.diagnostics,
        c.trace.write 1 ("check: " ++ toString c.diagnostics.length ++ " diagnostics")) :=
    fun _ => rfl
  have hsteady : Check.Steady
      (Check.signatures p >>= fun known => Check.functions known p.functions) := inferInstance
  have hscope : (Checking.mk .empty [] t').scope = (Checking.mk .empty [] t).scope := rfl
  obtain ⟨-, -, ds, hds, hds'⟩ := hsteady.steady hscope
  obtain ⟨notes, hnotes, hnotes'⟩ := hsteady.noted hscope
  simp only [hcheck, hds, hds', hnotes, hnotes', List.nil_append, true_and]
  exact Trace.Link.write _ _ (Trace.Link.writeAll h notes)

variable {s s' : State}

theorem checkNoted_linked [link : Trace.Link T] (p : Program) (hs : s.Linked T s') :
    (p.checkNoted s').1 = (p.checkNoted s).1 ∧
      (p.checkNoted s).2.Linked T (p.checkNoted s').2 := by
  obtain ⟨hdiagnostics, htrace⟩ := p.check_linked
    (link.write 1 ("parse: " ++ toString p.functions.length ++ " functions") hs.trace)
  refine ⟨hdiagnostics, ?_, htrace⟩
  have hsame := hs.same
  obtain ⟨scope, heap, console, trace⟩ := s'
  obtain ⟨rfl, rfl, rfl, -⟩ := State.mk.inj hsame
  rfl

/-- If what comes next tracks the other one, so does checking with what comes next. -/
theorem checkThen_tracks [Trace.Link T] (p : Program) {next next' : State → Execution}
    (hnext : ∀ {t t' : State}, t.Linked T t' → (next t).Tracks T X (next' t'))
    (hs : s.Linked T s') : (p.checkThen s next).Tracks T X (p.checkThen s' next') := by
  obtain ⟨hdiagnostics, hlinked⟩ := p.checkNoted_linked hs
  rw [checkThen, checkThen]
  rcases hchecked : p.checkNoted s with ⟨_ | ⟨d, ds⟩, t⟩ <;>
    rcases hchecked' : p.checkNoted s' with ⟨_ | ⟨d', ds'⟩, t'⟩ <;>
    rw [hchecked, hchecked'] at hdiagnostics hlinked
  · exact hnext hlinked
  · cases hdiagnostics
  · cases hdiagnostics
  · obtain ⟨rfl, rfl⟩ := List.cons.inj hdiagnostics
    exact .inr ⟨rfl, hlinked⟩

theorem execute_eq_mk (p : Program) (o : Settings) (s : State) :
    p.execute o s = ⟨((p.run o).run s).1.mapError .stopped, ((p.run o).run s).2⟩ := rfl

theorem execute_tracks {p : Program} {o o' : Settings} (h : Tracks T X (p.run o) (p.run o'))
    (hs : s.Linked T s') : (p.execute o s).Tracks T X (p.execute o' s') := by
  rw [execute_eq_mk, execute_eq_mk]
  rcases h hs with ⟨stop, hstop, hX⟩ | ⟨hresult, hlinked⟩
  · exact .inl ⟨stop, congrArg (Except.mapError Failure.stopped) hstop, hX⟩
  · exact .inr ⟨congrArg (Except.mapError Failure.stopped) hresult, hlinked⟩

end Program

end Scriptlet
