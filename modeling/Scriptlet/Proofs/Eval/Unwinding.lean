import Scriptlet.Proofs.Eval.Lockstep
import Scriptlet.Proofs.Syntax.Induction

/-!
# Two ways to return

A `return` that is run as a statement is handed from block to block; one inside an expression stops
the run and is caught by the call around it.  Whoever calls a function cannot tell the two apart.
So it is enough to compare runs in which every `return` leaves the call at once, `Run.unwound` and
`Run.settled`: what a function gives is a matter of these alone.
-/

namespace Scriptlet

namespace Run

/-- Statements, where a `return` leaves the call at once. -/
def unwound (act : Run Completion) : Run Unit := do
  match ← act with
  | .normal => return ()
  | .returned v => throw (.returned v)

/-- The value of a form, where a `return` leaves the call at once. -/
def settled (act : Run Effect) : Run Value := do
  match ← act with
  | .value v => return v
  | .completed .normal => return .unit
  | .completed (.returned v) => throw (.returned v)

/-- The value of a function whose body leaves it at once with a `return`. -/
def caught (body : Run Unit) : Run Value := fun s =>
  match body.run s with
  | (.ok (), t) => (.ok .unit, t)
  | (.error (.returned v), t) => (.ok v, t)
  | (.error e, t) => (.error e, t)

/-! ## What the forms become -/

variable {α : Type}

theorem asValue_eq (e : Expr) (act : Run Effect) :
    asValue e act = announceStatement e >>= fun _ => settled act := rfl

theorem unwound_bind (act : Run α) (f : α → Run Completion) :
    unwound (act >>= f) = act >>= fun a => unwound (f a) := bind_assoc act f _

theorem settled_bind (act : Run α) (f : α → Run Effect) :
    settled (act >>= f) = act >>= fun a => settled (f a) := bind_assoc act f _

theorem unwound_andThen (first second : Run Completion) :
    unwound (andThen first second) = unwound first >>= fun _ => unwound second := by
  rw [andThen, unwound_bind, unwound, bind_assoc]
  congr 1
  funext c
  cases c with
  | normal => exact (pure_bind () fun _ => unwound second).symm
  | returned v => rfl

/-- A form that is run as a statement is run for its value, which nobody looks at. -/
theorem unwound_asStatement (e : Expr) (act : Run Effect) :
    unwound (asStatement e act) = announce e >>= fun _ => settled act >>= fun _ => pure () := by
  rw [asStatement, unwound_bind]
  congr 1
  funext _
  rw [unwound_bind, settled, bind_assoc]
  congr 1
  funext effect
  rcases effect with v | _ | v <;> rfl

theorem settled_completed (act : Run Completion) :
    settled (act >>= fun c => pure (.completed c)) = unwound act >>= fun _ => pure .unit := by
  rw [settled_bind, unwound, bind_assoc]
  congr 1
  funext c
  cases c <;> rfl

theorem unwound_inBlock (act : Run Completion) : unwound (inBlock act) = inBlock (unwound act) := by
  funext s
  show (unwound (inBlock act)).run s = (inBlock (unwound act)).run s
  have hblock : (inBlock act).run s = ((act.run { s with scope := s.scope.push }).1,
      { (act.run { s with scope := s.scope.push }).2 with
        scope := (act.run { s with scope := s.scope.push }).2.scope.pop }) := rfl
  have hunwound : (inBlock (unwound act)).run s =
      (((unwound act).run { s with scope := s.scope.push }).1,
        { ((unwound act).run { s with scope := s.scope.push }).2 with
          scope := ((unwound act).run { s with scope := s.scope.push }).2.scope.pop }) := rfl
  -- The frame is popped in either case, before the `return` becomes a stop and behind it.
  rw [hunwound]
  rcases hrun : act.run { s with scope := s.scope.push } with ⟨e | c, t⟩ <;> rw [hrun] at hblock
  · rw [unwound, run_bind_error hblock, unwound, run_bind_error hrun]
  · rw [unwound, run_bind_ok hblock, unwound, run_bind_ok hrun]
    cases c <;> rfl

/-- The call cannot tell which way a `return` took. -/
theorem resultOf_eq (body : Run Completion) : resultOf body = caught (unwound body) := by
  funext s
  unfold resultOf caught
  rcases hrun : body.run s with ⟨e | c, t⟩
  · rw [unwound, run_bind_error hrun]
    cases e <;> rfl
  · rw [unwound, run_bind_ok hrun]
    cases c <;> rfl

/-! ## In lockstep -/

variable {T : Trace → Trace → Prop}

theorem Lockstep.settled {act act' : Run Effect} (h : Lockstep T act act') :
    Lockstep T (settled act) (settled act') := by
  refine h.bind fun effect => ?_
  rcases effect with v | _ | v
  · exact lockstep_pure v
  · exact lockstep_pure _
  · exact lockstep_throw _

/-- Statements in lockstep, as a form that has no value of its own. -/
theorem Lockstep.completed {act act' : Run Completion}
    (h : Lockstep T (unwound act) (unwound act')) :
    Lockstep T (Run.settled (act >>= fun c => pure (.completed c)))
      (Run.settled (act' >>= fun c => pure (.completed c))) := by
  rw [settled_completed, settled_completed]
  exact h.bind fun _ => lockstep_pure _

/-- Statements in lockstep, in blocks of their own. -/
theorem Lockstep.ownBlock {act act' : Run Completion}
    (h : Lockstep T (unwound act) (unwound act')) :
    Lockstep T (unwound (Run.inBlock act)) (unwound (Run.inBlock act')) := by
  rw [unwound_inBlock, unwound_inBlock]
  exact h.inBlock

theorem Lockstep.caught {body body' : Run Unit} (h : Lockstep T body body') :
    Lockstep T (caught body) (caught body') := by
  intro s s' hs
  obtain ⟨hresult, hlinked⟩ := h hs
  show (Run.caught body' s').1 = (Run.caught body s).1 ∧
    (Run.caught body s).2.Linked T (Run.caught body' s').2
  unfold Run.caught
  rcases hrun : body.run s with ⟨e | u, t⟩ <;> rcases hrun' : body'.run s' with ⟨e' | u', t'⟩ <;>
    rw [hrun, hrun'] at hresult hlinked
  · obtain rfl := Except.error.inj hresult
    cases e' <;> exact ⟨rfl, hlinked⟩
  · cases hresult
  · cases hresult
  · exact ⟨rfl, hlinked⟩

theorem lockstep_whileTrue [Trace.Link T] {cond cond' : Run Value} {body body' : Run Completion}
    (hcond : Lockstep T cond cond') (hbody : Lockstep T (unwound body) (unwound body'))
    (rounds : Nat) :
    Lockstep T (unwound (whileTrue cond body rounds)) (unwound (whileTrue cond' body' rounds)) := by
  induction rounds with
  | zero => exact lockstep_throw _
  | succ rounds ih =>
    rw [whileTrue, whileTrue, unwound_bind, unwound_bind]
    refine hcond.bind fun v => ?_
    by_cases hv : v.truth = true
    · rw [if_pos hv, if_pos hv, unwound_bind, unwound_bind]
      refine (lockstep_note 3 _).bind fun _ => ?_
      rw [unwound_andThen, unwound_andThen]
      exact hbody.ownBlock.bind fun _ => ih
    · rw [if_neg hv, if_neg hv]
      exact lockstep_pure ()

theorem lockstep_roundFor [Trace.SameLevels T] {body body' : Run Completion}
    (hbody : Lockstep T (unwound body) (unwound body')) (name : String) (v : Value) :
    Lockstep T (unwound (roundFor name body v)) (unwound (roundFor name body' v)) := by
  simp only [roundFor, unwound_bind]
  exact (lockstep_noteValue 3 _ v).bind fun _ => (lockstep_declare name v).bind fun _ => hbody

theorem lockstep_eachValue {body body' : Value → Run Completion}
    (hbody : ∀ v, Lockstep T (unwound (body v)) (unwound (body' v))) (vs : List Value) :
    Lockstep T (unwound (eachValue body vs)) (unwound (eachValue body' vs)) := by
  induction vs with
  | nil => exact lockstep_pure ()
  | cons v vs ih =>
    rw [eachValue, eachValue, unwound_andThen, unwound_andThen]
    exact (hbody v).bind fun _ => ih

theorem lockstep_forLoop [Trace.SameLevels T] {body body' : Run Completion}
    (hbody : Lockstep T (unwound body) (unwound body')) (scope : ForScope) (name : String)
    (items : Items) :
    Lockstep T (unwound (forLoop scope name body items))
      (unwound (forLoop scope name body' items)) := by
  have hround : ∀ v, Lockstep T (unwound (roundFor name body v))
      (unwound (roundFor name body' v)) := lockstep_roundFor hbody name
  cases scope with
  | shared =>
    rw [forLoop, forLoop, each_eq, each_eq]
    exact (lockstep_eachValue hround items.toList).ownBlock
  | fresh =>
    rw [forLoop, forLoop, each_eq, each_eq]
    exact lockstep_eachValue (fun v => (hround v).ownBlock) items.toList

end Run

end Scriptlet
