import Scriptlet.Proofs.Eval.Reach
import Scriptlet.Proofs.Store.Growth

/-!
# The parts of a run

What a run gets to is a part of it.  The arrays that are there when the part ends are there when the
run ends, with the same lengths; and where the part goes astray, that is, stops in a way that no error
is defined for, so does the run.
-/

namespace Scriptlet

open Run

/-- Ways to stop that no error is defined for. -/
def Stop.IsStray : Stop → Prop
  | .unitOrder | .rangeEnd | .noPlace | .overlong | .unprintable | .untraceable _ => True
  | .returned _ | .fault _ | .breach _ | .tooDeep | .outOfRounds => False

/-! ## A run and what is left of it -/

namespace Run

variable {α β γ : Type} {s s' s₀ t : State} {inner : Run γ}

/-- From `s` the run stops so. -/
def StopsWith (act : Run α) (s : State) (stop : Stop) : Prop := (act.run s).1 = .error stop

/-- The first run, from `s`, is a part of the second one, from `s'`: arrays that are there at its end
are there at the end of the second one, with the same lengths, and where it goes astray, so does the
second one. -/
structure PartOf (act : Run α) (s : State) (act' : Run β) (s' : State) : Prop where
  lengths : (act.run s).2.heap.lengths <+: (act'.run s').2.heap.lengths
  astray : ∀ stop : Stop, stop.IsStray → StopsWith act s stop → StopsWith act' s' stop

theorem PartOf.refl (act : Run α) (s : State) : PartOf act s act s :=
  ⟨List.prefix_rfl, fun _ _ h => h⟩

theorem PartOf.trans {act : Run α} {act' : Run β} (h : PartOf inner s₀ act s)
    (h' : PartOf act s act' s') : PartOf inner s₀ act' s' :=
  ⟨h.lengths.trans h'.lengths, fun stop hstray hstop =>
    h'.astray stop hstray (h.astray stop hstray hstop)⟩

/-- It only matters how a run ends. -/
theorem PartOf.of_run_eq {act act' : Run α} (hrun : act'.run s' = act.run s)
    (h : PartOf inner s₀ act s) : PartOf inner s₀ act' s' := by
  refine ⟨?_, fun stop hstray hstop => ?_⟩
  · rw [hrun]
    exact h.lengths
  · rw [StopsWith, hrun]
    exact h.astray stop hstray hstop

/-- The first part of a run ends before the run does. -/
theorem PartOf.first {act : Run α} {f : α → Run β} (h : PartOf inner s₀ act s)
    (hf : ∀ a, Grows (f a)) : PartOf inner s₀ (act >>= f) s := by
  refine h.trans ?_
  rcases hrun : act.run s with ⟨e | a, t⟩
  · refine ⟨?_, fun stop _ hstop => ?_⟩
    · have hend : ((act >>= f).run s).2 = (act.run s).2 := by rw [run_bind_error hrun, hrun]
      exact hend ▸ List.prefix_rfl
    · rw [StopsWith, hrun] at hstop
      rw [StopsWith, run_bind_error hrun]
      exact congrArg Except.error (Except.error.inj hstop)
  · refine ⟨?_, fun stop _ hstop => ?_⟩
    · rw [run_bind_ok hrun, hrun]
      exact hf a t
    · rw [StopsWith, hrun] at hstop
      cases hstop

/-- What is left of a run ends where the whole run ends. -/
theorem PartOf.rest {act : Run α} {a : α} {f : α → Run β} (hrun : act.run s = (.ok a, t))
    (h : PartOf inner s₀ (f a) t) : PartOf inner s₀ (act >>= f) s :=
  .of_run_eq (run_bind_ok hrun f) h

theorem partOf_asValue {e : Expr} {act : Run Effect}
    (h : (announceStatement e).run s = (.ok (), s')) : PartOf act s' (asValue e act) s := by
  refine .rest h (.first (.refl _ _) fun effect => ?_)
  rcases effect with v | (_ | v)
  · exact grows_pure v
  · exact grows_pure _
  · exact grows_throw _

theorem partOf_asStatement {e : Expr} {act : Run Effect}
    (h : (announce e).run s = (.ok (), s')) : PartOf act s' (asStatement e act) s := by
  refine .rest h (.first (.refl _ _) fun effect => ?_)
  rcases effect with v | c
  · exact grows_pure _
  · exact grows_pure c

theorem PartOf.andThen {first second : Run Completion} (h : PartOf inner s₀ first s)
    (hsecond : Grows second) : PartOf inner s₀ (andThen first second) s := by
  refine h.first fun c => ?_
  cases c with
  | normal => exact hsecond
  | returned v => exact grows_pure _

theorem PartOf.inBlock {act : Run α}
    (h : PartOf inner s₀ act { s with scope := s.scope.push }) :
    PartOf inner s₀ (inBlock act) s := ⟨h.lengths, h.astray⟩

/-- A function whose body goes astray goes astray itself. -/
theorem stopsWith_resultOf {body : Run Completion} {stop : Stop} (hstray : stop.IsStray)
    (h : StopsWith body s stop) : StopsWith (resultOf body) s stop := by
  have hrun : (resultOf body).run s = resultOf body s := rfl
  rw [StopsWith, hrun]
  unfold resultOf
  rcases hend : body.run s with ⟨e | c, t⟩ <;> rw [StopsWith, hend] at h
  · obtain rfl := Except.error.inj h
    cases e with
    -- only this one is caught by the call
    | returned => exact absurd hstray id
    | fault | breach | unitOrder | rangeEnd | noPlace | overlong | unprintable | untraceable
    | tooDeep | outOfRounds => rfl
  · cases h

/-- The two parts of a run that was seen to end. -/
theorem exists_run_of_bind {act : Run α} {f : α → Run β} {b : β}
    (h : (act >>= f).run s = (.ok b, t)) :
    ∃ a u, act.run s = (.ok a, u) ∧ (f a).run u = (.ok b, t) := by
  rcases hrun : act.run s with ⟨e | a, u⟩
  · rw [run_bind_error hrun] at h
    cases h
  · rw [run_bind_ok hrun] at h
    exact ⟨a, u, rfl, h⟩

theorem run_andThen {first : Run Completion} (h : first.run s = (.ok .normal, t))
    (second : Run Completion) : (andThen first second).run s = second.run t :=
  run_bind_ok h _

/-- The first of two runs in a row, seen to have ended. -/
theorem exists_run_of_andThen {first second : Run Completion}
    (h : (andThen first second).run s = (.ok .normal, t)) :
    ∃ u, first.run s = (.ok .normal, u) ∧ second.run u = (.ok .normal, t) := by
  obtain ⟨c, u, hfirst, hrest⟩ := exists_run_of_bind h
  cases c with
  | normal => exact ⟨u, hfirst, hrest⟩
  | returned v => cases hrest

theorem run_eachValue_append {body : Value → Run Completion} {done : List Value}
    (h : (eachValue body done).run s = (.ok .normal, t)) (todo : List Value) :
    (eachValue body (done ++ todo)).run s = (eachValue body todo).run t := by
  induction done generalizing s with
  | nil =>
    cases h
    rfl
  | cons v done ih =>
    obtain ⟨u, hfirst, hrest⟩ := exists_run_of_andThen h
    rw [List.cons_append, eachValue, run_andThen hfirst]
    exact ih hrest

end Run

namespace Machine

variable {m : Machine} {s s' t : State} {e e' : Expr} {es before rest : List Expr}

theorem run_block_append (h : (m.block before).run s = (.ok .normal, t)) (es : List Expr) :
    (m.block (before ++ es)).run s = (m.block es).run t := by
  induction before generalizing s with
  | nil =>
    cases h
    rfl
  | cons x before ih =>
    obtain ⟨u, hfirst, hrest⟩ := exists_run_of_andThen h
    rw [List.cons_append, block, run_andThen hfirst]
    exact ih hrest

/-- A statement that is reached in a block ends before the block does. -/
theorem Comes.partOf (hm : m.GrowingCalls) (h : m.Comes before e s s') (rest : List Expr) :
    PartOf (m.step e) s' (m.block (before ++ e :: rest)) s := by
  obtain ⟨u, hbefore, hannounce⟩ := h
  refine .of_run_eq (run_block_append hbefore _) ?_
  exact (partOf_asStatement hannounce).andThen (hm.block rest)

/-- The values behind some that were found are found from where those ended. -/
theorem partOf_values {vs : List Value} (h : (m.values before).run s = (.ok vs, t))
    (es : List Expr) : PartOf (m.values es) t (m.values (before ++ es)) s := by
  induction before generalizing s vs with
  | nil =>
    cases h
    exact .refl _ _
  | cons x before ih =>
    obtain ⟨v, u, hx, h⟩ := exists_run_of_bind h
    obtain ⟨ws, w, hrest, h⟩ := exists_run_of_bind h
    cases h
    exact .rest hx ((ih hrest).first fun _ => grows_pure _)

/-- Rounds that were taken are so many less to take. -/
theorem Rounds.run_whileTrue {cond : Expr} {body : List Expr} {k : Nat}
    (h : m.Rounds cond body k s t) (left : Nat) :
    (whileTrue (m.eval cond) (m.block body) (k + left)).run s =
      (whileTrue (m.eval cond) (m.block body) left).run t := by
  induction h generalizing left with
  | none => rw [Nat.zero_add]
  | @more k s s₁ s₂ s₃ s₄ c _ hcond htrue hnote hbody ih =>
    rw [Nat.add_right_comm, Nat.add_assoc, ih (left + 1), whileTrue, run_bind_ok hcond, if_pos htrue,
      run_bind_ok hnote, run_andThen hbody]

/-- A statement that is reached in a round of a loop ends before the round does. -/
theorem partOf_roundFor (hm : m.GrowingCalls) {name : String} {v : Value}
    (hround : (roundFor name (m.block before) v).run s = (.ok .normal, t))
    (hannounce : (announce e).run t = (.ok (), s')) :
    PartOf (m.step e) s' (roundFor name (m.block (before ++ e :: rest)) v) s := by
  obtain ⟨_, u₁, hnote, hround⟩ := exists_run_of_bind hround
  obtain ⟨_, u₂, hdeclare, hbefore⟩ := exists_run_of_bind hround
  exact .rest hnote (.rest hdeclare (Comes.partOf hm ⟨t, hbefore, hannounce⟩ rest))

/-- A form that is reached inside of another one ends before that one does. -/
theorem Enters.partOf (hm : m.GrowingCalls) (h : m.Enters s e s' e') :
    PartOf (m.step e') s' (m.step e) s := by
  cases h with
  | index hlookup hrun =>
    refine .rest hlookup ((partOf_asValue hrun).first fun i => ?_)
    exact (Value.grows_elementAt _ i).bind fun _ => grows_pure _
  | neg hrun =>
    exact (partOf_asValue hrun).first fun v => (grows_expectInt v).bind fun _ => grows_pure _
  | not hrun | parens hrun | returned hrun =>
    exact (partOf_asValue hrun).first fun _ => grows_pure _
  | @left _ span op _ r hrun =>
    refine (partOf_asValue hrun).first fun a => ?_
    cases op.shortcut? a with
    | some v => exact grows_pure _
    | none => exact (hm.eval r).bind fun b => (op.grows_combine a b).bind fun _ => grows_pure _
  | @right _ _ span op _ _ a hleft hshortcut hrun =>
    -- the left operand did not decide, or the right one would not be run
    refine .rest hleft ?_
    simp only [hshortcut]
    refine (partOf_asValue hrun).first fun b => ?_
    exact (op.grows_combine a b).bind fun _ => grows_pure _
  | declared hrun =>
    refine (partOf_asValue hrun).first fun v => (grows_declare _ v).bind fun _ => ?_
    exact (grows_noteValue _ _ v).bind fun _ => grows_pure _
  | assigned hrun =>
    exact (partOf_asValue hrun).first fun v => (grows_assign _ v).bind fun _ => grows_pure _
  | @argument _ _ span name before rest _ vs hbefore hrun =>
    have hvalues : PartOf (m.step e') s' (m.values (e' :: rest)) _ :=
      (partOf_asValue hrun).first fun _ => (hm.values rest).bind fun _ => grows_pure _
    exact (hvalues.trans (partOf_values hbefore _)).first fun vs =>
      (hm name vs).bind fun _ => grows_pure _
  | position hlookup hrun =>
    refine .rest hlookup ((partOf_asValue hrun).first fun i => (hm.eval _).bind fun v => ?_)
    exact (Value.grows_storeAt _ _ i v).bind fun _ => grows_pure _
  | stored hlookup hindex hrun =>
    refine .rest hlookup (.rest hindex ((partOf_asValue hrun).first fun v => ?_))
    exact (Value.grows_storeAt _ _ _ v).bind fun _ => grows_pure _
  | @tested _ span _ body otherwise hrun =>
    refine (partOf_asValue hrun).first fun c => (grows_noteValue _ _ c).bind fun _ => ?_
    split
    · exact (grows_inBlock (hm.block body)).bind fun _ => grows_pure _
    · exact (grows_inBlock (hm.block otherwise)).bind fun _ => grows_pure _
  | taken hcondition htrue hnote hcomes =>
    refine .rest hcondition (.rest hnote ?_)
    rw [if_pos htrue]
    exact (hcomes.partOf hm _).inBlock.first fun _ => grows_pure _
  | otherwise hcondition hfalse hnote hcomes =>
    refine .rest hcondition (.rest hnote ?_)
    rw [if_neg (by simp [hfalse])]
    exact (hcomes.partOf hm _).inBlock.first fun _ => grows_pure _
  | iterable hrun =>
    refine (partOf_asValue hrun).first fun v => (Value.grows_elements v).bind fun items => ?_
    exact (grows_forLoop _ _ (hm.block _) items).bind fun _ => grows_pure _
  | round hshared hiter helements hitems hdone hround hannounce =>
    refine .rest hiter (.rest helements (.first ?_ fun _ => grows_pure _))
    -- behind the rounds that are done, the loop starts with the one that is going on
    rw [hshared, forLoop, each_eq, hitems]
    refine .inBlock (.of_run_eq (run_eachValue_append hdone _) ?_)
    exact (partOf_roundFor hm hround hannounce).andThen
      (grows_eachValue (grows_roundFor _ (hm.block _)) _)
  | freshRound hfresh hiter helements hitems hdone hround hannounce =>
    refine .rest hiter (.rest helements (.first ?_ fun _ => grows_pure _))
    rw [hfresh, forLoop, each_eq, hitems]
    refine .of_run_eq (run_eachValue_append hdone _) ?_
    exact (partOf_roundFor hm hround hannounce).inBlock.andThen
      (grows_eachValue (fun v => grows_inBlock (grows_roundFor _ (hm.block _) v)) _)
  | @held _ _ span _ body k hrounds hk hrun =>
    refine .first ?_ fun _ => grows_pure _
    -- the bound leaves room for the test of the condition that comes next
    obtain ⟨left, hleft⟩ : ∃ left, m.rounds = k + (left + 1) := ⟨m.rounds - k - 1, by omega⟩
    rw [hleft]
    refine .of_run_eq (hrounds.run_whileTrue (left + 1)) ?_
    refine (partOf_asValue hrun).first fun c => ?_
    split
    · refine (grows_note _ _).bind fun _ => grows_andThen (grows_inBlock (hm.block body)) ?_
      exact grows_whileTrue (hm.eval e') (hm.block body) left
    · exact grows_pure _
  | @repeated _ _ _ _ span cond _ before rest k c hrounds hk hcondition htrue hnote hcomes =>
    refine .first ?_ fun _ => grows_pure _
    obtain ⟨left, hleft⟩ : ∃ left, m.rounds = k + (left + 1) := ⟨m.rounds - k - 1, by omega⟩
    rw [hleft]
    refine .of_run_eq (hrounds.run_whileTrue (left + 1)) (.rest hcondition ?_)
    rw [if_pos htrue]
    refine .rest hnote ((hcomes.partOf hm _).inBlock.andThen ?_)
    exact grows_whileTrue (hm.eval cond) (hm.block _) left

theorem Enters.mem_parts (h : m.Enters s e s' e') : e' ∈ e.parts := by
  cases h <;> simp [Expr.parts]

end Machine

/-! ## From call to call -/

namespace Program

variable {p : Program} {o : Settings} {depth : Nat} {name : String} {f : Fun} {vs : List Value}
  {s t : State}

theorem growing_machineAt (p : Program) (o : Settings) (depth : Nat) :
    (p.machineAt o depth).GrowingCalls := p.grows_dispatch (p.grows_invoke o depth)

/-- The body of a function ends before the call does. -/
theorem partOf_call (hname : Builtin.ofName? name = none) (hfind : p.find? name = some f)
    (hnote : (noteCall name vs).run s = (.ok (), t)) :
    PartOf ((p.machineAt o depth).block f.body) { t with scope := [f.frame vs] }
      (p.dispatch (p.invoke o (depth + 1)) name vs) s := by
  have hinvoke : PartOf ((p.machineAt o depth).block f.body) { t with scope := [f.frame vs] }
      (p.invoke o (depth + 1) f vs) t := by
    refine ⟨?_, fun stop hstray hstop => ?_⟩
    · show _ <+: (((resultOf _).run _).2).heap.lengths
      rw [snd_run_resultOf]
      exact List.prefix_rfl
    · exact stopsWith_resultOf hstray hstop
  simp only [Program.dispatch, hname, hfind]
  exact .rest hnote (hinvoke.first fun v => (grows_noteValue _ _ v).bind fun _ => grows_pure v)

/-- A form that a run gets to is a part of the run. -/
theorem Reaches.partOf {s₀ : State} {waiting : List Waiting} {e : Expr}
    (h : p.Reaches o s₀ depth waiting f s e) :
    PartOf ((p.machineAt o depth).step e) s (p.run o) s₀ := by
  induction h with
  | @start depth f s s' before rest e hcalls hfind hnote hbody hcomes =>
    obtain ⟨_, u, hmain, hnote⟩ := exists_run_of_bind hnote
    have hend := hcomes.partOf (p.growing_machineAt o depth) rest
    rw [← hbody] at hend
    refine .rest hmain (.first ?_ fun v => (grows_note _ _).bind fun _ => grows_pure v)
    rw [Program.call, hcalls]
    exact hend.trans (partOf_call rfl hfind hnote)
  | part _ henters ih => exact (henters.partOf (p.growing_machineAt o _)).trans ih
  | @call depth waiting f g s s₁ s₂ s' span name args before rest e vs _ hvalues hname hfind hnote
      hbody hcomes ih =>
    -- the statement is a part of the body, the body of the call, and the call of the caller's form
    have hend := hcomes.partOf (p.growing_machineAt o depth) rest
    rw [← hbody] at hend
    refine PartOf.trans ?_ ih
    exact .rest hvalues ((hend.trans (partOf_call hname hfind hnote)).first fun _ => grows_pure _)

end Program

end Scriptlet
