import Scriptlet.Proofs.Eval.Proper

/-!
# Where runs go astray

A run may stop in a way that no error is defined for.  A form does so only if it does by itself, or if
what it gets to does (`Machine.Blames`): a form by itself may compare two units, loop over a range from
a character to something else, note a value that the trace refuses, or call a function whose arguments,
result or lines are refused.  A run goes astray exactly if it gets to such a form, or if the call that
it starts with is refused.
-/

namespace Scriptlet

open Run

variable {s t : State} {stop : Stop}

/-! ## Forms -/

namespace Run

/-- What goes astray where a value is wanted. -/
theorem StopsWith.of_asValue {e : Expr} {act : Run Effect} (hstray : stop.IsStray)
    (h : StopsWith (asValue e act) s stop) :
    ∃ t, (announceStatement e).run s = (.ok (), t) ∧ StopsWith act t stop := by
  have hstop := hstray.not_isProper
  obtain ⟨_, t, hannounce, h⟩ := h.behind hstop (proper_announceStatement e)
  rcases h.of_bind with h | ⟨effect, u, -, h⟩
  · exact ⟨t, hannounce, h⟩
  · rcases effect with v | (_ | v)
    · exact absurd h not_stopsWith_pure
    · exact absurd h not_stopsWith_pure
    · obtain rfl : Stop.returned v = stop := Except.error.inj h
      exact absurd hstray id

theorem StopsWith.of_asStatement {e : Expr} {act : Run Effect} (hstop : ¬ stop.IsProper)
    (h : StopsWith (asStatement e act) s stop) :
    ∃ t, (announce e).run s = (.ok (), t) ∧ StopsWith act t stop := by
  obtain ⟨_, t, hannounce, h⟩ := h.behind hstop (proper_note _ _)
  rcases h.of_bind with h | ⟨effect, u, -, h⟩
  · exact ⟨t, hannounce, h⟩
  · cases effect with
    | value => exact absurd h not_stopsWith_pure
    | completed => exact absurd h not_stopsWith_pure

/-- The round of a loop that stops. -/
theorem StopsWith.of_eachValue {body : Value → Run Completion} {vs : List Value}
    (h : StopsWith (eachValue body vs) s stop) :
    ∃ done w todo t, vs = done ++ w :: todo ∧ (eachValue body done).run s = (.ok .normal, t) ∧
      StopsWith (body w) t stop := by
  induction vs generalizing s with
  | nil => exact absurd h not_stopsWith_pure
  | cons v vs ih =>
    rcases h.of_andThen with h | ⟨t, hfirst, h⟩
    · exact ⟨[], v, vs, s, rfl, rfl, h⟩
    · obtain ⟨done, w, todo, u, rfl, hdone, h⟩ := ih h
      exact ⟨v :: done, w, todo, u, rfl, (run_andThen hfirst _).trans hdone, h⟩

/-- A round stops at its start if the trace refuses its element. -/
theorem stopsWith_roundFor {v : Value} (hkept : s.trace.keeps 3 = true)
    (hshows : s.heap.ShowsSurrogate v) (name : String) (body : Run Completion) :
    StopsWith (roundFor name body v) s (.untraceable 3) :=
  .bind ((stopsWith_noteValue_iff id).2 ⟨hkept, hshows, rfl⟩) _

end Run

namespace Machine

/-- A form that is run goes astray by itself: it compares two units, it loops over a range from a
character to something else, or the trace refuses a value that it notes. -/
inductive Strays (m : Machine) (s : State) : Expr → Stop → Prop
  | units {span : Span} {op : BinOp} {l r : Expr} {t u : State} :
      op = .less ∨ op = .greater → (m.eval l).run s = (.ok .unit, t) →
      (m.eval r).run t = (.ok .unit, u) → Strays m s (.binary span op l r) .unitOrder
  | range {span : Span} {name : String} {iterable : Expr} {body : List Expr} {c : CodePoint}
      {b : Value} {t : State} :
      (m.eval iterable).run s = (.ok (.range (.char c) b), t) → (∀ c', b ≠ .char c') →
      Strays m s (.forIn span name iterable body) .rangeEnd
  | declared {span : Span} {mutable : Bool} {name : String} {value : Expr} {v : Value} {t : State} :
      (m.eval value).run s = (.ok v, t) → t.trace.keeps 2 = true → t.heap.ShowsSurrogate v →
      Strays m s (.declare span mutable name value) (.untraceable 2)
  | condition {span : Span} {cond : Expr} {body otherwise : List Expr} {c : Value} {t : State} :
      (m.eval cond).run s = (.ok c, t) → t.trace.keeps 3 = true → t.heap.ShowsSurrogate c →
      Strays m s (.branch span cond body otherwise) (.untraceable 3)
  | element {span : Span} {name : String} {iterable : Expr} {body : List Expr} {v w : Value}
      {items : Items} {done todo : List Value} {s₁ s₂ t : State} :
      m.forScope = .shared → (m.eval iterable).run s = (.ok v, s₁) →
      v.elements.run s₁ = (.ok items, s₂) → items.toList = done ++ w :: todo →
      (eachValue (roundFor name (m.block body)) done).run { s₂ with scope := s₂.scope.push } =
        (.ok .normal, t) →
      t.trace.keeps 3 = true → t.heap.ShowsSurrogate w →
      Strays m s (.forIn span name iterable body) (.untraceable 3)
  | freshElement {span : Span} {name : String} {iterable : Expr} {body : List Expr} {v w : Value}
      {items : Items} {done todo : List Value} {s₁ s₂ t : State} :
      m.forScope = .fresh → (m.eval iterable).run s = (.ok v, s₁) →
      v.elements.run s₁ = (.ok items, s₂) → items.toList = done ++ w :: todo →
      (eachValue (fun v => inBlock (roundFor name (m.block body) v)) done).run s₂ =
        (.ok .normal, t) →
      t.trace.keeps 3 = true → t.heap.ShowsSurrogate w →
      Strays m s (.forIn span name iterable body) (.untraceable 3)

/-- Where it comes from that a form goes astray: from itself, from a form that it gets to, or from a
call. -/
inductive Blames (m : Machine) (s : State) (stop : Stop) : Expr → Prop
  | self {e : Expr} : m.Strays s e stop → Blames m s stop e
  | part {e e' : Expr} {s' : State} :
      m.Enters s e s' e' → StopsWith (m.step e') s' stop → Blames m s stop e
  | call {span : Span} {name : String} {args : List Expr} {vs : List Value} {t : State} :
      (m.values args).run s = (.ok vs, t) → StopsWith (m.call name vs) t stop →
      Blames m s stop (.call span name args)

variable {m : Machine} {e : Expr} {es : List Expr}

theorem Strays.isStray (h : m.Strays s e stop) : stop.IsStray := by
  cases h <;> trivial

/-- A form that goes astray by itself does so when it is run. -/
theorem Strays.stopsWith (h : m.Strays s e stop) : StopsWith (m.step e) s stop := by
  cases h with
  | @units span op l r t u hop hleft hright =>
    -- neither comparison is decided by its left operand, so both units are compared
    have hshortcut : op.shortcut? .unit = none := by
      rcases hop with rfl | rfl <;> rfl
    have hcombine : (op.combine .unit .unit).run u = (.error .unitOrder, u) := by
      rcases hop with rfl | rfl <;> rfl
    show ((m.eval l >>= _).run s).1 = _
    rw [run_bind_ok hleft]
    simp only [hshortcut]
    show ((m.eval r >>= _).run t).1 = _
    rw [run_bind_ok hright, run_bind_error hcombine]
  | @range span name iterable body c b t hiterable hb =>
    have helements : (Value.range (.char c) b).elements.run t = (.error .rangeEnd, t) := by
      cases b with
      | char c' => exact absurd rfl (hb c')
      | int | bool | str | unit | array | range => rfl
    show ((m.eval iterable >>= _).run s).1 = _
    rw [run_bind_ok hiterable, run_bind_error helements]
  | @declared span mutable name value v t hvalue hkept hshows =>
    have hdeclare : (Run.declare name v).run t =
        (.ok (), { t with scope := t.scope.declare name v }) := rfl
    refine .rest hvalue (.rest hdeclare (.bind ?_ _))
    exact (stopsWith_noteValue_iff id).2 ⟨hkept, hshows, rfl⟩
  | condition hcond hkept hshows =>
    exact .rest hcond (.bind ((stopsWith_noteValue_iff id).2 ⟨hkept, hshows, rfl⟩) _)
  | @element _ name _ body _ w _ _ todo _ _ _ hshared hiterable helements hitems hdone hkept hshows =>
    -- the rounds before the one for `w` ended normally
    refine .rest hiterable (.rest helements (.bind ?_ _))
    rw [hshared, forLoop, each_eq, hitems]
    have hround := stopsWith_roundFor hkept hshows name (m.block body)
    exact .inBlock (.of_run_eq (run_eachValue_append hdone _) (.bind hround _))
  | @freshElement _ name _ body _ w _ _ todo _ _ t hfresh hiterable helements hitems hdone hkept
      hshows =>
    refine .rest hiterable (.rest helements (.bind ?_ _))
    rw [hfresh, forLoop, each_eq, hitems]
    have hround := stopsWith_roundFor (s := { t with scope := t.scope.push }) hkept hshows name
      (m.block body)
    exact .of_run_eq (run_eachValue_append hdone _) (.bind hround.inBlock _)

/-- The statement of a block that goes astray. -/
theorem exists_of_block (hstop : ¬ stop.IsProper) (h : StopsWith (m.block es) s stop) :
    ∃ before e rest s', es = before ++ e :: rest ∧ m.Comes before e s s' ∧
      StopsWith (m.step e) s' stop := by
  induction es generalizing s with
  | nil => exact absurd h not_stopsWith_pure
  | cons e es ih =>
    rcases h.of_andThen with h | ⟨t, hfirst, h⟩
    · obtain ⟨t, hannounce, h⟩ := h.of_asStatement hstop
      exact ⟨[], e, es, t, rfl, ⟨s, rfl, hannounce⟩, h⟩
    · obtain ⟨before, e', rest, s', rfl, ⟨u, hbefore, hannounce⟩, h⟩ := ih h
      exact ⟨e :: before, e', rest, s', rfl, ⟨u, (run_andThen hfirst _).trans hbefore, hannounce⟩, h⟩

/-- The argument that goes astray. -/
theorem exists_of_values (hstray : stop.IsStray) (h : StopsWith (m.values es) s stop) :
    ∃ before e rest vs t s', es = before ++ e :: rest ∧ (m.values before).run s = (.ok vs, t) ∧
      (announceStatement e).run t = (.ok (), s') ∧ StopsWith (m.step e) s' stop := by
  induction es generalizing s with
  | nil => exact absurd h not_stopsWith_pure
  | cons e es ih =>
    rcases h.of_bind with h | ⟨v, t, hfirst, h⟩
    · obtain ⟨t, hannounce, h⟩ := h.of_asValue hstray
      exact ⟨[], e, es, [], s, t, rfl, rfl, hannounce, h⟩
    · obtain ⟨before, e', rest, vs, u, s', rfl, hbefore, hannounce, h⟩ :=
        ih (h.before hstray.not_isProper fun _ => proper_pure _)
      refine ⟨e :: before, e', rest, v :: vs, u, s', rfl, ?_, hannounce, h⟩
      exact (run_bind_ok hfirst _).trans (run_bind_ok hbefore _)

/-- The round of a loop that goes astray, in its condition or in its body. -/
theorem exists_of_whileTrue {cond : Expr} {body : List Expr} {k left : Nat} {s₀ : State}
    (hstop : ¬ stop.IsProper) (hrounds : m.Rounds cond body k s₀ s)
    (h : StopsWith (whileTrue (m.eval cond) (m.block body) left) s stop) :
    ∃ k' t, k' < k + left ∧ m.Rounds cond body k' s₀ t ∧
      (StopsWith (m.eval cond) t stop ∨
        ∃ c t₁ t₂, (m.eval cond).run t = (.ok c, t₁) ∧ c.truth = true ∧
          (note 3 "while iteration").run t₁ = (.ok (), t₂) ∧
          StopsWith (inBlock (m.block body)) t₂ stop) := by
  -- The rounds that are left get fewer, and those that are done get more.
  induction left generalizing k s with
  | zero => exact (h.not_proper hstop (proper_throw trivial)).elim
  | succ left ih =>
    rcases h.of_bind with h | ⟨c, t₁, hcond, h⟩
    · exact ⟨k, s, by omega, hrounds, .inl h⟩
    · split at h
      · next htruth =>
        obtain ⟨_, t₂, hnote, h⟩ := h.behind hstop (proper_note _ _)
        rcases h.of_andThen with h | ⟨t₃, hbody, h⟩
        · exact ⟨k, s, by omega, hrounds, .inr ⟨c, t₁, t₂, hcond, htruth, hnote, h⟩⟩
        · obtain ⟨k', t, hk', hend⟩ := ih (hrounds.more hcond htruth hnote hbody) h
          exact ⟨k', t, by omega, hend⟩
      · exact absurd h not_stopsWith_pure

/-- A round that goes astray: its element is refused by the trace, or one of its statements does. -/
theorem exists_of_roundFor {name : String} {v : Value} (hstop : ¬ stop.IsProper)
    (h : StopsWith (roundFor name (m.block es) v) s stop) :
    (s.trace.keeps 3 = true ∧ s.heap.ShowsSurrogate v ∧ stop = .untraceable 3) ∨
    ∃ before e rest t s', es = before ++ e :: rest ∧
      (roundFor name (m.block before) v).run s = (.ok .normal, t) ∧
      (announce e).run t = (.ok (), s') ∧ StopsWith (m.step e) s' stop := by
  rcases h.of_bind with h | ⟨_, t₁, hnote, h⟩
  · exact .inl ((stopsWith_noteValue_iff hstop).1 h)
  · obtain ⟨_, t₂, hdeclare, h⟩ := h.behind hstop (proper_modify _)
    obtain ⟨before, e, rest, s', rfl, ⟨u, hbefore, hannounce⟩, h⟩ := exists_of_block hstop h
    refine .inr ⟨before, e, rest, u, s', rfl, ?_, hannounce, h⟩
    exact (run_bind_ok hnote _).trans ((run_bind_ok hdeclare _).trans hbefore)

/-- A form that goes astray does so by itself, or because of something that it gets to. -/
theorem blames_of_stopsWith (hstray : stop.IsStray) (h : StopsWith (m.step e) s stop) :
    m.Blames s stop e := by
  have hstop := hstray.not_isProper
  cases e with
  | int | bool | char | str | returnUnit => exact absurd h not_stopsWith_pure
  | var span name =>
    exact (h.not_proper hstop ((proper_lookup name).bind fun _ => proper_pure _)).elim
  | index span base position =>
    obtain ⟨container, t, hlookup, h⟩ := h.behind hstop (proper_lookup _)
    obtain ⟨u, hannounce, h⟩ := (h.before hstop fun i =>
      (Value.proper_elementAt container i).bind fun _ => proper_pure _).of_asValue hstray
    exact .part (.index hlookup hannounce) h
  | neg span e =>
    obtain ⟨t, hannounce, h⟩ := (h.before hstop fun v =>
      (proper_expectInt v).bind fun _ => proper_pure _).of_asValue hstray
    exact .part (.neg hannounce) h
  | not span e =>
    obtain ⟨t, hannounce, h⟩ := (h.before hstop fun _ => proper_pure _).of_asValue hstray
    exact .part (.not hannounce) h
  | parens span e =>
    obtain ⟨t, hannounce, h⟩ := (h.before hstop fun _ => proper_pure _).of_asValue hstray
    exact .part (.parens hannounce) h
  | returnValue span e =>
    obtain ⟨t, hannounce, h⟩ := (h.before hstop fun _ => proper_pure _).of_asValue hstray
    exact .part (.returned hannounce) h
  | binary span op l r =>
    -- the left operand, the right operand or the operation itself
    rcases h.of_bind with h | ⟨a, t, hleft, h⟩
    · obtain ⟨t, hannounce, h⟩ := h.of_asValue hstray
      exact .part (.left hannounce) h
    · cases hshortcut : op.shortcut? a with
      | some v =>
        rw [hshortcut] at h
        exact absurd h not_stopsWith_pure
      | none =>
        rw [hshortcut] at h
        rcases h.of_bind with h | ⟨b, u, hright, h⟩
        · obtain ⟨u, hannounce, h⟩ := h.of_asValue hstray
          exact .part (.right hleft hshortcut hannounce) h
        · obtain ⟨hop, rfl, rfl, rfl⟩ :=
            BinOp.units_of_combine hstop (h.before hstop fun _ => proper_pure _)
          exact .self (.units hop hleft hright)
  | call span name args =>
    rcases h.of_bind with h | ⟨vs, t, hvalues, h⟩
    · obtain ⟨before, e, rest, vs, t, s', rfl, hbefore, hannounce, h⟩ := exists_of_values hstray h
      exact .part (.argument hbefore hannounce) h
    · exact .call hvalues (h.before hstop fun _ => proper_pure _)
  | declare span mutable name value =>
    rcases h.of_bind with h | ⟨v, t, hvalue, h⟩
    · obtain ⟨t, hannounce, h⟩ := h.of_asValue hstray
      exact .part (.declared hannounce) h
    · obtain ⟨_, u, hdeclare, h⟩ := h.behind hstop (proper_modify _)
      cases hdeclare
      obtain ⟨hkept, hshows, rfl⟩ :=
        (stopsWith_noteValue_iff hstop).1 (h.before hstop fun _ => proper_pure _)
      exact .self (.declared hvalue hkept hshows)
  | assign span name value =>
    obtain ⟨t, hannounce, h⟩ := (h.before hstop fun v =>
      (proper_assign name v).bind fun _ => proper_pure _).of_asValue hstray
    exact .part (.assigned hannounce) h
  | store span target base position value =>
    obtain ⟨container, t, hlookup, h⟩ := h.behind hstop (proper_lookup _)
    rcases h.of_bind with h | ⟨i, u, hposition, h⟩
    · obtain ⟨u, hannounce, h⟩ := h.of_asValue hstray
      exact .part (.position hlookup hannounce) h
    · obtain ⟨w, hannounce, h⟩ := (h.before hstop fun v =>
        (Value.proper_storeAt _ container i v).bind fun _ => proper_pure _).of_asValue hstray
      exact .part (.stored hlookup hposition hannounce) h
  | branch span cond body otherwise =>
    rcases h.of_bind with h | ⟨c, t₁, hcond, h⟩
    · obtain ⟨t, hannounce, h⟩ := h.of_asValue hstray
      exact .part (.tested hannounce) h
    · rcases h.of_bind with h | ⟨_, t₂, hnote, h⟩
      · obtain ⟨hkept, hshows, rfl⟩ := (stopsWith_noteValue_iff hstop).1 h
        exact .self (.condition hcond hkept hshows)
      · split at h
        · next htruth =>
          obtain ⟨before, e, rest, s', rfl, hcomes, h⟩ :=
            exists_of_block hstop (h.before hstop fun _ => proper_pure _).of_inBlock
          exact .part (.taken hcond htruth hnote hcomes) h
        · next htruth =>
          obtain ⟨before, e, rest, s', rfl, hcomes, h⟩ :=
            exists_of_block hstop (h.before hstop fun _ => proper_pure _).of_inBlock
          exact .part (.otherwise hcond (by simpa using htruth) hnote hcomes) h
  | forIn span name iterable body =>
    -- what is looped over, finding its elements, or a statement of a round
    rcases h.of_bind with h | ⟨v, t₁, hiterable, h⟩
    · obtain ⟨t, hannounce, h⟩ := h.of_asValue hstray
      exact .part (.iterable hannounce) h
    · rcases h.of_bind with h | ⟨items, t₂, helements, h⟩
      · obtain ⟨c, b, rfl, hb, rfl⟩ := Value.range_of_elements hstop h
        exact .self (.range hiterable hb)
      · -- rounds share one block, or each has its own
        have hloop := h.before hstop fun _ => proper_pure _
        cases hscope : m.forScope with
        | shared =>
          rw [hscope, forLoop, each_eq] at hloop
          obtain ⟨done, w, todo, t₃, hitems, hdone, h⟩ := hloop.of_inBlock.of_eachValue
          obtain ⟨hkept, hshows, rfl⟩ | ⟨before, e, rest, t₄, s', rfl, hround, hannounce, h⟩ :=
            exists_of_roundFor hstop h
          · exact .self (.element hscope hiterable helements hitems hdone hkept hshows)
          · exact .part (.round hscope hiterable helements hitems hdone hround hannounce) h
        | fresh =>
          rw [hscope, forLoop, each_eq] at hloop
          obtain ⟨done, w, todo, t₃, hitems, hdone, h⟩ := hloop.of_eachValue
          obtain ⟨hkept, hshows, rfl⟩ | ⟨before, e, rest, t₄, s', rfl, hround, hannounce, h⟩ :=
            exists_of_roundFor hstop h.of_inBlock
          · exact .self (.freshElement hscope hiterable helements hitems hdone hkept hshows)
          · exact .part (.freshRound hscope hiterable helements hitems hdone hround hannounce) h
  | loop span cond body =>
    have hloop := h.before hstop fun _ => proper_pure _
    obtain ⟨k, t, hk, hrounds, h | ⟨c, t₁, t₂, hcond, htruth, hnote, h⟩⟩ :=
      exists_of_whileTrue hstop .none hloop
    · obtain ⟨u, hannounce, h⟩ := h.of_asValue hstray
      exact .part (.held hrounds (by omega) hannounce) h
    · obtain ⟨before, e, rest, s', rfl, hcomes, h⟩ := exists_of_block hstop h.of_inBlock
      exact .part (.repeated hrounds (by omega) hcond htruth hnote hcomes) h

end Machine

/-! ## Programs -/

namespace Program

variable {p : Program} {o : Settings} {depth : Nat}

/-- A call goes astray by itself: the trace refuses its arguments or its result, or a built-in
function refuses a line. -/
inductive CallStrays (p : Program) (user : Fun → List Value → Run Value) (name : String)
    (vs : List Value) (s : State) : Stop → Prop
  | noted : Builtin.ofName? name ≠ none ∨ p.find? name ≠ none → s.trace.keeps 2 = true →
      s.heap.texts? vs ≠ none → (∃ v ∈ vs, s.heap.ShowsSurrogate v) →
      CallStrays p user name vs s (.untraceable 2)
  | refused {b : Builtin} {t : State} {stop : Stop} :
      Builtin.ofName? name = some b → (noteCall ("builtin " ++ name) vs).run s = (.ok (), t) →
      b.Refuses vs t stop → CallStrays p user name vs s stop
  | result {f : Fun} {v : Value} {t u : State} :
      Builtin.ofName? name = none → p.find? name = some f →
      (noteCall name vs).run s = (.ok (), t) → (user f vs).run t = (.ok v, u) →
      u.trace.keeps 2 = true → u.heap.ShowsSurrogate v → CallStrays p user name vs s (.untraceable 2)

theorem CallStrays.isRefusal {user : Fun → List Value → Run Value} {name : String}
    {vs : List Value} (h : p.CallStrays user name vs s stop) : stop.IsRefusal := by
  cases h with
  | noted | result => trivial
  | refused _ _ hrefuses => exact hrefuses.isRefusal

/-- A call that goes astray by itself does so when it is made. -/
theorem CallStrays.stopsWith {user : Fun → List Value → Run Value} {name : String}
    {vs : List Value} (h : p.CallStrays user name vs s stop) :
    StopsWith (p.dispatch user name vs) s stop := by
  unfold Program.dispatch
  cases h with
  | noted hfound hkept hsome hshows =>
    have hnote : ∀ what, StopsWith (noteCall what vs) s (.untraceable 2) := fun what =>
      (stopsWith_noteCall_iff id).2 ⟨hkept, hsome, hshows, rfl⟩
    cases hname : Builtin.ofName? name with
    | some b => exact (hnote _).bind _
    | none =>
      cases hfind : p.find? name with
      | some f => exact (hnote _).bind _
      | none =>
        obtain hfound | hfound := hfound
        · exact absurd hname hfound
        · exact absurd hfind hfound
  | refused hname hnote hrefuses =>
    rw [hname]
    exact .rest hnote ((Builtin.stopsWith_apply_iff hrefuses.isRefusal.isStray.not_isProper).2 hrefuses)
  | result hname hfind hnote huser hkept hshows =>
    rw [hname, hfind]
    exact .rest hnote (.rest huser
      (.bind ((stopsWith_noteValue_iff id).2 ⟨hkept, hshows, rfl⟩) _))

/-- A call that stops in a way that no error is defined for goes astray by itself or in the body of a
function. -/
theorem exists_of_dispatch {name : String} {vs : List Value} (hstop : ¬ stop.IsProper)
    (h : StopsWith (p.dispatch (p.invoke o depth) name vs) s stop) :
    p.CallStrays (p.invoke o depth) name vs s stop ∨
    stop.IsStray ∧ ∃ depth' f t, depth = depth' + 1 ∧ Builtin.ofName? name = none ∧
      p.find? name = some f ∧ (noteCall name vs).run s = (.ok (), t) ∧
      StopsWith ((p.machineAt o depth').block f.body) { t with scope := [f.frame vs] } stop := by
  cases hname : Builtin.ofName? name with
  | some b =>
    simp only [Program.dispatch, hname] at h
    left
    rcases h.of_bind with h | ⟨_, t, hnote, h⟩
    · obtain ⟨hkept, hsome, hshows, rfl⟩ := (stopsWith_noteCall_iff hstop).1 h
      exact .noted (.inl (hname ▸ Option.some_ne_none b)) hkept hsome hshows
    · exact .refused hname hnote ((Builtin.stopsWith_apply_iff hstop).1 h)
  | none =>
    cases hfind : p.find? name with
    | none =>
      simp only [Program.dispatch, hname, hfind] at h
      exact (h.not_proper hstop (proper_throw trivial)).elim
    | some f =>
      simp only [Program.dispatch, hname, hfind] at h
      rcases h.of_bind with h | ⟨_, t, hnote, h⟩
      · obtain ⟨hkept, hsome, hshows, rfl⟩ := (stopsWith_noteCall_iff hstop).1 h
        exact .inl (.noted (.inr (hfind ▸ Option.some_ne_none f)) hkept hsome hshows)
      · rcases h.of_bind with hinvoke | ⟨v, u, huser, h⟩
        · cases depth with
          | zero => exact (hinvoke.not_proper hstop (proper_throw trivial)).elim
          | succ depth =>
            -- the body cannot have stopped with a `return`: the call would have caught it
            obtain ⟨hbody, hreturned⟩ := hinvoke.of_inCall.of_resultOf
            refine .inr ⟨?_, depth, f, t, rfl, rfl, rfl, hnote, hbody⟩
            cases stop with
            | returned v => exact absurd rfl (hreturned v)
            | fault | breach | tooDeep | outOfRounds => exact absurd trivial hstop
            | unitOrder | rangeEnd | noPlace | overlong | unprintable | untraceable => trivial
        · obtain ⟨hkept, hshows, rfl⟩ :=
            (stopsWith_noteValue_iff hstop).1 (h.before hstop fun _ => proper_pure v)
          exact .inl (.result hname hfind hnote huser hkept hshows)

/-- A form that is run goes astray by itself, or the call that it makes does. -/
inductive Strays (p : Program) (o : Settings) (depth : Nat) (s : State) : Expr → Stop → Prop
  | form {e : Expr} {stop : Stop} :
      (p.machineAt o depth).Strays s e stop → Strays p o depth s e stop
  | call {span : Span} {name : String} {args : List Expr} {vs : List Value} {t : State}
      {stop : Stop} :
      ((p.machineAt o depth).values args).run s = (.ok vs, t) →
      p.CallStrays (p.invoke o depth) name vs t stop → Strays p o depth s (.call span name args) stop

theorem Strays.isStray {e : Expr} (h : p.Strays o depth s e stop) : stop.IsStray := by
  cases h with
  | form h => exact h.isStray
  | call _ h => exact h.isRefusal.isStray

theorem Strays.stopsWith {e : Expr} (h : p.Strays o depth s e stop) :
    StopsWith ((p.machineAt o depth).step e) s stop := by
  cases h with
  | form h => exact h.stopsWith
  | call hvalues h => exact .rest hvalues (.bind h.stopsWith _)

/-- The run gets to a form that goes astray by itself, or the call that it starts with does. -/
inductive GoesAstray (p : Program) (o : Settings) (s₀ : State) (stop : Stop) : Prop
  | point {depth : Nat} {waiting : List Waiting} {f : Fun} {s : State} {e : Expr} :
      p.Reaches o s₀ depth waiting f s e → p.Strays o depth s e stop → GoesAstray p o s₀ stop
  | main {s : State} :
      (note 1 "run: main").run s₀ = (.ok (), s) →
      p.CallStrays (p.invoke o o.calls) "main" [] s stop → GoesAstray p o s₀ stop

theorem GoesAstray.isStray {s₀ : State} (h : p.GoesAstray o s₀ stop) : stop.IsStray := by
  cases h with
  | point _ hstrays => exact hstrays.isStray
  | main _ hstrays => exact hstrays.isRefusal.isStray

theorem GoesAstray.not_isProper {s₀ : State} (h : p.GoesAstray o s₀ stop) : ¬ stop.IsProper :=
  h.isStray.not_isProper

/-- From a form that goes astray, the run gets to one that does so by itself. -/
theorem Reaches.goesAstray {s₀ : State} {waiting : List Waiting} {f : Fun} {e : Expr}
    (hstray : stop.IsStray) (hreach : p.Reaches o s₀ depth waiting f s e)
    (h : StopsWith ((p.machineAt o depth).step e) s stop) : p.GoesAstray o s₀ stop := by
  -- Inside of a form the forms get smaller; at a call they may not, but calls are nested deeper.
  induction depth using Nat.strongRecOn generalizing waiting f s e with
  | ind depth ihdepth =>
    induction e using Expr.induction_parts generalizing s with
    | h e ih =>
      cases Machine.blames_of_stopsWith hstray h with
      | self hstrays => exact .point hreach (.form hstrays)
      | part henters hpart => exact ih _ henters.mem_parts (hreach.part henters) hpart
      | call hvalues hcall =>
        obtain hstrays | ⟨-, depth', g, t, rfl, hname, hfind, hnote, hbody⟩ :=
          exists_of_dispatch hstray.not_isProper hcall
        · exact .point hreach (.call hvalues hstrays)
        · obtain ⟨before, e', rest, s', hparts, hcomes, hpart⟩ :=
            Machine.exists_of_block hstray.not_isProper hbody
          exact ihdepth depth' (Nat.lt_succ_self _)
            (hreach.call hvalues hname hfind hnote hparts hcomes) hpart

/-- A run stops in a way that no error is defined for exactly if it goes astray. -/
theorem stopsWith_run_iff {s₀ : State} (hstop : ¬ stop.IsProper) :
    StopsWith (p.run o) s₀ stop ↔ p.GoesAstray o s₀ stop := by
  constructor
  · intro h
    obtain ⟨_, t, hmain, h⟩ := h.behind hstop (proper_note _ _)
    have hcall := h.before hstop fun v => (proper_note _ _).bind fun _ => proper_pure v
    obtain hstrays | ⟨hstray, depth, f, w, hcalls, -, hfind, hnote, hbody⟩ :=
      exists_of_dispatch hstop hcall
    · exact .main hmain hstrays
    · obtain ⟨before, e, rest, s', hparts, hcomes, h⟩ := Machine.exists_of_block hstop hbody
      have hnoted : (do note 1 "run: main"; noteCall "main" []).run s₀ = (.ok (), w) :=
        (run_bind_ok hmain _).trans hnote
      exact Reaches.goesAstray hstray (.start hcalls hfind hnoted hparts hcomes) h
  · rintro (⟨hreach, hstrays⟩ | ⟨hmain, hstrays⟩)
    · exact hreach.partOf.astray stop hstrays.isStray hstrays.stopsWith
    · exact .rest hmain (.bind hstrays.stopsWith _)

end Program

end Scriptlet
