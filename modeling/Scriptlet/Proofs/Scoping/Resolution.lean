import Scriptlet.Proofs.Scoping.Points

/-!
# Names in accepted programs

Two things are asked of the names in a program that is accepted: that they stand for something when
they are used, and that it makes no difference whether all rounds of a loop share one frame.  The
first one fails where an operand that is skipped holds a declaration, and only there.  The second
one fails where a name is used that only a round before may have declared in the frame of a loop;
and where in addition no declaration may have been skipped, names are found in the frame in which
checking finds them.
-/

namespace Scriptlet

open Run
open Check (contextOf)

/-! ## Names stand for something -/

/-- The names that a form uses, those of its parts aside, stand for something at the moment they are
used: what is assigned once the operands have been run, all others at once. -/
def Program.NamesStand (p : Program) (m : Machine) (s : State) : Expr → Prop
  | .var _ name => s.scope.get? name ≠ none
  | .index _ base _ => s.scope.get? base.text ≠ none
  | .assign _ name value => ∀ v t, (m.eval value).run s = (.ok v, t) → t.scope.get? name ≠ none
  | .store _ _ base position value =>
    s.scope.get? base.text ≠ none ∧
      ∀ i t v u, (m.eval position).run s = (.ok i, t) → (m.eval value).run t = (.ok v, u) →
        u.scope.get? base.text ≠ none
  | .call _ name _ => Builtin.ofName? name ≠ none ∨ p.find? name ≠ none
  | _ => True

theorem Run.regime_binds : Regime true Outline.binds Stop.KnowsNames where
  admits := fun _ h => h
  alike := fun _ => .inl rfl
  found := .inl

/-- Where every name is bound in the outlines, names stand for something. -/
theorem Machine.Point.namesStand {p : Program} {m : Machine}
    (hm : Pair true Stop.KnowsNames p.Takes m m) {Γ : Context} {Seen : Checking → Expr → Prop}
    {M : List Outline} {F : Outline} {s : State} {e : Expr}
    (h : Point Outline.binds p.Takes Γ Seen M F s e) : p.NamesStand m s e := by
  obtain ⟨huses, hcalls, -, hs⟩ := h
  have hvalue : ∀ {l : Expr} {F : Outline} {s t : State} {v : Value}, l ∈ e.parts →
      l.uses Outline.binds M F = true → s.Alike true (F :: M) s → (m.eval l).run s = (.ok v, t) →
      t.Alike true (l.behind F :: M) t := fun hpart huses hs hrun =>
    ((hm.sideBySide regime_binds _).value regime_binds huses (hcalls.part hpart) hs).self hrun
  cases e with
  | var span name => exact hs.scope.get?_ne_none huses
  | index span base position => exact hs.scope.get?_ne_none (Bool.and_eq_true_iff.1 huses).1
  | assign span name value =>
    obtain ⟨huse, hname⟩ := Bool.and_eq_true_iff.1 huses
    intro v t hrun
    exact (hvalue (by simp [Expr.parts]) huse hs hrun).scope.get?_ne_none hname
  | store span target base position value =>
    simp only [Expr.uses, Bool.and_eq_true] at huses
    obtain ⟨⟨⟨hbase, hposition⟩, hstored⟩, hend⟩ := huses
    -- The container is looked up at the start; a text is assigned again at the end.
    refine ⟨hs.scope.get?_ne_none hbase, ?_⟩
    intro i t v u hindex hrun
    have ht := hvalue (by simp [Expr.parts]) hposition hs hindex
    exact (hvalue (by simp [Expr.parts]) hstored ht hrun).scope.get?_ne_none hend
  | call span name args =>
    rcases hcalls span name args .self with ⟨b, hb⟩ | ⟨f, hf, -⟩
    · exact .inl (by simp [hb])
    · exact .inr (by simp [hf])
  | _ => trivial

/-- In a program that is accepted, and in which no operand that may be skipped declares anything, no
run stops at a variable or a function that does not exist: whatever the input, each name stands for
something when it is used. -/
theorem Program.run_knows_names (p : Program) (trace : Trace) (haccepted : (p.check trace).1 = [])
    (hsteady : p.isSteady = true) (calls rounds : Nat) (console : Console) (log : Trace) :
    (∀ stop s, (p.run { calls, rounds }).run { console, trace := log } = (.error stop, s) →
      stop.KnowsNames) ∧
    ∀ depth waiting f s e,
      p.Reaches { calls, rounds } { console, trace := log } depth waiting f s e →
      p.NamesStand (p.machineAt { calls, rounds } depth) s e := by
  have h := Program.check_eq_nil.1 haccepted
  have huses := h.uses_binds hsteady
  have ho : Settings.Pair true { calls, rounds } { calls, rounds } := ⟨rfl, rfl, rfl, rfl⟩
  constructor
  · intro stop s hrun
    exact (Program.run_eq h regime_binds huses ho).2.admitted _ stop s hrun
  · intro depth waiting f s e hreach
    obtain ⟨M, F, hpoint⟩ := hreach.point h regime_binds huses ho trace
    exact hpoint.namesStand (ho.machines regime_binds.admits
      (Program.sameInvoke h regime_binds huses ho depth))

/-- A function that takes `Unit`, as declarations have that type: `fun t(u: Unit): Boolean` with
`return true`. -/
def Fun.takesUnit : Fun where
  span := .zero
  name := "t"
  params := [⟨.zero, "u", .simple .zero "Unit"⟩]
  result := some (.simple .zero "Boolean")
  body := [.returnValue .zero (.bool .zero true)]

/-- A declaration in an operand of `&&`, then `x = 5` and `return x`. -/
def Program.declaresInOperand (operands : Expr) : Program where
  span := .zero
  functions := [.takesUnit, {
    span := .zero
    name := "main"
    params := []
    result := some (.simple .zero "Int")
    body := [
      .declare .zero false "b" operands,
      .assign .zero "x" (.int .zero 5),
      .returnValue .zero (.var .zero "x")] }]

/-- The call `t(var x = 1)`. -/
def Expr.declaringCall : Expr := .call .zero "t" [.declare .zero true "x" (.int .zero 1)]

/-- The operand that is always run may declare: `t(var x = 1) && false`. -/
def Program.declaresLeft : Program :=
  .declaresInOperand (.binary .zero .and .declaringCall (.bool .zero false))

/-- The operand that is skipped declares: `false && t(var x = 1)`. -/
def Program.declaresRight : Program :=
  .declaresInOperand (.binary .zero .and (.bool .zero false) .declaringCall)

theorem Program.run_knows_names_declaresLeft :
    (declaresLeft.check ⟨0, #[]⟩).1 = [] ∧ declaresLeft.isSteady = true ∧
      ∀ stop s, (declaresLeft.run ⟨2, 1, .shared⟩).run { trace := ⟨0, #[]⟩ } = (.error stop, s) →
        stop.KnowsNames := by
  have haccepted : (declaresLeft.check ⟨0, #[]⟩).1 = [] := rfl
  have hsteady : declaresLeft.isSteady = true := rfl
  exact ⟨haccepted, hsteady,
    (declaresLeft.run_knows_names ⟨0, #[]⟩ haccepted hsteady 2 1 {} ⟨0, #[]⟩).1⟩

/-- The condition on operands is needed: checking comes across the declaration, and the run does
not. -/
theorem Program.declaresRight_undefined :
    (declaresRight.check ⟨0, #[]⟩).1 = [] ∧
      ((declaresRight.run ⟨2, 1, .shared⟩).run { trace := ⟨0, #[]⟩ }).1 =
        .error (.breach (.undefinedTarget "x")) := by
  exact ⟨rfl, rfl⟩

/-! ## Frames of loops -/

/-- The name that a form reads before it runs its operands. -/
def Expr.reads? : Expr → Option String
  | .var _ name => some name
  | .index _ base _ | .store _ _ base _ _ => some base.text
  | _ => none

/-- A name that stands for something is declared in some frame. -/
theorem Scope.exists_depth? {α : Type} {sc : Scope α} {x : String} {v : α}
    (h : sc.get? x = some v) : ∃ d, sc.depth? x = some d := by
  induction sc with
  | nil => cases h
  | cons G sc ih =>
    rw [Scope.get?, List.findSome?_cons] at h
    rw [Scope.depth?]
    by_cases hG : G.has x = true
    · exact ⟨sc.length, if_pos hG⟩
    · have hnone : G.get? x = none := by simpa [Frame.has] using hG
      rw [hnone] at h
      rw [if_neg hG]
      exact ih h

/-- Where a name is bound before there is any doubt, it is declared in the same frame of all scopes
that have the outlines. -/
theorem Scope.Matches.depth?_eq {α β : Type} {M : List Outline} {sc : Scope α} {Δ : Scope β}
    {x : String} (hsc : sc.Matches M) (hΔ : Δ.Matches M) (hx : Outline.sharp M x = true) :
    sc.depth? x = Δ.depth? x := by
  induction M generalizing sc Δ with
  | nil =>
    cases hsc
    cases hΔ
    rfl
  | cons F M ih =>
    cases hsc with
    | @cons _ _ G _ sc _ hG hsc =>
      cases hΔ with
      | @cons _ _ D _ Δ _ hD hΔ =>
        have hlength : sc.length = Δ.length := by rw [hsc.length_eq, hΔ.length_eq]
        have hG := hG x
        have hD := hD x
        rw [Scope.depth?, Scope.depth?, Frame.has, Frame.has]
        cases hF : F x with
        | bound =>
          rw [hF] at hG hD
          rw [if_pos (Option.isSome_iff_ne_none.2 hG.2), if_pos (Option.isSome_iff_ne_none.2 hD.2),
            hlength]
        | absent =>
          rw [hF] at hG hD
          rw [hG.1, hD.1]
          exact ih hsc hΔ (by simpa [Outline.sharp, hF] using hx)
        | unsure | stale => simp [Outline.sharp, hF] at hx

/-- A name that a form reads is known where the form is checked. -/
theorem Check.Fine.get?_of_reads {Γ : Context} {c : Checking} {e : Expr} {x : String}
    (h : Check.Fine Γ c e) (hx : e.reads? = some x) : ∃ t, c.scope.get? x = some t := by
  obtain ⟨t, -, ⟨Δ', htyped⟩, -⟩ := Check.unique_type_of_fine h
  cases htyped with
  | var hget => exact ⟨_, Option.some.inj hx ▸ hget⟩
  | index hget _ _ => exact ⟨_, Option.some.inj hx ▸ hget⟩
  | store hget _ _ _ => exact ⟨_, Option.some.inj hx ▸ hget⟩
  | _ => cases hx

/-- A name that a form reads satisfies what is asked of all names that are used. -/
theorem Expr.ok_of_reads {ok : List Outline → String → Bool} {M : List Outline} {F : Outline}
    {e : Expr} {x : String} (h : e.uses ok M F = true) (hx : e.reads? = some x) :
    ok (F :: M) x = true := by
  cases e with
  | var span name => exact Option.some.inj hx ▸ h
  | index span base position => exact Option.some.inj hx ▸ (Bool.and_eq_true_iff.1 h).1
  | store span target base position value =>
    simp only [Expr.uses, Bool.and_eq_true] at h
    exact Option.some.inj hx ▸ h.1.1.1
  | _ => cases hx

theorem Run.regime_clean : Regime false Outline.clean fun _ => True where
  admits := fun _ _ => trivial
  alike := .inr
  found := fun _ => .inr ⟨trivial, trivial⟩

theorem Run.regime_sharp : Regime true Outline.sharp fun _ => True where
  admits := fun _ _ => trivial
  alike := fun _ => .inl rfl
  found := fun _ => .inr ⟨trivial, trivial⟩

/-- In a program that is accepted, and in which no name is used that only a round before may have
declared in the frame of a loop, it makes no difference whether the rounds of a loop share a frame:
value or error, output and all else that a run leaves are the same.  If moreover no name is used
whose declaration may have been skipped, or not yet run in a round, then every name is read from the
frame in which checking found it. -/
theorem Program.run_forScope_eq (p : Program) (trace : Trace) (haccepted : (p.check trace).1 = [])
    (hclean : p.uses Outline.clean = true) (calls rounds : Nat) (console : Console) (log : Trace) :
    (p.run { calls, rounds, forScope := .fresh }).run { console, trace := log } =
      (p.run { calls, rounds, forScope := .shared }).run { console, trace := log } ∧
    (p.uses Outline.sharp = true → ∀ depth waiting f s e x,
      p.Reaches { calls, rounds, forScope := .shared } { console, trace := log } depth waiting f s
        e →
      e.reads? = some x → ∃ c d, p.Visits trace f c e ∧
        c.scope.depth? x = some d ∧ s.scope.depth? x = some d) := by
  have h := Program.check_eq_nil.1 haccepted
  constructor
  · have ho : Settings.Pair false ⟨calls, rounds, .shared⟩ ⟨calls, rounds, .fresh⟩ :=
      ⟨rfl, rfl, rfl, rfl⟩
    rw [(Program.run_eq h regime_clean hclean ho).1]
  · intro hsharp depth waiting f s e x hreach hx
    have ho : Settings.Pair true ⟨calls, rounds, .shared⟩ ⟨calls, rounds, .shared⟩ :=
      ⟨rfl, rfl, rfl, rfl⟩
    obtain ⟨M, F, huses, -, ⟨c, hfine, hmatches, hseen⟩, hs⟩ :=
      hreach.point h regime_sharp hsharp ho trace
    -- Checking finds the name in some frame, and the run has frames of the same outlines.
    obtain ⟨t, hget⟩ := hfine.get?_of_reads hx
    obtain ⟨d, hd⟩ := Scope.exists_depth? hget
    refine ⟨c, d, hseen c e .here, hd, ?_⟩
    rw [Scope.Matches.depth?_eq hs.scope hmatches (Expr.ok_of_reads huses hx), hd]

/-- A loop whose body reads and declares a name from outside: `val x = 1` and `var r = 0`, then
`body` for `i` in `0 .. 1`, then `return r`. -/
def Program.loopOver (body : List Expr) : Program where
  span := .zero
  functions := [{
    span := .zero
    name := "main"
    params := []
    result := some (.simple .zero "Int")
    body := [
      .declare .zero false "x" (.int .zero 1),
      .declare .zero true "r" (.int .zero 0),
      .forIn .zero "i" (.binary .zero .range (.int .zero 0) (.int .zero 1)) body,
      .returnValue .zero (.var .zero "r")] }]

/-- The body declares before it reads: `val x = 2` and `r = x`. -/
def Program.declaresFirst : Program :=
  .loopOver [.declare .zero false "x" (.int .zero 2), .assign .zero "r" (.var .zero "x")]

/-- The body reads before it declares: `r = x` and `val x = 2`. -/
def Program.readsFirst : Program :=
  .loopOver [.assign .zero "r" (.var .zero "x"), .declare .zero false "x" (.int .zero 2)]

theorem Program.run_forScope_eq_declaresFirst :
    (declaresFirst.check ⟨0, #[]⟩).1 = [] ∧ declaresFirst.uses Outline.clean = true ∧
      declaresFirst.uses Outline.sharp = true ∧
      (declaresFirst.run ⟨1, 1, .fresh⟩).run { trace := ⟨0, #[]⟩ } =
        (declaresFirst.run ⟨1, 1, .shared⟩).run { trace := ⟨0, #[]⟩ } := by
  have haccepted : (declaresFirst.check ⟨0, #[]⟩).1 = [] := rfl
  have hclean : declaresFirst.uses Outline.clean = true := rfl
  exact ⟨haccepted, hclean, rfl,
    (declaresFirst.run_forScope_eq ⟨0, #[]⟩ haccepted hclean 1 1 {} ⟨0, #[]⟩).1⟩

/-- The condition on names is needed: in its second round the shared frame holds what the first
round declared, where checking means the variable outside. -/
theorem Program.readsFirst_differs :
    (readsFirst.check ⟨0, #[]⟩).1 = [] ∧
      ((readsFirst.run ⟨1, 1, .shared⟩).run { trace := ⟨0, #[]⟩ }).1 = .ok (.int 2) ∧
      ((readsFirst.run ⟨1, 1, .fresh⟩).run { trace := ⟨0, #[]⟩ }).1 = .ok (.int 1) := by
  exact ⟨rfl, rfl, rfl⟩

end Scriptlet
