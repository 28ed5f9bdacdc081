import Scriptlet.Proofs.Eval.Endings

/-!
# Type safety

A program that is accepted and regular does not go wrong: at every point of a run variables hold values
of their types, and the run ends with a value of the declared type or with a fault, bounds on calls and
rounds aside (`Program.run_safe`).

There is one exception.  A line may be refused: too many digits for a number in a line of the input, or
a surrogate in a line that is printed or traced.  The run stops there, and no error is defined for it
(`Program.readsNumber_overlong`).
-/

namespace Scriptlet

open Run

/-- A run ends with a value of the type, a fault, or at a bound on the run. -/
def Program.EndsWell (result : Ty) : Except Stop Value × State → Prop
  | (.ok v, s) => ∃ S, s.heap.Typed S ∧ v.HasTy S result
  | (.error stop, _) => (∃ fault, stop = .fault fault) ∨ stop = .tooDeep ∨ stop = .outOfRounds

/-- A safe run ends well unless a line is refused. -/
theorem Program.endsWell_or_of_safe {act : Run Value} {s : State} {S : List Ty}
    {Xs : List (List String)} {Δ : Scope Ty} {t : Ty}
    (h : Safe act s (State.Gives S Xs Δ t) fun _ _ => False) :
    Program.EndsWell t (act.run s) ∨ ∃ stop : Stop, stop.IsRefusal ∧ StopsWith act s stop := by
  unfold Safe at h
  unfold StopsWith
  rcases hrun : act.run s with ⟨stop | v, s'⟩ <;> rw [hrun] at h
  · cases stop with
    | returned | breach | unitOrder | rangeEnd | noPlace => exact absurd h id
    | fault fault => exact .inl (.inl ⟨fault, rfl⟩)
    | tooDeep => exact .inl (.inr (.inl rfl))
    | outOfRounds => exact .inl (.inr (.inr rfl))
    | overlong | unprintable | untraceable =>
      refine .inr ⟨_, ?_, rfl⟩
      trivial
  · obtain ⟨S', -, hs', hv⟩ := h
    exact .inl ⟨S', hs'.heap, hv⟩

/-- A run does not end well where a line is refused. -/
theorem Stop.IsRefusal.not_endsWell {act : Run Value} {s : State} {stop : Stop}
    (hrefusal : stop.IsRefusal) (h : StopsWith act s stop) (result : Ty) :
    ¬ Program.EndsWell result (act.run s) := by
  intro hend
  unfold StopsWith at h
  rcases hrun : act.run s with ⟨stop' | v, t⟩ <;> rw [hrun] at h hend
  · obtain rfl : stop' = stop := Except.error.inj h
    obtain ⟨fault, rfl⟩ | rfl | rfl := hend <;> exact hrefusal
  · cases h

/-- A program that is accepted and regular runs safely.  Whatever the input, a run ends with a value
of the declared type or with a fault, bounds on calls and rounds aside, unless it gets to a point where
a line is refused; and at every point of the run variables hold values of their types. -/
theorem Program.run_safe (p : Program) (trace : Trace) (haccepted : (p.check trace).1 = [])
    (hregular : p.Regular trace) (calls rounds : Nat) (console : Console) (log : Trace) :
    (∃ main, p.find? "main" = some main ∧
      (Program.EndsWell (Ty.ofRef? main.result)
          ((p.run { calls, rounds }).run { console, trace := log }) ∨
        ∃ stop : Stop, stop.IsRefusal ∧
          p.GoesAstray { calls, rounds } { console, trace := log } stop ∧
          StopsWith (p.run { calls, rounds }) { console, trace := log } stop)) ∧
    ∀ depth waiting f s e, p.Reaches { calls, rounds } { console, trace := log } depth waiting f s e →
      p.PointTyped trace (p.machineAt { calls, rounds } depth) waiting f s e := by
  have h := Program.check_eq_nil.1 haccepted
  have hstart : State.Fits [] [[]] Scope.empty { console, trace := log } :=
    ⟨Heap.typed_empty, Scope.Fits.nil.push⟩
  constructor
  · obtain ⟨main, hmain, -⟩ := h.main
    refine ⟨main, hmain, ?_⟩
    refine (endsWell_or_of_safe (Program.safe_run h hregular rfl hmain hstart)).imp_right ?_
    rintro ⟨stop, hrefusal, hstop⟩
    -- no error is defined for a refusal, so the run went astray where it stopped
    have hproper := hrefusal.isStray.not_isProper
    exact ⟨stop, hrefusal, (stopsWith_run_iff hproper).1 hstop, hstop⟩
  · intro depth waiting f s e hreach
    exact hreach.pointTyped h hregular rfl hstart

/-- An array that a loop writes to: `val a = arrayOf(1, 2)`, then `val x = i + 1` and `a[0] = x` for
`i` in `1 .. 3`, then `return a[0]`. -/
def Program.lastOfLoop : Program where
  span := .zero
  functions := [{
    span := .zero
    name := "main"
    params := []
    result := some (.simple .zero "Int")
    body := [
      .declare .zero false "a" (.call .zero "arrayOf" [.int .zero 1, .int .zero 2]),
      .forIn .zero "i" (.binary .zero .range (.int .zero 1) (.int .zero 3)) [
        .declare .zero false "x" (.binary .zero .add (.var .zero "i") (.int .zero 1)),
        .store .zero .zero ⟨"a", .zero⟩ (.int .zero 0) (.var .zero "x")],
      .returnValue .zero (.index .zero ⟨"a", .zero⟩ (.int .zero 0))] }]

theorem Program.run_safe_lastOfLoop :
    (lastOfLoop.check ⟨0, #[]⟩).1 = [] ∧ lastOfLoop.Regular ⟨0, #[]⟩ ∧
      ∃ main, lastOfLoop.find? "main" = some main ∧
        Program.EndsWell (Ty.ofRef? main.result)
          ((lastOfLoop.run ⟨2, 1, .shared⟩).run { trace := ⟨0, #[]⟩ }) := by
  have haccepted : (lastOfLoop.check ⟨0, #[]⟩).1 = [] := rfl
  have hregular : lastOfLoop.Regular ⟨0, #[]⟩ :=
    Program.regular_of_isRegular (Program.check_eq_nil.1 haccepted) rfl
  obtain ⟨main, hmain, hend⟩ := (lastOfLoop.run_safe ⟨0, #[]⟩ haccepted hregular 2 1 {} ⟨0, #[]⟩).1
  refine ⟨haccepted, hregular, main, hmain, hend.resolve_right ?_⟩
  -- there is no line to refuse: the run returns 4
  rintro ⟨stop, -, -, hstop⟩
  cases hstop

/-- An accepted and regular program does not end well where a line is refused: here it is a line of
nines, of which there is one more than digits are converted. -/
theorem Program.readsNumber_overlong :
    (readsNumber.check ⟨0, #[]⟩).1 = [] ∧ readsNumber.Regular ⟨0, #[]⟩ ∧
      ∃ console : Console, console = .ofInput (Text.nines 4301) ∧
        StopsWith (readsNumber.run ⟨1, 0, .shared⟩) { console, trace := ⟨0, #[]⟩ } .overlong ∧
        ∀ result, ¬ EndsWell result
          ((readsNumber.run ⟨1, 0, .shared⟩).run { console, trace := ⟨0, #[]⟩ }) := by
  have haccepted : (readsNumber.check ⟨0, #[]⟩).1 = [] := rfl
  have hrefusal : Stop.IsRefusal .overlong := trivial
  have hstop := stopsWith_readsNumber (Text.isOverlong_iff.2 (Text.overlong_nines (k := 4301) (by decide)))
  exact ⟨haccepted, Program.regular_of_isRegular (Program.check_eq_nil.1 haccepted) rfl, _,
    (Console.ofInput_nines (by decide)).symm, hstop, hrefusal.not_endsWell hstop⟩

end Scriptlet
