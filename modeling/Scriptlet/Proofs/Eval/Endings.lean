import Scriptlet.CommandLine
import Scriptlet.Proofs.Eval.Astray
import Scriptlet.Proofs.Eval.Input

/-!
# How runs end

A run of a program ends with a value, with an error that is defined or at a bound, unless it goes
astray.  The programs that checking accepts may go astray: a function that ends without its result
gives a unit, whatever its type says, a name may stand for another variable than the one that checking
took it for, and a line of the input, or of what is printed or traced, may be refused.  Settled programs
have none but the last, and regular ones do not even stop where no number is found.  The command line
turns every other end of a run into an exit status.
-/

namespace Scriptlet

open Run

/-! ## Settled programs -/

namespace Program

variable {p : Program} {trace : Trace}

/-- A run ends with a value of the type, with a fault, where no number is found, at a bound, or because
a line is refused. -/
def EndsSettled (result : Ty) : Except Stop Value × State → Prop
  | (.ok v, s) => ∃ S, s.heap.Typed S ∧ v.HasTy S result
  | (.error stop, _) => (∃ fault, stop = .fault fault) ∨
      (∃ kind, stop = .breach (.notAnInt kind)) ∨ stop = .tooDeep ∨ stop = .outOfRounds ∨
      stop.IsRefusal

theorem endsSettled_of_safe {act : Run Value} {s : State} {S : List Ty} {Xs : List (List String)}
    {Δ : Scope Ty} {t : Ty}
    (h : Safe act s (State.Gives S Xs Δ t) (fun _ _ => False) fun b => ∃ kind, b = .notAnInt kind) :
    EndsSettled t (act.run s) := by
  unfold Safe at h
  rcases hrun : act.run s with ⟨stop | v, s'⟩ <;> rw [hrun] at h
  · cases stop with
    | returned | unitOrder | rangeEnd | noPlace => exact absurd h id
    | fault fault => exact .inl ⟨fault, rfl⟩
    | breach b =>
      obtain ⟨kind, rfl⟩ := h
      exact .inr (.inl ⟨kind, rfl⟩)
    | tooDeep => exact .inr (.inr (.inl rfl))
    | outOfRounds => exact .inr (.inr (.inr (.inl rfl)))
    | overlong | unprintable | untraceable => exact .inr (.inr (.inr (.inr trivial)))
  · obtain ⟨S', -, hs', hv⟩ := h
    exact ⟨S', hs'.heap, hv⟩

/-- How runs of accepted programs that are settled end. -/
theorem WellTyped.endsSettled (h : p.WellTyped) (hsettled : p.Settled trace) (calls rounds : Nat)
    (console : Console) (log : Trace) :
    ∃ main, p.find? "main" = some main ∧
      EndsSettled (Ty.ofRef? main.result)
        ((p.run { calls, rounds }).run { console, trace := log }) := by
  have hstart : State.Fits [] [[]] Scope.empty { console, trace := log } :=
    ⟨Heap.typed_empty, Scope.Fits.nil.push⟩
  obtain ⟨main, hmain, -⟩ := h.main
  exact ⟨main, hmain, endsSettled_of_safe
    (safe_run_of h hsettled (.inl fun kind => ⟨kind, rfl⟩) rfl hmain hstart)⟩

/-- Runs of accepted programs that are settled go astray only where a line is refused. -/
theorem WellTyped.isRefusal_of_goesAstray (h : p.WellTyped) (hsettled : p.Settled trace)
    (calls rounds : Nat) (console : Console) (log : Trace) {stop : Stop}
    (hastray : p.GoesAstray { calls, rounds } { console, trace := log } stop) : stop.IsRefusal := by
  have hproper := hastray.not_isProper
  have hstop := (stopsWith_run_iff hproper).2 hastray
  obtain ⟨main, -, hend⟩ := h.endsSettled hsettled calls rounds console log
  rcases hrun : (p.run { calls, rounds }).run { console, trace := log } with ⟨stop' | v, t⟩ <;>
    rw [StopsWith, hrun] at hstop
  · obtain rfl : stop' = stop := Except.error.inj hstop
    rw [hrun] at hend
    obtain ⟨fault, rfl⟩ | ⟨kind, rfl⟩ | rfl | rfl | hrefusal := hend
    case inr.inr.inr.inr => exact hrefusal
    all_goals exact absurd trivial hproper
  · cases hstop

end Program

/-! ## The command line -/

/-- Checking changes nothing but the trace. -/
theorem Program.snd_checkNoted (p : Program) (s : State) :
    (p.checkNoted s).2 = { s with trace := (p.checkNoted s).2.trace } := rfl

namespace CommandLine

/-- Only where a run went astray, or was out of rounds, the program ends without an exit status. -/
theorem exists_of_crash {source : String} {x : Execution} {why : Crash}
    (h : (ofExecution source x).ending = .crash why) :
    ∃ stop, x.outcome = .error (.stopped stop) ∧ why = .stopped stop ∧
      (stop = .outOfRounds ∨ ¬ stop.IsProper) := by
  unfold ofExecution at h
  cases houtcome : x.outcome with
  | ok v =>
    rw [houtcome] at h
    cases h
  | error failure =>
    rw [houtcome] at h
    cases failure with
    | malformed e => cases h
    | illTyped ds => cases h
    | stopped stop =>
      refine ⟨stop, rfl, ?_⟩
      cases stop with
      | fault | breach | tooDeep => cases h
      | outOfRounds => exact ⟨(Ending.crash.inj h).symm, .inl rfl⟩
      | returned | unitOrder | rangeEnd | noPlace | overlong | unprintable | untraceable =>
        exact ⟨(Ending.crash.inj h).symm, .inr id⟩

/-- A program that was read is checked, and then run unless only checking was asked for. -/
theorem runSource_eq {o : Options} {settings : Settings} {text input : String} {p : Program}
    (hread : Program.ofLexemes? parseDepth
      (Scan.lexemes (String.ofList (Text.unifyLineEnds text.toList))) = some (.ok p)) :
    runSource o settings text input =
      ofExecution (String.ofList (Text.unifyLineEnds text.toList))
        (p.checkThen (Pipeline.initial input o.verbosity) (afterCheck o settings p)) := by
  -- What was read is named first, so that nothing tries to compute it.
  delta runSource
  conv_lhs => zeta
  generalize Program.ofLexemes? parseDepth
    (Scan.lexemes (String.ofList (Text.unifyLineEnds text.toList))) = read at hread ⊢
  rw [hread]

/-- Why the program ends without an exit status, once a program is read. -/
theorem exists_of_runSource {o : Options} {settings : Settings} {text input : String} {p : Program}
    (hread : Program.ofLexemes? parseDepth
      (Scan.lexemes (String.ofList (Text.unifyLineEnds text.toList))) = some (.ok p))
    {why : Crash} (h : (runSource o settings text input).ending = .crash why) :
    ∃ log stop, why = .stopped stop ∧ (stop = .outOfRounds ∨ ¬ stop.IsProper) ∧
      StopsWith (p.run settings) { console := .ofInput input, trace := log } stop := by
  rw [runSource_eq hread] at h
  obtain ⟨stop, houtcome, rfl, hstop⟩ := exists_of_crash h
  rw [Program.checkThen] at houtcome
  rcases hchecked : p.checkNoted (Pipeline.initial input o.verbosity) with ⟨_ | ⟨d, ds⟩, s⟩ <;>
    rw [hchecked] at houtcome
  · have hs : s = { console := .ofInput input, trace := s.trace } := by
      have hnoted := p.snd_checkNoted (Pipeline.initial input o.verbosity)
      rw [hchecked] at hnoted
      exact hnoted
    refine ⟨s.trace, stop, rfl, hstop, ?_⟩
    rw [← hs]
    simp only [afterCheck] at houtcome
    split at houtcome
    · cases houtcome
    · rcases hrun : (p.run settings).run s with ⟨stop' | v, t⟩ <;>
        rw [Program.execute, hrun] at houtcome
      · cases houtcome
        rw [StopsWith, hrun]
      · cases houtcome
  · cases houtcome

end CommandLine

/-! ## Every accepted program -/

/-- Whatever the input, a run of an accepted program ends with a value, with an error that is defined
or at a bound, unless it goes astray, and then it stops there.  If the program is settled, only a line
that is refused leads it astray.  The command line answers with an exit status, unless the run goes
astray or is out of rounds. -/
theorem Program.run_ends (p : Program) (trace : Trace) (haccepted : (p.check trace).1 = [])
    (calls rounds : Nat) (console : Console) (log : Trace) :
    (∀ stop, StopsWith (p.run { calls, rounds }) { console, trace := log } stop →
      stop.IsProper ∨ p.GoesAstray { calls, rounds } { console, trace := log } stop) ∧
    (∀ stop, p.GoesAstray { calls, rounds } { console, trace := log } stop →
      ¬ stop.IsProper ∧ StopsWith (p.run { calls, rounds }) { console, trace := log } stop) ∧
    (p.Settled trace →
      ∃ main, p.find? "main" = some main ∧
        EndsSettled (Ty.ofRef? main.result)
          ((p.run { calls, rounds }).run { console, trace := log })) ∧
    ∀ (o : CommandLine.Options) (text input : String),
      Program.ofLexemes? CommandLine.parseDepth
        (Scan.lexemes (String.ofList (Text.unifyLineEnds text.toList))) = some (.ok p) →
      (∃ status, (CommandLine.runSource o { calls, rounds } text input).ending = .exit status) ∨
      (CommandLine.runSource o { calls, rounds } text input).ending =
        .crash (.stopped .outOfRounds) ∨
      ∃ log stop, (p.Settled trace → stop.IsRefusal) ∧
        p.GoesAstray { calls, rounds } { console := .ofInput input, trace := log } stop ∧
        (CommandLine.runSource o { calls, rounds } text input).ending = .crash (.stopped stop) := by
  have h := Program.check_eq_nil.1 haccepted
  refine ⟨fun stop hstop => ?_, fun stop hastray => ?_, fun hsettled => ?_, ?_⟩
  · by_cases hproper : stop.IsProper
    · exact .inl hproper
    · exact .inr ((stopsWith_run_iff hproper).1 hstop)
  · have hproper : ¬ stop.IsProper := hastray.not_isProper
    exact ⟨hproper, (stopsWith_run_iff hproper).2 hastray⟩
  · exact h.endsSettled hsettled calls rounds console log
  · intro o text input hread
    cases hend : (CommandLine.runSource o { calls, rounds } text input).ending with
    | exit status => exact .inl ⟨status, rfl⟩
    | crash why =>
      right
      -- an end without a status is that of the run: out of rounds, or a stop that is not proper
      obtain ⟨log, stop, rfl, rfl | hproper, hstop⟩ := CommandLine.exists_of_runSource hread hend
      · exact .inl rfl
      · have hastray := (stopsWith_run_iff hproper).1 hstop
        exact .inr ⟨log, stop, fun hsettled =>
          h.isRefusal_of_goesAstray hsettled _ _ _ _ hastray, hastray, rfl⟩

/-- A loop over a range that has no steps: `for (b in false..true) {}`. -/
def Program.loopsOverTruth : Program where
  span := .zero
  functions := [{
    span := .zero
    name := "main"
    params := []
    result := none
    body := [.forIn .zero "b" (.binary .zero .range (.bool .zero false) (.bool .zero true)) []] }]

theorem Program.settled_loopsOverTruth : loopsOverTruth.Settled ⟨0, #[]⟩ where
  forms := by
    intro f c e hvisits
    cases hvisits with
    | @body known c₁ _ before rest _ es es' e₀ _ _ hfunctions hbody hvisits =>
      have hf : f ∈ loopsOverTruth.functions := by simp [hfunctions]
      obtain rfl := List.mem_singleton.1 hf
      have he₀ : e₀ ∈ es ++ e₀ :: es' := by simp
      rw [← hbody] at he₀
      obtain rfl := List.mem_singleton.1 he₀
      -- the loop, its range and the two ends of it
      cases hvisits.within with
      | self =>
        intro x hx
        cases hx
      | part hmem hwithin =>
        obtain rfl := List.mem_singleton.1 hmem
        cases hwithin with
        | self => trivial
        | part hmem hwithin =>
          obtain rfl | rfl : _ ∨ _ := by simpa [Expr.parts] using hmem
          all_goals
            cases hwithin with
            | self => trivial
            | part hmem _ => cases hmem
  returns := by
    intro f hf hresult
    obtain rfl := List.mem_singleton.1 hf
    exact absurd rfl hresult
  tidy := by
    intro f hf
    obtain rfl := List.mem_singleton.1 hf
    rfl

theorem Program.run_ends_loopsOverTruth :
    (loopsOverTruth.check ⟨0, #[]⟩).1 = [] ∧ loopsOverTruth.Settled ⟨0, #[]⟩ ∧
      ∃ main, loopsOverTruth.find? "main" = some main ∧
        EndsSettled (Ty.ofRef? main.result)
          ((loopsOverTruth.run ⟨1, 0, .shared⟩).run { trace := ⟨0, #[]⟩ }) := by
  have haccepted : (loopsOverTruth.check ⟨0, #[]⟩).1 = [] := rfl
  exact ⟨haccepted, settled_loopsOverTruth,
    (loopsOverTruth.run_ends ⟨0, #[]⟩ haccepted 1 0 {} ⟨0, #[]⟩).2.2.1 settled_loopsOverTruth⟩

/-- A function of this name, with these parameters, result and body. -/
def Fun.plain (name : String) (params : List Param) (result : Option String) (body : List Expr) :
    Fun where
  span := .zero
  name := name
  params := params
  result := result.map (.simple .zero)
  body := body

/-- `fun f(): Int {}` and `val b = f() < f()`. -/
def Program.comparesUnits : Program where
  span := .zero
  functions := [
    .plain "f" [] "Int" [],
    .plain "main" [] none [
      .declare .zero false "b" (.binary .zero .less (.call .zero "f" []) (.call .zero "f" []))]]

/-- `fun f(): Char {}` and `for (c in 'a'..f()) {}`. -/
def Program.rangesToUnit : Program where
  span := .zero
  functions := [
    .plain "f" [] "Char" [],
    .plain "main" [] none [
      .forIn .zero "c" (.binary .zero .range (.char .zero 'a') (.call .zero "f" [])) []]]

/-- `val x = println()`, and in a block of its own `val b = false && t(var x = 1)` and
`val c = x < x`. -/
def Program.skipsDeclaration : Program where
  span := .zero
  functions := [
    .plain "t" [⟨.zero, "u", .simple .zero "Unit"⟩] "Boolean" [.returnValue .zero (.bool .zero true)],
    .plain "main" [] none [
      .declare .zero false "x" (.call .zero "println" []),
      .branch .zero (.bool .zero true) [
        .declare .zero false "b" (.binary .zero .and (.bool .zero false)
          (.call .zero "t" [.declare .zero true "x" (.int .zero 1)])),
        .declare .zero false "c" (.binary .zero .less (.var .zero "x") (.var .zero "x"))] []]]

/-- `val x = 1`, and for `i` in `0..1` both `val b = x < x` and `val x = println()`. -/
def Program.hidesInLoop : Program where
  span := .zero
  functions := [
    .plain "main" [] none [
      .declare .zero false "x" (.int .zero 1),
      .forIn .zero "i" (.binary .zero .range (.int .zero 0) (.int .zero 1)) [
        .declare .zero false "b" (.binary .zero .less (.var .zero "x") (.var .zero "x")),
        .declare .zero false "x" (.call .zero "println" [])]]]

/-- `val n = readlnInt()`. -/
def Program.readsNumber : Program where
  span := .zero
  functions := [
    .plain "main" [] none [.declare .zero false "n" (.call .zero "readlnInt" [])]]

/-- Too many digits in its line stop it. -/
theorem Program.stopsWith_readsNumber {line : String} (h : Text.IsOverlong line) :
    StopsWith (readsNumber.run ⟨1, 0, .shared⟩)
      { console := ⟨[line], ""⟩, trace := ⟨0, #[]⟩ } .overlong := by
  refine (stopsWith_run_iff id).2 ?_
  have hcomes : (readsNumber.machineAt ⟨1, 0, .shared⟩ 0).Comes []
      (.declare .zero false "n" (.call .zero "readlnInt" []))
      { console := ⟨[line], ""⟩, trace := ⟨0, #[]⟩, scope := [[]] } _ := ⟨_, rfl, rfl⟩
  have hdeclare : readsNumber.Reaches ⟨1, 0, .shared⟩
      { console := ⟨[line], ""⟩, trace := ⟨0, #[]⟩ } 0 [] _ _ _ := .start rfl rfl rfl rfl hcomes
  have hcall := hdeclare.part (.declared rfl)
  exact .point hcall (.call rfl (.refused rfl rfl (.readlnInt rfl h)))

/-- `for (c in '\uD7FF'..'\uE000') { print(c) }`, where the second element is a surrogate. -/
def Program.printsGap : Program where
  span := .zero
  functions := [
    .plain "main" [] none [
      .forIn .zero "c" (.binary .zero .range (.char .zero '\uD7FF') (.char .zero '\uE000'))
        [.call .zero "print" [.var .zero "c"]]]]

/-- Accepted programs go astray in every way.  Each condition on settled programs is needed: the first
two have a function that ends without its result, the third declares inside of an operand, and the
fourth declares in a loop what its own first lines read.  In the last two a line is refused that is
read, printed or traced. -/
theorem Program.accepted_astray :
    ((comparesUnits.check ⟨0, #[]⟩).1 = [] ∧
      StopsWith (comparesUnits.run ⟨2, 0, .shared⟩) { trace := ⟨0, #[]⟩ } .unitOrder) ∧
    ((rangesToUnit.check ⟨0, #[]⟩).1 = [] ∧
      StopsWith (rangesToUnit.run ⟨2, 0, .shared⟩) { trace := ⟨0, #[]⟩ } .rangeEnd) ∧
    ((skipsDeclaration.check ⟨0, #[]⟩).1 = [] ∧
      StopsWith (skipsDeclaration.run ⟨2, 0, .shared⟩) { trace := ⟨0, #[]⟩ } .unitOrder) ∧
    ((hidesInLoop.check ⟨0, #[]⟩).1 = [] ∧
      StopsWith (hidesInLoop.run ⟨2, 0, .shared⟩) { trace := ⟨0, #[]⟩ } .unitOrder) ∧
    ((readsNumber.check ⟨0, #[]⟩).1 = [] ∧
      StopsWith (readsNumber.run ⟨1, 0, .shared⟩)
        { console := .ofInput (Text.nines 4301), trace := ⟨0, #[]⟩ } .overlong) ∧
    (printsGap.check ⟨0, #[]⟩).1 = [] ∧
      StopsWith (printsGap.run ⟨1, 0, .shared⟩) { trace := ⟨0, #[]⟩ } .unprintable ∧
      StopsWith (printsGap.run ⟨1, 0, .shared⟩) { trace := ⟨3, #[]⟩ } (.untraceable 3) := by
  have hlong := Text.isOverlong_iff.2 (Text.overlong_nines (k := 4301) (by decide))
  refine ⟨⟨rfl, rfl⟩, ⟨rfl, rfl⟩, ⟨rfl, rfl⟩, ⟨rfl, rfl⟩, ⟨rfl, ?_⟩, rfl, ?_, ?_⟩
  · rw [Console.ofInput_nines (by decide)]
    exact stopsWith_readsNumber hlong
  · rw [StopsWith]
    decide +kernel
  · rw [StopsWith]
    decide +kernel

end Scriptlet
