import Scriptlet.CommandLine
import Scriptlet.Proofs.Grammar.Depth
import Scriptlet.Proofs.Pipeline.Stages
import Scriptlet.Proofs.Rewriting.Bodies

/-!
# The command line runs the pipeline

The command line goes through the stages by itself: it bounds how deep a source may be nested, does
not note how many tokens there are, and turns what comes out into an exit status and messages.  Up to
that it answers with what `Pipeline.runFile` comes to: `CommandLine.answer_agrees`.

Both have bounds of their own.  Where neither comes to a bound, both track a run with the larger
bounds.
-/

namespace Scriptlet

open Run

/-! ## Traces that start later -/

/-- The first trace is the second one with an entry in front, if the entry is kept. -/
structure Trace.Headed (head : TraceEntry) (t t' : Trace) : Prop where
  verbosity : t'.verbosity = t.verbosity
  entries : t.entries.toList =
    (if head.level ≤ t.verbosity then [head] else []) ++ t'.entries.toList

namespace Trace

instance (head : TraceEntry) : Trace.SameLevels (Headed head) where
  write {t t'} level text h := by
    refine ⟨?_, ?_⟩
    · rw [verbosity_write, verbosity_write, h.verbosity]
    · rw [toList_entries_write, toList_entries_write, verbosity_write, h.entries, h.verbosity,
        List.append_assoc]
  verbosity h := h.verbosity

theorem headed_write (v level : Nat) (text : String) :
    Headed ⟨level, text⟩ (write { verbosity := v } level text) { verbosity := v } := by
  refine ⟨(verbosity_write _ _ _).symm, ?_⟩
  rw [toList_entries_write, verbosity_write, List.append_nil]
  rfl

theorem foldl_lines_append (start more : String) (entries : List TraceEntry) :
    entries.foldl (fun acc e => acc ++ e.text ++ "\n") (start ++ more) =
      start ++ entries.foldl (fun acc e => acc ++ e.text ++ "\n") more := by
  induction entries generalizing more with
  | nil => rfl
  | cons e entries ih => rw [List.foldl_cons, List.foldl_cons, String.append_assoc,
      String.append_assoc, ih, String.append_assoc]

/-- The entry in front is the first line. -/
theorem Headed.render? {text : String} {t t' : Trace} (h : Headed ⟨1, text⟩ t t') :
    t.render? = t'.render?.map (text ++ "\n" ++ ·) := by
  rw [Trace.render?, Trace.render?, h.verbosity]
  by_cases hkept : 0 < t.verbosity
  · have hlevel : (TraceEntry.mk 1 text).level ≤ t.verbosity := hkept
    have hentries : t.entries.toList = ⟨1, text⟩ :: t'.entries.toList := by
      rw [h.entries, if_pos hlevel]
      rfl
    have hfirst : "" ++ text ++ "\n" = text ++ "\n" ++ "" := by
      rw [String.empty_append, String.append_empty]
    rw [if_pos hkept, if_pos hkept, Option.map_some, render, render, ← Array.foldl_toList,
      ← Array.foldl_toList, hentries, List.foldl_cons, hfirst, foldl_lines_append]
  · rw [if_neg hkept, if_neg hkept, Option.map_none]

end Trace

/-! ## Runs with bounds of their own -/

/-- A bound of the run was reached. -/
def Excuses.bounds : Excuses := fun stop _ => stop = .tooDeep ∨ stop = .outOfRounds

instance : Excuses.bounds.Final where
  not_returned _ _ h := h.elim nofun nofun

namespace Settings

/-- The larger bounds of two settings. -/
def join (o o' : Settings) : Settings := ⟨max o.calls o'.calls, max o.rounds o'.rounds, o.forScope⟩

theorem tracks_join_left (o o' : Settings) : (o.join o').Tracks .bounds o :=
  ⟨.inr ⟨Nat.le_max_left _ _, fun _ => .inl rfl⟩, .inr ⟨Nat.le_max_left _ _, fun _ => .inr rfl⟩, rfl⟩

theorem tracks_join_right {o o' : Settings} (h : o'.forScope = o.forScope) :
    (o.join o').Tracks .bounds o' :=
  ⟨.inr ⟨Nat.le_max_right _ _, fun _ => .inl rfl⟩, .inr ⟨Nat.le_max_right _ _, fun _ => .inr rfl⟩, h⟩

end Settings

/-- The execution did not stop at a bound. -/
def Execution.InBounds (x : Execution) : Prop :=
  x.outcome ≠ .error (.stopped .tooDeep) ∧ x.outcome ≠ .error (.stopped .outOfRounds)

theorem Execution.Tracks.of_inBounds {T : Trace → Trace → Prop} {x x' : Execution}
    (h : x.Tracks T .bounds x') (hbounds : x'.InBounds) :
    x'.outcome = x.outcome ∧ x.state.Linked T x'.state := by
  rcases h with ⟨stop, hstop, rfl | rfl⟩ | h
  · exact absurd hstop hbounds.1
  · exact absurd hstop hbounds.2
  · exact h

/-- Within their bounds, executions with other bounds and other traces come to the same. -/
theorem Program.checkThen_agree {T : Trace → Trace → Prop} [Trace.SameLevels T] (p : Program)
    {o o' : Settings} (hscope : o'.forScope = o.forScope) {s s' : State} (hs : s.Linked T s')
    (hbounds : (p.checkThen s (p.execute o)).InBounds)
    (hbounds' : (p.checkThen s' (p.execute o')).InBounds) :
    (p.checkThen s' (p.execute o')).outcome = (p.checkThen s (p.execute o)).outcome ∧
      (p.checkThen s (p.execute o)).state.Linked T (p.checkThen s' (p.execute o')).state := by
  -- Both are compared with the execution that has the larger bounds, from where the first one starts.
  have hstart : s.Linked Eq s := ⟨rfl, rfl⟩
  have hleft : (p.checkThen s (p.execute (o.join o'))).Tracks Eq .bounds
      (p.checkThen s (p.execute o)) :=
    p.checkThen_tracks (fun ht => execute_tracks (p.tracks_run (o.tracks_join_left o')) ht) hstart
  have hright : (p.checkThen s (p.execute (o.join o'))).Tracks T .bounds
      (p.checkThen s' (p.execute o')) :=
    p.checkThen_tracks
      (fun ht => execute_tracks (p.tracks_run (Settings.tracks_join_right hscope)) ht) hs
  obtain ⟨houtcome, hstate⟩ := hleft.of_inBounds hbounds
  obtain ⟨houtcome', hlinked⟩ := hright.of_inBounds hbounds'
  rw [houtcome, houtcome', hstate.eq]
  exact ⟨rfl, hlinked⟩

/-! ## The command line -/

namespace CommandLine

variable {o : Options} {settings settings' : Settings} {text input : String}

/-- The text of a file as it is read. -/
def sourceOf (text : String) : String := String.ofList (Text.unifyLineEnds text.toList)

/-- What the command line answers with, once reading has come to an end. -/
def executionOf (o : Options) (settings : Settings) (source input : String) : Execution :=
  match Program.ofSource source with
  | .error e => ⟨.error (.malformed e), Pipeline.initial input o.verbosity⟩
  | .ok p => p.checkThen (Pipeline.initial input o.verbosity) (afterCheck o settings p)

/-- The answer by what was read. -/
theorem runSource_of_read {read : Option (Except SyntaxError Program)}
    (hread : Program.ofLexemes? parseDepth (Scan.lexemes (sourceOf text)) = read) :
    runSource o settings text input = match read with
      | none => { ending := .exit 1, stderr := tooDeep,
                  trace := (Pipeline.initial input o.verbosity).trace.render? }
      | some _ => ofExecution (sourceOf text) (executionOf o settings (sourceOf text) input) := by
  -- What was read is named first, so that nothing tries to compute it.
  delta runSource
  conv_lhs => zeta
  rw [sourceOf] at hread
  cases read with
  | none =>
    generalize Program.ofLexemes? parseDepth
      (Scan.lexemes (String.ofList (Text.unifyLineEnds text.toList))) = found at hread ⊢
    rw [hread]
  | some result =>
    have hsource : Program.ofSource (sourceOf text) = result := Program.ofLexemes_of_some hread
    rw [executionOf, hsource]
    generalize Program.ofLexemes? parseDepth
      (Scan.lexemes (String.ofList (Text.unifyLineEnds text.toList))) = found at hread ⊢
    rw [hread]
    cases result <;> rfl

/-- Unless a source is nested too deep, the depth of nesting does not matter. -/
theorem runSource_eq_ofExecution (h : (runSource o settings text input).stderr ≠ tooDeep) :
    runSource o settings text input =
      ofExecution (sourceOf text) (executionOf o settings (sourceOf text) input) := by
  cases hread : Program.ofLexemes? parseDepth (Scan.lexemes (sourceOf text)) with
  | none =>
    rw [runSource_of_read hread] at h
    exact absurd rfl h
  | some result => exact runSource_of_read hread

/-- The execution stays within its bounds if no bound is reported. -/
theorem inBounds_of_ofExecution {source : String} {x : Execution}
    (hstderr : (ofExecution source x).stderr ≠ tooDeep)
    (hending : (ofExecution source x).ending ≠ .crash (.stopped .outOfRounds)) : x.InBounds := by
  constructor <;> intro houtcome
  · exact hstderr (by rw [ofExecution, houtcome]; rfl)
  · exact hending (by rw [ofExecution, houtcome]; rfl)

/-- The entry that only the pipeline writes. -/
def tokenEntry (source : String) : TraceEntry :=
  ⟨1, "tokenize: " ++ toString (Scan.lexemes source).length ++ " tokens"⟩

/-- Within its bounds, the command line comes to the same as the pipeline. -/
theorem executionOf_agrees (hcheckOnly : o.checkOnly = false)
    (hscope : settings'.forScope = settings.forScope) {source : String}
    (hbounds : (Pipeline.run settings' source input o.verbosity).InBounds)
    (hbounds' : (executionOf o settings source input).InBounds) :
    (executionOf o settings source input).outcome =
        (Pipeline.run settings' source input o.verbosity).outcome ∧
      (Pipeline.run settings' source input o.verbosity).state.Linked
        (Trace.Headed (tokenEntry source)) (executionOf o settings source input).state := by
  have hstart : State.Linked (Trace.Headed (tokenEntry source))
      { Pipeline.initial input o.verbosity with
        trace := (Pipeline.initial input o.verbosity).trace.write 1 (tokenEntry source).text }
      (Pipeline.initial input o.verbosity) := ⟨rfl, Trace.headed_write _ _ _⟩
  have hnext : ∀ p : Program, afterCheck o settings p = p.execute settings := by
    intro p
    funext s
    rw [afterCheck, hcheckOnly]
    rfl
  -- Both read the source before anything else, and an error ends both.
  rw [Pipeline.run, executionOf] at *
  cases hread : Program.ofSource source with
  | error e => exact ⟨rfl, hstart⟩
  | ok p =>
    simp only [hread, hnext] at hbounds hbounds' ⊢
    exact p.checkThen_agree hscope.symm hstart hbounds hbounds'

/-- The answer says what the execution of a source came to. -/
structure Answer.Reports (a : Answer) (source : String) (x : Execution) : Prop where
  /-- The exit status tells whether there is a value. -/
  success : a.ending = .exit 0 ↔ ∃ v, x.outcome = .ok v
  /-- A syntax error is shown at its place, or at the end of the source if it has none. -/
  malformed : ∀ e, x.outcome = .error (.malformed e) → a.ending = .exit 1 ∧
    a.stderr = Report.render source (some (e.span?.getD ⟨source.length, source.length⟩))
      ("syntax error: " ++ e.message) ++ "\n"
  /-- All diagnostics are shown, in order. -/
  illTyped : ∀ ds, x.outcome = .error (.illTyped ds) → a.ending = .exit 1 ∧
    a.stderr = String.join (ds.map fun d => Report.render source (some d.span) d.message ++ "\n")
  fault : ∀ f, x.outcome = .error (.stopped (.fault f)) → a.ending = .exit 1 ∧
    a.stderr = "Runtime error: " ++ f.message ++ "\n"
  breach : ∀ b, x.outcome = .error (.stopped (.breach b)) → a.ending = .exit 1 ∧
    a.stderr = "Internal error: " ++ b.message ++ "\n"
  stdout : a.stdout = x.output
  /-- The trace of the execution has one line more, at its start. -/
  trace : x.trace? = a.trace.map ((tokenEntry source).text ++ "\n" ++ ·)

theorem stdout_ofExecution (source : String) (x : Execution) :
    (ofExecution source x).stdout = x.output := rfl

theorem ending_eq_exit_zero_iff {source : String} {x : Execution} :
    (ofExecution source x).ending = .exit 0 ↔ ∃ v, x.outcome = .ok v := by
  rw [ofExecution]
  rcases x.outcome with (_ | _ | stop) | v
  · exact ⟨nofun, nofun⟩
  · exact ⟨nofun, nofun⟩
  · cases stop <;> exact ⟨nofun, nofun⟩
  · exact ⟨fun _ => ⟨v, rfl⟩, fun _ => rfl⟩

/-- An answer is made from the outcome, so it reports every execution of that outcome. -/
theorem reports_ofExecution {source : String} {x y : Execution} (houtcome : y.outcome = x.outcome)
    (hlinked : x.state.Linked (Trace.Headed (tokenEntry source)) y.state) :
    (ofExecution source y).Reports source x where
  success := by rw [ending_eq_exit_zero_iff, houtcome]
  malformed e he := by rw [ofExecution, houtcome, he]; exact ⟨rfl, rfl⟩
  illTyped ds hds := by rw [ofExecution, houtcome, hds]; exact ⟨rfl, rfl⟩
  fault f hf := by rw [ofExecution, houtcome, hf]; exact ⟨rfl, rfl⟩
  breach b hb := by rw [ofExecution, houtcome, hb]; exact ⟨rfl, rfl⟩
  stdout := by rw [stdout_ofExecution, Execution.output, hlinked.same, Execution.output]
  trace := hlinked.trace.render?

/-! ## Checking only -/

theorem outcome_checkThen_checkOnly (hcheckOnly : o.checkOnly = true) (p : Program) (s : State)
    (trace : Trace) :
    (∃ v, (p.checkThen s (afterCheck o settings p)).outcome = .ok v) ↔ (p.check trace).1 = [] := by
  have haccepted : (p.checkNoted s).1 = [] ↔ (p.check trace).1 = [] :=
    Program.check_eq_nil.trans Program.check_eq_nil.symm
  rw [← haccepted, Program.checkThen]
  rcases p.checkNoted s with ⟨_ | ⟨d, ds⟩, t⟩
  · refine ⟨fun _ => rfl, fun _ => ⟨.unit, ?_⟩⟩
    simp only [afterCheck, hcheckOnly, if_true]
  · constructor
    · rintro ⟨v, hv⟩
      cases hv
    · intro h
      cases h

/-- Where only checking is asked for, the input stays as it is and does not matter. -/
theorem executionOf_checkOnly (hcheckOnly : o.checkOnly = true) (settings : Settings)
    (source input input' : String) :
    executionOf o settings source input' =
      { executionOf o settings source input with
        state := { (executionOf o settings source input).state with
          console := .ofInput input' } } := by
  rw [executionOf, executionOf]
  cases Program.ofSource source with
  | error e => rfl
  | ok p =>
    have hnoted : p.checkNoted (Pipeline.initial input' o.verbosity) =
        ((p.checkNoted (Pipeline.initial input o.verbosity)).1,
          { (p.checkNoted (Pipeline.initial input o.verbosity)).2 with
            console := .ofInput input' }) := rfl
    simp only [Program.checkThen, hnoted]
    rcases p.checkNoted (Pipeline.initial input o.verbosity) with ⟨_ | ⟨d, ds⟩, t⟩
    · simp only [afterCheck, hcheckOnly, if_true]
    · rfl

theorem console_executionOf (hcheckOnly : o.checkOnly = true) (settings : Settings)
    (source input : String) :
    (executionOf o settings source input).state.console = .ofInput input := by
  rw [executionOf_checkOnly hcheckOnly settings source input input]

/-- Of the console an answer has what was printed. -/
theorem ofExecution_console {source : String} {x : Execution} {console : Console}
    (h : console.output = x.output) :
    ofExecution source { x with state := { x.state with console } } = ofExecution source x := by
  have houtput : Execution.output { x with state := { x.state with console } } = x.output := h
  rw [ofExecution, ofExecution, houtput]
  rfl

theorem runSource_checkOnly (hcheckOnly : o.checkOnly = true) (settings : Settings)
    (text input : String) :
    (runSource o settings text input).stdout = "" ∧
      ∀ input', runSource o settings text input' = runSource o settings text input := by
  cases hread : Program.ofLexemes? parseDepth (Scan.lexemes (sourceOf text)) with
  | none =>
    simp only [runSource_of_read hread, true_and]
    exact fun _ => rfl
  | some result =>
    have houtput : (executionOf o settings (sourceOf text) input).output = "" := by
      rw [Execution.output, console_executionOf hcheckOnly]
      rfl
    simp only [runSource_of_read hread]
    refine ⟨(stdout_ofExecution _ _).trans houtput, fun input' => ?_⟩
    rw [executionOf_checkOnly hcheckOnly settings (sourceOf text) input input']
    exact ofExecution_console houtput.symm

/-! ## Answers to arguments -/

theorem answer_eq_runSource {args : List String} {look : Path → Access}
    (hargs : Options.ofArgs args = .ok o) (hlook : look (Path.ofString o.file) = .file text) :
    answer args settings look input = runSource o settings text input := by
  rw [answer, hargs]
  show runFile o settings look input = runSource o settings text input
  rw [runFile, hlook]

/-- The command line answers with what the pipeline comes to, where neither comes to a bound.  Where
only checking is asked for, nothing is printed and nothing is read, and the exit status tells whether
the source is a program that checking accepts. -/
theorem answer_agrees {args : List String} {look : Path → Access}
    (hargs : Options.ofArgs args = .ok o) (hlook : look (Path.ofString o.file) = .file text)
    (settings settings' : Settings) (hscope : settings'.forScope = settings.forScope)
    (input : String) (hdeep : (answer args settings look input).stderr ≠ tooDeep) :
    (o.checkOnly = false →
      (answer args settings look input).ending ≠ .crash (.stopped .outOfRounds) →
      (Pipeline.runFile settings' text input o.verbosity).InBounds →
      (answer args settings look input).Reports (sourceOf text)
        (Pipeline.runFile settings' text input o.verbosity)) ∧
    (o.checkOnly = true →
      (answer args settings look input).stdout = "" ∧
      (∀ input', answer args settings look input' = answer args settings look input) ∧
      (executionOf o settings (sourceOf text) input).state.console = .ofInput input ∧
      ∀ trace, (answer args settings look input).ending = .exit 0 ↔
        ∃ p, Program.ofSource (sourceOf text) = .ok p ∧ (p.check trace).1 = []) := by
  have hanswer : ∀ i, answer args settings look i = runSource o settings text i :=
    fun _ => answer_eq_runSource hargs hlook
  -- The source was read, as no nesting is reported; from here on the depth of reading is gone.
  rw [hanswer] at hdeep
  have hexecution := runSource_eq_ofExecution hdeep
  simp only [hanswer]
  refine ⟨fun hcheckOnly hrounds hbounds => ?_, fun hcheckOnly => ?_⟩
  · rw [hexecution] at hdeep hrounds ⊢
    obtain ⟨houtcome, hlinked⟩ := executionOf_agrees hcheckOnly hscope hbounds
      (inBounds_of_ofExecution hdeep hrounds)
    exact reports_ofExecution houtcome hlinked
  · obtain ⟨hstdout, hinput⟩ := runSource_checkOnly hcheckOnly settings text input
    refine ⟨hstdout, hinput, console_executionOf hcheckOnly settings _ input, fun trace => ?_⟩
    rw [hexecution, ending_eq_exit_zero_iff, executionOf]
    cases Program.ofSource (sourceOf text) with
    | error e => exact ⟨nofun, nofun⟩
    | ok p =>
      simp only [outcome_checkThen_checkOnly hcheckOnly p _ trace, Except.ok.injEq, exists_eq_left']

theorem sourceOf_printsLine : sourceOf "fun main(){println()}" = "fun main(){println()}" := by decide

theorem answer_printsLine {args : List String} (hargs : Options.ofArgs args = .ok o)
    (settings : Settings) (input : String) :
    answer args settings (fun _ => .file "fun main(){println()}") input =
      ofExecution "fun main(){println()}" (Program.printsLine.checkThen
        (Pipeline.initial input o.verbosity) (afterCheck o settings Program.printsLine)) := by
  have hread : Program.ofLexemes? parseDepth (Scan.lexemes (sourceOf "fun main(){println()}")) =
      some (.ok Program.printsLine) := by
    simp only [sourceOf_printsLine]
    exact Program.ofLexemes?_printsLine (by decide)
  rw [answer_eq_runSource hargs rfl, runSource_of_read hread]
  simp only [sourceOf_printsLine, executionOf, Program.ofSource_printsLine]

/-- A program that prints a line, run by the command line and by the pipeline, and only checked. -/
theorem answer_agrees_printsLine :
    let look := fun _ : Path => Access.file "fun main(){println()}"
    let a := answer ["-v", "a.kt"] ⟨1, 0, .shared⟩ look ""
    let b := answer ["--check", "a.kt"] ⟨1, 0, .shared⟩ look ""
    let x := Pipeline.runFile ⟨2, 5, .shared⟩ "fun main(){println()}" "" 1
    (a.stderr ≠ tooDeep ∧ a.ending = .exit 0 ∧ x.InBounds ∧
      a.Reports (sourceOf "fun main(){println()}") x) ∧
    b.stderr ≠ tooDeep ∧ b.ending = .exit 0 ∧ b.stdout = "" := by
  intro look a b x
  have hargs : Options.ofArgs ["-v", "a.kt"] = .ok ⟨1, false, "a.kt"⟩ := by rfl
  have hargs' : Options.ofArgs ["--check", "a.kt"] = .ok ⟨0, true, "a.kt"⟩ := by rfl
  have ha := answer_printsLine hargs ⟨1, 0, .shared⟩ ""
  have hb := answer_printsLine hargs' ⟨1, 0, .shared⟩ ""
  have hending : a.ending = .exit 0 := (congrArg Answer.ending ha).trans rfl
  have hdeep : a.stderr ≠ tooDeep := by
    show (answer _ _ _ _).stderr ≠ tooDeep
    rw [ha]
    decide
  have hdeep' : b.stderr ≠ tooDeep := by
    show (answer _ _ _ _).stderr ≠ tooDeep
    rw [hb]
    decide
  have hbounds : x.InBounds := by
    have hx : x.outcome = .ok .unit := by
      show (Pipeline.run _ (sourceOf "fun main(){println()}") "" 1).outcome = .ok .unit
      simp only [sourceOf_printsLine, Pipeline.run, Program.ofSource_printsLine]
      rfl
    rw [Execution.InBounds, hx]
    exact ⟨nofun, nofun⟩
  obtain ⟨hagrees, -⟩ :=
    answer_agrees hargs (rfl : look _ = _) ⟨1, 0, .shared⟩ ⟨2, 5, .shared⟩ rfl "" hdeep
  obtain ⟨-, hchecks⟩ :=
    answer_agrees hargs' (rfl : look _ = _) ⟨1, 0, .shared⟩ ⟨2, 5, .shared⟩ rfl "" hdeep'
  obtain ⟨hstdout, -, -, hexit⟩ := hchecks rfl
  have hrounds : a.ending ≠ .crash (.stopped .outOfRounds) := by
    rw [hending]
    nofun
  refine ⟨⟨hdeep, hending, hbounds, hagrees rfl hrounds hbounds⟩, hdeep', ?_, hstdout⟩
  refine (hexit ⟨0, #[]⟩).2 ⟨Program.printsLine, ?_, rfl⟩
  simp only [sourceOf_printsLine, Program.ofSource_printsLine]

end CommandLine

end Scriptlet
