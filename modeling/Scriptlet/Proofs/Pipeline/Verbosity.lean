import Scriptlet.Proofs.Grammar.Depth
import Scriptlet.Proofs.Pipeline.Stages
import Scriptlet.Proofs.Store.Cycles

/-!
# Tracing does not interfere

How much is traced is no matter to what a source comes to, nor to what it prints:
`Pipeline.run_thinned`.  A trace that keeps less has the same entries as one that keeps more, without
those above its level.

There are two things that tracing can fail at, and they are why a run is only said to track the one
that traces less.  The arguments of a call are shown where the trace keeps calls, and an array that
contains itself cannot be shown.  And a line that is kept has to be encoded, which cannot be done where
a surrogate stands in it (`Program.crossesGap_untraceable`).
-/

namespace Scriptlet

open Run

/-! ## Traces of two verbosities -/

/-- The trace as it is with this verbosity. -/
def Trace.upTo (t : Trace) (k : Nat) : Trace := ⟨k, t.entries.filter fun e => e.level ≤ k⟩

/-- The second trace has verbosity `m`, and the first one is how it is with verbosity `k`. -/
structure Trace.Thinned (k m : Nat) (t t' : Trace) : Prop where
  verbosity : t'.verbosity = m
  upTo : t = t'.upTo k

namespace Trace

variable {k m : Nat}

/-- What the larger trace does not keep, the smaller one does not keep either. -/
theorem upTo_write {t : Trace} (hk : k ≤ t.verbosity) (level : Nat) (text : String) :
    (t.write level text).upTo k = (t.upTo k).write level text := by
  -- An entry is kept by both traces, by the larger one only, or by none.
  by_cases hlevel : level ≤ k
  · have hkeeps : level ≤ t.verbosity := Nat.le_trans hlevel hk
    simp [upTo, write, keeps, hlevel, hkeeps]
  · by_cases hkeeps : level ≤ t.verbosity <;> simp [upTo, write, keeps, hlevel, hkeeps]

theorem link_thinned (hkm : k ≤ m) : Trace.Link (Thinned k m) where
  write level text h := by
    refine ⟨(verbosity_write _ _ _).trans h.verbosity, ?_⟩
    rw [h.upTo, upTo_write (h.verbosity ▸ hkm)]

theorem thinned_empty (k m : Nat) : Thinned k m { verbosity := k } { verbosity := m } := ⟨rfl, rfl⟩

end Trace

/-! ## Runs -/

/-- Tracing failed: an array that contains itself was to be shown, or a surrogate stands in a line that
is only kept above level `k`. -/
def Excuses.untraced (k : Nat) : Excuses := fun stop heap =>
  stop = .tooDeep ∧ ¬ heap.Acyclic ∨ ∃ level, k < level ∧ stop = .untraceable level

instance (k : Nat) : (Excuses.untraced k).Final where
  not_returned _ _ h := h.elim (nomatch ·.1) fun ⟨_, _, hstop⟩ => nomatch hstop

section

variable {k m level : Nat} {s s' : State}

theorem State.Linked.keeps_eq (hs : s.Linked (Trace.Thinned k m) s') (level : Nat) :
    s.trace.keeps level = decide (level ≤ k) := by
  rw [Trace.keeps, hs.trace.upTo, Trace.upTo]

/-- Only the larger trace keeps the entry. -/
theorem State.Linked.write_above (hs : s.Linked (Trace.Thinned k m) s') (hkm : k ≤ m)
    (hlevel : k < level) (text : String) :
    s.Linked (Trace.Thinned k m) { s' with trace := s'.trace.write level text } := by
  refine ⟨congrArg (fun u : State => { u with trace := s'.trace.write level text }) hs.same,
    (Trace.verbosity_write _ _ _).trans hs.trace.verbosity, ?_⟩
  rw [Trace.upTo_write (hs.trace.verbosity ▸ hkm), ← hs.trace.upTo, Trace.write,
    hs.keeps_eq, decide_eq_false (Nat.not_le.2 hlevel), if_neg Bool.false_ne_true]

/-- A text is noted in the larger trace only, or in none, or the larger trace refuses it. -/
theorem Run.noteText_above (hs : s.Linked (Trace.Thinned k m) s') (hkm : k ≤ m) (hlevel : k < level)
    (text : CodeText) :
    Excused (.untraced k) ((noteText level text).run s') ∨
      ((noteText level text).run s').1 = .ok () ∧
        s.Linked (Trace.Thinned k m) ((noteText level text).run s').2 := by
  rw [run_noteText]
  cases s'.trace.keeps level with
  | false => exact .inr ⟨rfl, hs⟩
  | true =>
    rw [if_pos rfl]
    cases text.encode? with
    | none => exact .inl ⟨_, rfl, .inr ⟨level, hlevel, rfl⟩⟩
    | some line => exact .inr ⟨rfl, hs.write_above hkm hlevel line⟩

/-- A text is noted in both traces, in the larger one only, or in none; refused is it by both, or by the
larger one alone. -/
theorem Run.tracks_noteText (hkm : k ≤ m) (level : Nat) (text : CodeText) :
    Tracks (Trace.Thinned k m) (.untraced k) (noteText level text) (noteText level text) := by
  have hlink := Trace.link_thinned hkm
  intro s s' hs
  by_cases hlevel : level ≤ k
  · -- both traces keep the line
    have hkept : s.trace.keeps level = true := by rw [hs.keeps_eq, decide_eq_true hlevel]
    have hkept' : s'.trace.keeps level = true := by
      rw [Trace.keeps, hs.trace.verbosity, decide_eq_true (Nat.le_trans hlevel hkm)]
    right
    rw [run_noteText, run_noteText, hkept, hkept', if_pos rfl, if_pos rfl]
    cases text.encode? with
    | none => exact ⟨rfl, hs⟩
    | some line => exact lockstep_note level line hs
  · have hnothing : (noteText level text).run s = (.ok (), s) := by
      rw [run_noteText, hs.keeps_eq, decide_eq_false hlevel, if_neg Bool.false_ne_true]
    rw [hnothing]
    exact noteText_above hs hkm (Nat.lt_of_not_le hlevel) text

/-- A call is noted in both traces, or in the larger one only, or in none. -/
theorem Run.tracks_noteCall (hkm : k ≤ m) (what : String) (args : List Value) :
    Tracks (Trace.Thinned k m) (.untraced k) (noteCall what args) (noteCall what args) := by
  have hrun : ∀ u : State, (noteCall what args).run u =
      (if u.trace.keeps 2 then writeCall what args else pure ()).run u := fun _ => rfl
  intro s s' hs
  have hkeeps' : s'.trace.keeps 2 = decide (2 ≤ m) := by rw [Trace.keeps, hs.trace.verbosity]
  rw [hrun, hrun, hs.keeps_eq, hkeeps']
  by_cases hk : 2 ≤ k
  · rw [decide_eq_true hk, decide_eq_true (Nat.le_trans hk hkm)]
    exact ((lockstep_textsOf args).tracks.bind fun _ => tracks_noteText hkm 2 _) hs
  · rw [decide_eq_false hk]
    by_cases hm : 2 ≤ m
    · rw [decide_eq_true hm]
      -- Here the values are shown for the larger trace alone.
      show Excused _ ((writeCall what args).run s') ∨ ((writeCall what args).run s').1 = .ok () ∧
        s.Linked _ ((writeCall what args).run s').2
      rcases textsOf_cases args s' with ⟨texts, htexts⟩ | ⟨hfailed, hcyclic⟩
      · rw [writeCall, run_bind_ok htexts]
        exact noteText_above hs hkm (Nat.lt_of_not_le hk) _
      · rw [writeCall, run_bind_error hfailed]
        exact .inl ⟨_, rfl, .inl ⟨rfl, hcyclic⟩⟩
    · rw [decide_eq_false hm]
      exact .inr ⟨rfl, hs⟩

theorem Run.tracksNotes_thinned (hkm : k ≤ m) : TracksNotes (Trace.Thinned k m) (.untraced k) where
  text := tracks_noteText hkm
  call := tracks_noteCall hkm

end

namespace Pipeline

/-- A source with more tracing tracks the same source with less. -/
theorem run_tracks (o : Settings) (source input : String) {k m : Nat} (hkm : k ≤ m) :
    (run o source input k).Tracks (Trace.Thinned k m) (.untraced k) (run o source input m) := by
  have hlink := Trace.link_thinned hkm
  have hnotes := tracksNotes_thinned hkm
  have hstart : (initial input k).Linked (Trace.Thinned k m) (initial input m) :=
    ⟨rfl, Trace.thinned_empty k m⟩
  have ho : o.Tracks (.untraced k) o := ⟨.inl rfl, .inl rfl, rfl⟩
  have hs := fun text => ((lockstep_note (T := Trace.Thinned k m) 1 text) hstart).2
  rw [run, run]
  cases Program.ofSource source with
  | error e => exact .inr ⟨rfl, hs _⟩
  | ok p =>
    exact p.checkThen_tracks (fun ht => Program.execute_tracks (p.tracks_run ho) ht) (hs _)

/-- However much is traced, a source comes to the same and prints the same, and the trace that keeps
less is the one that keeps more without the entries above its level.  Only runs are left out that stop
because an array contains itself, or because a surrogate stands in a line that is not kept with less
tracing, for those may be what could not be traced. -/
theorem run_thinned (o : Settings) (source input : String) {k m : Nat} (hkm : k ≤ m)
    (hshown : (run o source input m).outcome = .error (.stopped .tooDeep) →
      (run o source input m).state.heap.Acyclic)
    (hencoded : ∀ level, k < level →
      (run o source input m).outcome ≠ .error (.stopped (.untraceable level))) :
    (run o source input k).outcome = (run o source input m).outcome ∧
    (run o source input k).output = (run o source input m).output ∧
    (run o source input k).state.trace.entries.toList =
      (run o source input m).state.trace.entries.toList.filter (fun e => e.level ≤ k) ∧
    (run o source input k).state =
      { (run o source input m).state with trace := (run o source input m).state.trace.upTo k } := by
  obtain ⟨stop, hstop, ⟨rfl, hcyclic⟩ | ⟨level, hlevel, rfl⟩⟩ | ⟨houtcome, hlinked⟩ :=
    run_tracks o source input hkm
  · exact absurd (hshown hstop) hcyclic
  · exact absurd hstop (hencoded level hlevel)
  · have hstate : (run o source input k).state = { (run o source input m).state with
        trace := (run o source input m).state.trace.upTo k } := by
      rw [← hlinked.trace.upTo, hlinked.same]
    refine ⟨houtcome.symm, ?_, ?_, hstate⟩
    · rw [Execution.output, Execution.output, hstate]
    · rw [hstate, Trace.upTo, Array.toList_filter]

/-- A line is printed with much tracing as with little. -/
theorem run_thinned_printsLine :
    let source := "fun main(){println()}"
    (run ⟨1, 0, .shared⟩ source "" 4).outcome = .ok .unit ∧
    (run ⟨1, 0, .shared⟩ source "" 1).outcome = (run ⟨1, 0, .shared⟩ source "" 4).outcome ∧
    (run ⟨1, 0, .shared⟩ source "" 1).output = (run ⟨1, 0, .shared⟩ source "" 4).output ∧
    (run ⟨1, 0, .shared⟩ source "" 1).state.trace.entries.toList =
      (run ⟨1, 0, .shared⟩ source "" 4).state.trace.entries.toList.filter fun e => e.level ≤ 1 := by
  intro source
  have hrun : (run ⟨1, 0, .shared⟩ source "" 4).outcome = .ok .unit := by
    rw [run, Program.ofSource_printsLine]
    decide +kernel
  obtain ⟨houtcome, houtput, htrace, -⟩ :=
    run_thinned ⟨1, 0, .shared⟩ source "" (k := 1) (m := 4) (by decide) (by rw [hrun]; nofun)
      (fun _ _ => by rw [hrun]; nofun)
  exact ⟨hrun, houtcome, houtput, htrace⟩

end Pipeline

/-- `var n = 0`, then for `c` in `'\uD7FF'..'\uE000'` both `n = n + 1` and `if (n > 1) { return n }`,
then `return n`: the second character of the loop is a surrogate. -/
def Program.crossesGap : Program where
  span := .zero
  functions := [{
    span := .zero
    name := "main"
    params := []
    result := some (.simple .zero "Int")
    body := [
      .declare .zero true "n" (.int .zero 0),
      .forIn .zero "c" (.binary .zero .range (.char .zero '\uD7FF') (.char .zero '\uE000')) [
        .assign .zero "n" (.binary .zero .add (.var .zero "n") (.int .zero 1)),
        .branch .zero (.binary .zero .greater (.var .zero "n") (.int .zero 1))
          [.returnValue .zero (.var .zero "n")] []],
      .returnValue .zero (.var .zero "n")] }]

/-- An accepted program ends with little tracing.  With more tracing it stops in the second round of its
loop, for the trace refuses the surrogate that it comes to. -/
theorem Program.crossesGap_untraceable :
    (crossesGap.check ⟨0, #[]⟩).1 = [] ∧
    ((crossesGap.run ⟨1, 0, .shared⟩).run { trace := ⟨2, #[]⟩ }).1 = .ok (.int 2) ∧
    ((crossesGap.run ⟨1, 0, .shared⟩).run { trace := ⟨3, #[]⟩ }).1 = .error (.untraceable 3) := by
  refine ⟨rfl, ?_, ?_⟩ <;> decide +kernel

end Scriptlet
