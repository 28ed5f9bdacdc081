import Scriptlet.Proofs.Eval.Parts

/-!
# Stops that an error is defined for

A run stops properly with a fault, with a breach, or at a bound (`Run.Proper`).  Most operations stop
in no other way.  Those that may are listed with the exact condition: a comparison of two units, the
elements of a range from a character to something else, a number with too many digits in the input,
and a surrogate in what is to be printed or traced.
-/

namespace Scriptlet

/-- Ways to stop that an error is defined for, and bounds on a run. -/
def Stop.IsProper : Stop → Prop
  | .fault _ | .breach _ | .tooDeep | .outOfRounds => True
  | .returned _ | .unitOrder | .rangeEnd | .noPlace | .overlong | .unprintable | .untraceable _ => False

/-- A line is refused: a number in it has too many digits, or a surrogate stands in it. -/
def Stop.IsRefusal : Stop → Prop
  | .overlong | .unprintable | .untraceable _ => True
  | .returned _ | .fault _ | .breach _ | .unitOrder | .rangeEnd | .noPlace | .tooDeep
  | .outOfRounds => False

theorem Stop.IsRefusal.isStray {stop : Stop} (h : stop.IsRefusal) : stop.IsStray := by
  cases stop with
  | overlong | unprintable | untraceable => trivial
  | returned | fault | breach | unitOrder | rangeEnd | noPlace | tooDeep | outOfRounds =>
    exact absurd h id

theorem Stop.IsStray.not_isProper {stop : Stop} (h : stop.IsStray) : ¬ stop.IsProper := by
  cases stop with
  | unitOrder | rangeEnd | noPlace | overlong | unprintable | untraceable => exact id
  | returned | fault | breach | tooDeep | outOfRounds => exact absurd h id

namespace Run

variable {α β : Type} {s t : State} {stop : Stop}

/-! ## Runs that stop -/

theorem not_stopsWith_pure {a : α} : ¬ StopsWith (pure a) s stop := by
  intro h
  cases h

/-- Where two runs in a row stop. -/
theorem StopsWith.of_bind {act : Run α} {f : α → Run β} (h : StopsWith (act >>= f) s stop) :
    StopsWith act s stop ∨ ∃ a t, act.run s = (.ok a, t) ∧ StopsWith (f a) t stop := by
  rcases hrun : act.run s with ⟨e | a, t⟩
  · rw [StopsWith, run_bind_error hrun] at h
    left
    rw [StopsWith, hrun]
    exact congrArg Except.error (Except.error.inj h)
  · rw [StopsWith, run_bind_ok hrun] at h
    exact .inr ⟨a, t, rfl, h⟩

/-- A run stops where its first part does. -/
theorem StopsWith.bind {act : Run α} (h : StopsWith act s stop) (f : α → Run β) :
    StopsWith (act >>= f) s stop := by
  rcases hrun : act.run s with ⟨e | a, t⟩ <;> rw [StopsWith, hrun] at h
  · rw [StopsWith, run_bind_error hrun]
    exact congrArg Except.error (Except.error.inj h)
  · cases h

/-- A run stops where what is left of it does. -/
theorem StopsWith.rest {act : Run α} {f : α → Run β} {a : α} (hrun : act.run s = (.ok a, t))
    (h : StopsWith (f a) t stop) : StopsWith (act >>= f) s stop := by
  rw [StopsWith, run_bind_ok hrun]
  exact h

theorem StopsWith.of_andThen {first second : Run Completion}
    (h : StopsWith (andThen first second) s stop) :
    StopsWith first s stop ∨
      ∃ t, first.run s = (.ok .normal, t) ∧ StopsWith second t stop := by
  rcases h.of_bind with h | ⟨c, t, hfirst, h⟩
  · exact .inl h
  · cases c with
    | normal => exact .inr ⟨t, hfirst, h⟩
    | returned v => exact absurd h not_stopsWith_pure

theorem StopsWith.of_run_eq {act act' : Run α} (hrun : act'.run s = act.run t)
    (h : StopsWith act t stop) : StopsWith act' s stop := by
  rw [StopsWith, hrun]
  exact h

theorem StopsWith.inBlock {act : Run α} (h : StopsWith act { s with scope := s.scope.push } stop) :
    StopsWith (Run.inBlock act) s stop := h

theorem StopsWith.of_inBlock {act : Run α} (h : StopsWith (Run.inBlock act) s stop) :
    StopsWith act { s with scope := s.scope.push } stop := h

theorem StopsWith.of_inCall {frame : Frame Value} {act : Run α}
    (h : StopsWith (inCall frame act) s stop) : StopsWith act { s with scope := [frame] } stop := h

/-- A function does not stop with a `return`. -/
theorem StopsWith.of_resultOf {body : Run Completion} (h : StopsWith (resultOf body) s stop) :
    StopsWith body s stop ∧ ∀ v, stop ≠ .returned v := by
  have hrun : (resultOf body).run s = resultOf body s := rfl
  rw [StopsWith, hrun] at h
  unfold resultOf at h
  rcases hend : body.run s with ⟨e | c, t⟩ <;> rw [hend] at h
  · cases e with
    -- a `return` on its way out becomes the value of the call
    | returned v => cases h
    | fault | breach | unitOrder | rangeEnd | noPlace | overlong | unprintable | untraceable
    | tooDeep | outOfRounds =>
      obtain rfl := Except.error.inj h
      exact ⟨congrArg Prod.fst hend, fun v hv => by cases hv⟩
  · cases c <;> cases h

/-! ## Proper runs -/

/-- The run stops only with errors that are defined, or at a bound. -/
def Proper (act : Run α) : Prop := ∀ s stop, StopsWith act s stop → stop.IsProper

theorem proper_pure (a : α) : Proper (pure a) := fun _ _ h => absurd h not_stopsWith_pure

theorem proper_throw {e : Stop} (he : e.IsProper) : Proper (throw e : Run α) := by
  intro s stop h
  obtain rfl : e = stop := Except.error.inj h
  exact he

theorem Proper.bind {act : Run α} {f : α → Run β} (h : Proper act) (hf : ∀ a, Proper (f a)) :
    Proper (act >>= f) := by
  intro s stop hstop
  rcases hstop.of_bind with hstop | ⟨a, t, -, hstop⟩
  · exact h s stop hstop
  · exact hf a t stop hstop

theorem proper_get_bind {f : State → Run α} (hf : ∀ s, Proper (f s)) : Proper (get >>= f) := by
  intro s stop h
  rw [StopsWith, run_get_bind] at h
  exact hf s s stop h

theorem proper_modify (f : State → State) : Proper (modify f : Run Unit) := by
  intro s stop h
  cases h

theorem StopsWith.not_proper {act : Run α} (hstop : ¬ stop.IsProper) (h : StopsWith act s stop) :
    ¬ Proper act := fun hact => hstop (hact s stop h)

/-- What stops behind a proper run. -/
theorem StopsWith.behind {act : Run α} {f : α → Run β} (hstop : ¬ stop.IsProper)
    (hact : Proper act) (h : StopsWith (act >>= f) s stop) :
    ∃ a t, act.run s = (.ok a, t) ∧ StopsWith (f a) t stop :=
  h.of_bind.resolve_left fun h => h.not_proper hstop hact

/-- What stops before proper runs. -/
theorem StopsWith.before {act : Run α} {f : α → Run β} (hstop : ¬ stop.IsProper)
    (hf : ∀ a, Proper (f a)) (h : StopsWith (act >>= f) s stop) : StopsWith act s stop :=
  h.of_bind.resolve_right fun ⟨a, _, _, h⟩ => h.not_proper hstop (hf a)

/-! ## Primitives -/

theorem proper_note (level : Nat) (text : String) : Proper (note level text) := proper_modify _

theorem proper_textOf (v : Value) : Proper (textOf v) := by
  refine proper_get_bind fun s => ?_
  cases s.heap.text? v with
  | none => exact proper_throw trivial
  | some text => exact proper_pure text

theorem proper_textsOf (vs : List Value) : Proper (textsOf vs) := by
  refine proper_get_bind fun s => ?_
  cases s.heap.texts? vs with
  | none => exact proper_throw trivial
  | some texts => exact proper_pure texts

theorem proper_readLine : Proper readLine := by
  refine proper_get_bind fun s => ?_
  cases s.console.readLine? with
  | none => exact proper_throw trivial
  | some read => exact (proper_modify _).bind fun _ => proper_pure _

theorem proper_lookup (name : String) : Proper (lookup name) := by
  refine proper_get_bind fun s => ?_
  cases s.scope.get? name with
  | none => exact proper_throw trivial
  | some v => exact proper_pure v

theorem proper_assign (name : String) (v : Value) : Proper (assign name v) := by
  refine proper_get_bind fun s => ?_
  cases s.scope.set? name v with
  | none => exact proper_throw trivial
  | some sc => exact proper_modify _

theorem proper_itemsOf (h : Handle) : Proper (itemsOf h) := proper_get_bind fun _ => proper_pure _

theorem proper_alloc (items : List Value) : Proper (alloc items) := by
  intro s stop h
  cases h

theorem proper_expectInt (v : Value) : Proper (expectInt v) := by
  cases v with
  | int n => exact proper_pure n
  | _ => exact proper_throw trivial

theorem proper_position (v : Value) (length : Nat) : Proper (position v length) := by
  refine (proper_expectInt v).bind fun i => ?_
  split
  · exact proper_pure _
  · exact proper_throw trivial

theorem proper_announceStatement (e : Expr) : Proper (announceStatement e) := by
  rw [announceStatement]
  split
  · exact proper_note _ _
  · exact proper_pure _

end Run

open Run

variable {s t : State} {stop : Stop}

/-! ## Operations -/

theorem Value.proper_elementAt (container i : Value) : Proper (container.elementAt i) := by
  cases container with
  | array h =>
    exact (proper_itemsOf h).bind fun _ => (proper_position _ _).bind fun _ => proper_pure _
  | str text => exact (proper_position _ _).bind fun _ => proper_pure _
  | _ => exact proper_throw trivial

theorem Value.proper_storeAt (name : String) (container i v : Value) :
    Proper (container.storeAt name i v) := by
  unfold Value.storeAt
  split
  · exact (proper_itemsOf _).bind fun _ => (proper_position _ _).bind fun _ => proper_modify _
  · exact (proper_position _ _).bind fun _ => proper_assign _ _
  · exact proper_throw trivial

theorem Value.proper_plus (a b : Value) : Proper (Value.plus a b) := by
  unfold Value.plus
  split
  · exact (proper_textOf _).bind fun _ => (proper_textOf _).bind fun _ => proper_pure _
  · exact (proper_textOf _).bind fun _ => (proper_textOf _).bind fun _ => proper_pure _
  · exact (proper_expectInt _).bind fun _ => (proper_expectInt _).bind fun _ => proper_pure _

/-- Only two units have no order and no error either. -/
theorem Value.units_of_order {a b : Value} (hstop : ¬ stop.IsProper)
    (h : StopsWith (Value.order a b) s stop) : a = .unit ∧ b = .unit ∧ stop = .unitOrder := by
  unfold Value.order at h
  split at h
  · cases h
  · cases h
  · cases h
  · cases h
  · exact ⟨rfl, rfl, (Except.error.inj h).symm⟩
  · exact (h.not_proper hstop (proper_throw trivial)).elim

/-- Only comparisons of two units go astray. -/
theorem BinOp.units_of_combine {op : BinOp} {a b : Value} (hstop : ¬ stop.IsProper)
    (h : StopsWith (op.combine a b) s stop) :
    (op = .less ∨ op = .greater) ∧ a = .unit ∧ b = .unit ∧ stop = .unitOrder := by
  have hproper : ¬ Proper (op.combine a b) := h.not_proper hstop
  cases op with
  | and | or | range => exact (hproper (proper_pure _)).elim
  | add => exact (hproper (Value.proper_plus a b)).elim
  | sub | mul =>
    exact (hproper ((proper_expectInt a).bind fun _ => (proper_expectInt b).bind fun _ =>
      proper_pure _)).elim
  | div =>
    refine (hproper ((proper_expectInt a).bind fun m => (proper_expectInt b).bind fun n => ?_)).elim
    cases Word.div? m n with
    | none => exact proper_throw trivial
    | some q => exact proper_pure _
  | less =>
    exact ⟨.inl rfl, Value.units_of_order hstop (h.before hstop fun _ => proper_pure _)⟩
  | greater =>
    exact ⟨.inr rfl, Value.units_of_order hstop (h.before hstop fun _ => proper_pure _)⟩

/-- Only a range from a character to something else has no elements and no error either. -/
theorem Value.range_of_elements {v : Value} (hstop : ¬ stop.IsProper)
    (h : StopsWith v.elements s stop) :
    ∃ c b, v = .range (.char c) b ∧ (∀ c', b ≠ .char c') ∧ stop = .rangeEnd := by
  unfold Value.elements at h
  split at h
  · exact (h.not_proper hstop ((proper_itemsOf _).bind fun _ => proper_pure _)).elim
  · cases h
  -- the other end is no character, or the case before would have applied
  · next c b hb => exact ⟨c, b, rfl, hb, (Except.error.inj h).symm⟩
  · exact (h.not_proper hstop ((proper_expectInt _).bind fun _ =>
      (proper_expectInt _).bind fun _ => proper_pure _)).elim
  · cases h
  · exact (h.not_proper hstop (proper_throw trivial)).elim

/-! ## Lines that are refused -/

/-- A surrogate stands in the text of the value. -/
def Heap.ShowsSurrogate (m : Heap) (v : Value) : Prop :=
  ∃ text, m.text? v = some text ∧ text.HasSurrogate

/-- The values have texts, and a surrogate stands in one of them. -/
theorem Heap.exists_hasSurrogate {m : Heap} {vs : List Value} {texts : List CodeText}
    (h : m.texts? vs = some texts) :
    (∃ text ∈ texts, text.HasSurrogate) ↔ ∃ v ∈ vs, m.ShowsSurrogate v := by
  induction vs generalizing texts with
  | nil =>
    obtain rfl : [] = texts := Option.some.inj h
    simp
  | cons v vs ih =>
    rw [texts?, List.mapM_cons] at h
    obtain ⟨text, htext, h⟩ := Option.bind_eq_some_iff.1 h
    obtain ⟨rest, hrest, h⟩ := Option.bind_eq_some_iff.1 h
    obtain rfl := Option.some.inj h
    simp only [List.mem_cons, exists_eq_or_imp, ih hrest, ShowsSurrogate, htext, Option.some_inj,
      exists_eq_left']

/-- A line in which a number has more digits than are converted. -/
def Text.IsOverlong (line : String) : Prop :=
  (Text.signed? (Text.strip line.toList)).isSome = true ∧
    Literal.maxDecimalDigits < (Text.unsigned (Text.strip line.toList)).length

/-- Only such a line is refused when it is read as a number. -/
theorem Text.readInt_eq_overlong_iff {line : String} :
    Text.readInt line = .error .overlong ↔ Text.IsOverlong line := by
  unfold Text.readInt Text.IsOverlong
  dsimp only
  cases Text.signed? (Text.strip line.toList) with
  | none => simp
  | some n =>
    by_cases hlong : Literal.maxDecimalDigits < (Text.unsigned (Text.strip line.toList)).length
    · simp [hlong]
    · by_cases hrange : Word.InRange n <;> simp [hlong, hrange]

namespace Run

variable {α : Type} {level : Nat} {label : String} {v : Value} {vs : List Value}

theorem run_pure_ok_iff {a b : α} : (pure a : Run α).run s = (.ok b, t) ↔ a = b ∧ t = s := by
  constructor
  · intro h
    cases h
    exact ⟨rfl, rfl⟩
  · rintro ⟨rfl, rfl⟩
    rfl

theorem run_throw_ne_ok {e : Stop} {a : α} : (throw e : Run α).run s ≠ (.ok a, t) := by
  intro h
  cases h

theorem run_textOf_ok_iff {text : CodeText} :
    (textOf v).run s = (.ok text, t) ↔ s.heap.text? v = some text ∧ t = s := by
  rw [textOf, run_get_bind]
  cases s.heap.text? v with
  | none =>
    refine iff_of_false run_throw_ne_ok ?_
    rintro ⟨htext, -⟩
    cases htext
  | some _ => exact run_pure_ok_iff.trans (by rw [Option.some_inj])

theorem run_textsOf_ok_iff {texts : List CodeText} :
    (textsOf vs).run s = (.ok texts, t) ↔ s.heap.texts? vs = some texts ∧ t = s := by
  rw [textsOf, run_get_bind]
  cases s.heap.texts? vs with
  | none =>
    refine iff_of_false run_throw_ne_ok ?_
    rintro ⟨htext, -⟩
    cases htext
  | some _ => exact run_pure_ok_iff.trans (by rw [Option.some_inj])

theorem run_readLine_ok_iff {line : String} :
    readLine.run s = (.ok line, t) ↔
      ∃ console, s.console.readLine? = some (line, console) ∧ t = { s with console := console } := by
  rw [readLine, run_get_bind]
  cases s.console.readLine? with
  | none =>
    refine iff_of_false run_throw_ne_ok ?_
    rintro ⟨console, hread, -⟩
    cases hread
  | some read =>
    constructor
    · intro h
      cases h
      exact ⟨read.2, rfl, rfl⟩
    · rintro ⟨console, h, rfl⟩
      cases h
      rfl

/-- A text is refused by the trace exactly if it would be kept and a surrogate stands in it. -/
theorem stopsWith_noteText_iff {text : CodeText} :
    StopsWith (noteText level text) s stop ↔
      s.trace.keeps level = true ∧ text.HasSurrogate ∧ stop = .untraceable level := by
  rw [StopsWith, run_noteText, ← CodeText.encode?_eq_none_iff]
  cases s.trace.keeps level with
  | false =>
    -- a line that is not kept is not encoded either
    rw [if_neg Bool.false_ne_true]
    constructor
    · intro h
      cases h
    · rintro ⟨hkept, -⟩
      cases hkept
  | true =>
    rw [if_pos rfl]
    cases text.encode? with
    | some line =>
      constructor
      · intro h
        cases h
      · rintro ⟨-, hnone, -⟩
        cases hnone
    | none =>
      constructor
      · intro h
        exact ⟨rfl, rfl, (Except.error.inj h).symm⟩
      · rintro ⟨-, -, rfl⟩
        rfl

/-- Where the line for a value is refused, apart from values that have no text. -/
theorem stopsWith_noteValue_iff (hstop : ¬ stop.IsProper) :
    StopsWith (noteValue level label v) s stop ↔
      s.trace.keeps level = true ∧ s.heap.ShowsSurrogate v ∧ stop = .untraceable level := by
  have hlabel := CodeText.not_hasSurrogate_ofString label
  constructor
  · intro h
    obtain ⟨text, t, htext, hnote⟩ := h.behind hstop (proper_textOf v)
    obtain ⟨htext, rfl⟩ := run_textOf_ok_iff.1 htext
    obtain ⟨hkept, hsurrogate, hlevel⟩ := stopsWith_noteText_iff.1 hnote
    -- the label is made of characters, so the surrogate comes from the value
    have hvalue := (CodeText.hasSurrogate_append.1 hsurrogate).resolve_left hlabel
    exact ⟨hkept, ⟨text, htext, hvalue⟩, hlevel⟩
  · rintro ⟨hkept, ⟨text, htext, hsurrogate⟩, hlevel⟩
    rw [StopsWith, noteValue, run_bind_ok (run_textOf_ok_iff.2 ⟨htext, rfl⟩)]
    exact stopsWith_noteText_iff.2
      ⟨hkept, CodeText.hasSurrogate_append.2 (.inr hsurrogate), hlevel⟩

theorem stopsWith_writeCall_iff {what : String} (hstop : ¬ stop.IsProper) :
    StopsWith (writeCall what vs) s stop ↔
      s.trace.keeps 2 = true ∧ s.heap.texts? vs ≠ none ∧ (∃ v ∈ vs, s.heap.ShowsSurrogate v) ∧
        stop = .untraceable 2 := by
  -- the line is made of characters, the texts of the arguments aside
  have hline : ∀ texts : List CodeText,
      ("call " ++ what ++ "(" ++ CodeText.joinWith ", " texts ++ ")" : CodeText).HasSurrogate ↔
        ∃ text ∈ texts, text.HasSurrogate := by
    intro texts
    simp only [CodeText.hasSurrogate_append, CodeText.not_hasSurrogate_ofString,
      CodeText.hasSurrogate_joinWith, false_or, or_false]
  constructor
  · intro h
    obtain ⟨texts, t, htexts, hnote⟩ := h.behind hstop (proper_textsOf vs)
    obtain ⟨htexts, rfl⟩ := run_textsOf_ok_iff.1 htexts
    obtain ⟨hkept, hsurrogate, hlevel⟩ := stopsWith_noteText_iff.1 hnote
    refine ⟨hkept, ?_, (Heap.exists_hasSurrogate htexts).1 ((hline texts).1 hsurrogate), hlevel⟩
    rw [htexts]
    exact Option.some_ne_none texts
  · rintro ⟨hkept, hsome, hshows, hlevel⟩
    obtain ⟨texts, htexts⟩ := Option.ne_none_iff_exists'.1 hsome
    rw [StopsWith, writeCall, run_bind_ok (run_textsOf_ok_iff.2 ⟨htexts, rfl⟩)]
    exact stopsWith_noteText_iff.2
      ⟨hkept, (hline texts).2 ((Heap.exists_hasSurrogate htexts).2 hshows), hlevel⟩

/-- Where the line for a call is refused, apart from arguments that have no text. -/
theorem stopsWith_noteCall_iff {what : String} (hstop : ¬ stop.IsProper) :
    StopsWith (noteCall what vs) s stop ↔
      s.trace.keeps 2 = true ∧ s.heap.texts? vs ≠ none ∧ (∃ v ∈ vs, s.heap.ShowsSurrogate v) ∧
        stop = .untraceable 2 := by
  rw [← stopsWith_writeCall_iff hstop]
  have hkeeps : (keeps 2).run s = (.ok (s.trace.keeps 2), s) := rfl
  rw [StopsWith, noteCall, run_bind_ok hkeeps]
  cases hkept : s.trace.keeps 2 with
  | true => rfl
  | false =>
    refine iff_of_false not_stopsWith_pure fun h => ?_
    have hkept' := ((stopsWith_writeCall_iff hstop).1 h).1
    rw [hkept] at hkept'
    cases hkept'

/-- A text is refused by the console exactly if a surrogate stands in it. -/
theorem stopsWith_print_iff {text : CodeText} :
    StopsWith (print text) s stop ↔ text.HasSurrogate ∧ stop = .unprintable := by
  rw [StopsWith, print, ← CodeText.encode?_eq_none_iff]
  cases text.encode? with
  | some shown =>
    constructor
    · intro h
      cases h
    · rintro ⟨hnone, -⟩
      cases hnone
  | none =>
    constructor
    · intro h
      exact ⟨rfl, (Except.error.inj h).symm⟩
    · rintro ⟨-, rfl⟩
      rfl

end Run

namespace Builtin

/-- A built-in function refuses a line: a text with a surrogate to print, or a number with too many
digits to read. -/
inductive Refuses (vs : List Value) (s : State) : Builtin → Stop → Prop
  | print : s.heap.texts? vs ≠ none → (∃ v ∈ vs, s.heap.ShowsSurrogate v) →
      Refuses vs s .print .unprintable
  | println : s.heap.texts? vs ≠ none → (∃ v ∈ vs, s.heap.ShowsSurrogate v) →
      Refuses vs s .println .unprintable
  | readlnInt {line : String} {console : Console} :
      s.console.readLine? = some (line, console) → Text.IsOverlong line →
      Refuses vs s .readlnInt .overlong

theorem Refuses.isRefusal {b : Builtin} {vs : List Value} (h : b.Refuses vs s stop) :
    stop.IsRefusal := by
  cases h <;> trivial

/-- What print and println have in common: a text made of those of the values is printed. -/
theorem stopsWith_print_iff {vs : List Value} {shown : List CodeText → CodeText}
    (hstop : ¬ stop.IsProper)
    (hshow : ∀ texts, (shown texts).HasSurrogate ↔ ∃ text ∈ texts, text.HasSurrogate) :
    StopsWith (do Run.print (shown (← textsOf vs)); return Value.unit) s stop ↔
      s.heap.texts? vs ≠ none ∧ (∃ v ∈ vs, s.heap.ShowsSurrogate v) ∧ stop = .unprintable := by
  constructor
  · intro h
    obtain ⟨texts, t, htexts, hrest⟩ := h.behind hstop (proper_textsOf vs)
    obtain ⟨htexts, rfl⟩ := run_textsOf_ok_iff.1 htexts
    obtain ⟨hsurrogate, hprint⟩ :=
      Run.stopsWith_print_iff.1 (hrest.before hstop fun _ => proper_pure _)
    refine ⟨?_, (Heap.exists_hasSurrogate htexts).1 ((hshow texts).1 hsurrogate), hprint⟩
    rw [htexts]
    exact Option.some_ne_none texts
  · rintro ⟨hsome, hshows, rfl⟩
    obtain ⟨texts, htexts⟩ := Option.ne_none_iff_exists'.1 hsome
    have hrefused : (Run.print (shown texts)).run s = (.error .unprintable, s) := by
      have hsurrogate := (hshow texts).2 ((Heap.exists_hasSurrogate htexts).2 hshows)
      rw [Run.print, CodeText.encode?_eq_none_iff.2 hsurrogate]
      rfl
    rw [StopsWith, run_bind_ok (run_textsOf_ok_iff.2 ⟨htexts, rfl⟩), run_bind_error hrefused]

/-- A number is refused where a line is left and it has too many digits. -/
theorem stopsWith_readlnInt_iff {vs : List Value} (hstop : ¬ stop.IsProper) :
    StopsWith (readlnInt.apply vs) s stop ↔
      (∃ line console, s.console.readLine? = some (line, console) ∧ Text.IsOverlong line) ∧
        stop = .overlong := by
  constructor
  · intro h
    obtain ⟨line, t, hline, hrest⟩ := h.behind hstop proper_readLine
    obtain ⟨console, hconsole, rfl⟩ := run_readLine_ok_iff.1 hline
    cases hread : Text.readInt line with
    | ok n =>
      rw [hread] at hrest
      exact absurd hrest not_stopsWith_pure
    | error e =>
      rw [hread] at hrest
      obtain rfl : e = stop := Except.error.inj hrest
      -- a line that is no number in range is a fault, and a fault is proper
      obtain rfl | rfl := Text.readInt_error hread
      · exact absurd trivial hstop
      · exact ⟨⟨line, console, hconsole, Text.readInt_eq_overlong_iff.1 hread⟩, rfl⟩
  · rintro ⟨⟨line, console, hconsole, hlong⟩, rfl⟩
    show ((readLine >>= _).run s).1 = _
    rw [run_bind_ok (run_readLine_ok_iff.2 ⟨_, hconsole, rfl⟩),
      Text.readInt_eq_overlong_iff.2 hlong]
    rfl

/-- A built-in function stops in a way that no error is defined for exactly if it refuses a line. -/
theorem stopsWith_apply_iff {b : Builtin} {vs : List Value} (hstop : ¬ stop.IsProper) :
    StopsWith (b.apply vs) s stop ↔ b.Refuses vs s stop := by
  cases b with
  | print =>
    refine (stopsWith_print_iff hstop fun _ => CodeText.hasSurrogate_join).trans ?_
    constructor
    · rintro ⟨hsome, hshows, rfl⟩
      exact .print hsome hshows
    · rintro (⟨hsome, hshows⟩ | _ | _)
      exact ⟨hsome, hshows, rfl⟩
  | println =>
    refine (stopsWith_print_iff hstop fun _ => ?_).trans ?_
    · simp only [CodeText.hasSurrogate_append, CodeText.hasSurrogate_join,
        CodeText.not_hasSurrogate_ofString, or_false]
    · constructor
      · rintro ⟨hsome, hshows, rfl⟩
        exact .println hsome hshows
      · rintro (_ | ⟨hsome, hshows⟩ | _)
        exact ⟨hsome, hshows, rfl⟩
  | readlnInt =>
    refine (stopsWith_readlnInt_iff hstop).trans ?_
    constructor
    · rintro ⟨⟨line, console, hconsole, hlong⟩, rfl⟩
      exact .readlnInt hconsole hlong
    · rintro (_ | _ | ⟨hconsole, hlong⟩)
      exact ⟨⟨_, _, hconsole, hlong⟩, rfl⟩
  | readln =>
    refine iff_of_false (fun h => ?_) nofun
    exact h.not_proper hstop (proper_readLine.bind fun _ => proper_pure _)
  | readlnBoolean =>
    refine iff_of_false (fun h => h.not_proper hstop (proper_readLine.bind fun line => ?_)) nofun
    cases Text.readBoolean? line with
    | none => exact proper_throw trivial
    | some b => exact proper_pure _
  | arrayOf => exact iff_of_false (fun h => h.not_proper hstop (proper_alloc vs)) nofun

end Builtin

end Scriptlet
