import Scriptlet.Proofs.Eval.Endings
import Scriptlet.Proofs.Store.Cycles

/-!
# What a loop visits

A `for` loop looks once at what it goes through, before its first round.  Whatever the body does to
the loop variable, to the variables behind the iterable or to the array itself, the body is run once
for each element that was there, in order, and each time the loop variable starts as that element:
`Machine.forIn_visits`.

Each round is noted in the trace together with its element, and there the loop may stop before the
body is run: at an element that leads to an array that contains itself, which cannot be shown, and,
where the trace keeps rounds, at an element with a surrogate in its text, which cannot be encoded.
-/

namespace Scriptlet

open Run

/-! ## What a value holds -/

/-- The elements of a value in ascending order: those of an array as they are in this heap, the
numbers or the code points from one end of a range to the other, the characters of a text. -/
inductive Value.Elements (heap : Heap) : Value → List Value → Prop
  | array (h : Handle) : Elements heap (.array h) (heap.items h).toList
  | numbers {lo hi : Int} {vs : List Value} : vs.length = (hi - lo + 1).toNat →
      (∀ (k : Nat) v, vs[k]? = some v → v = .int (lo + k)) →
      Elements heap (.range (.int lo) (.int hi)) vs
  | chars {lo hi : CodePoint} {vs : List Value} : vs.length = hi.val + 1 - lo.val →
      (∀ (k : Nat) v, vs[k]? = some v → ∃ p, v = .char p ∧ p.val = lo.val + k) →
      Elements heap (.range (.char lo) (.char hi)) vs
  | text (t : CodeText) : Elements heap (.str t) (t.points.map .char)

/-- The loop finds the elements that the value has when it looks. -/
theorem Value.Elements.run_elements {v : Value} {vs : List Value} {s : State}
    (h : v.Elements s.heap vs) :
    ∃ items, v.elements.run s = (.ok items, s) ∧ items.toList = vs := by
  cases h with
  | array h => exact ⟨.values (s.heap.items h).toList, rfl, rfl⟩
  | @numbers lo hi _ hlen hget =>
    refine ⟨.numbers lo (hi + 1 - lo).toNat, rfl, List.ext_getElem ?_ fun k _ hk => ?_⟩
    · rw [Items.toList, List.length_map, List.length_range, hlen]
      congr 1
      omega
    · rw [hget k _ (List.getElem?_eq_getElem hk)]
      simp [Items.toList]
  | @chars lo hi _ hlen hget =>
    refine ⟨.values ((lo.between hi).map .char), rfl, List.ext_getElem ?_ fun k _ hk => ?_⟩
    · rw [Items.toList, List.length_map, CodePoint.length_between, hlen]
    · obtain ⟨p, hchar, hp⟩ := hget k _ (List.getElem?_eq_getElem hk)
      rw [hchar]
      simp [Items.toList, CodePoint.between, ← hp]
  | text t => exact ⟨.values (t.points.map .char), rfl, rfl⟩

/-! ## Rounds -/

/-- The round for `v` can be noted, and this is the trace behind the note.  A trace that keeps rounds
gets a line with the text of `v`, which consists of characters. -/
inductive State.NotesRound (s : State) (name : String) (v : Value) : Trace → Prop
  | kept {text : String} : s.trace.keeps 3 = true → s.heap.text? v = some (CodeText.ofString text) →
      NotesRound s name v (s.trace.write 3 ("for " ++ name ++ " = " ++ text))
  | dropped : s.trace.keeps 3 = false → s.heap.text? v ≠ none → NotesRound s name v s.trace

/-- Why the round for `v` cannot be noted. -/
inductive State.RefusesRound (s : State) (v : Value) : Stop → Prop
  | cycle : ¬ s.heap.Unrolls v → RefusesRound s v .tooDeep
  | surrogate : s.trace.keeps 3 = true → s.heap.ShowsSurrogate v → RefusesRound s v (.untraceable 3)

/-- The state in which the body is run for `v`: the loop variable is `v`, and the round is noted. -/
def State.bound (s : State) (name : String) (v : Value) (trace : Trace) : State :=
  { s with scope := s.scope.declare name v, trace := trace }

/-- The round for `v` leads to one trace only. -/
theorem State.NotesRound.unique {s : State} {name : String} {v : Value} {trace trace' : Trace}
    (h : s.NotesRound name v trace) (h' : s.NotesRound name v trace') : trace = trace' := by
  cases h with
  | kept hkept htext =>
    cases h' with
    | kept _ htext' =>
      have hencode := congrArg CodeText.encode? (Option.some.inj (htext.symm.trans htext'))
      rw [CodeText.encode?_ofString, CodeText.encode?_ofString] at hencode
      rw [Option.some.inj hencode]
    | dropped hdropped => cases hkept.symm.trans hdropped
  | dropped hdropped =>
    cases h' with
    | kept hkept => cases hkept.symm.trans hdropped
    | dropped => rfl

/-- A round with a number is never refused. -/
theorem State.not_refusesRound_int (s : State) (k : Int) (stop : Stop) :
    ¬ s.RefusesRound (.int k) stop := by
  rintro (hcycle | ⟨-, text, htext, hsurrogate⟩)
  · exact hcycle fun _ hrefers => absurd hrefers id
  · obtain rfl := Option.some.inj htext
    exact CodeText.not_hasSurrogate_ofString _ hsurrogate

/-- A round is noted, or it is refused. -/
theorem State.notesRound_or_refusesRound (s : State) (name : String) (v : Value) :
    (∃ trace, s.NotesRound name v trace) ∨ ∃ stop, s.RefusesRound v stop := by
  cases htext : s.heap.text? v with
  | none => exact .inr ⟨_, .cycle (Heap.text?_eq_none_iff.1 htext)⟩
  | some text =>
    cases hkept : s.trace.keeps 3 with
    | false => exact .inl ⟨_, .dropped hkept (by simp [htext])⟩
    | true =>
      cases hencode : text.encode? with
      | none => exact .inr ⟨_, .surrogate hkept ⟨_, htext, CodeText.encode?_eq_none_iff.1 hencode⟩⟩
      | some line =>
        rw [CodeText.encode?_eq_some_iff.1 hencode] at htext
        exact .inl ⟨_, .kept hkept htext⟩

namespace Run

variable {name : String} {body : Run Completion} {v w : Value} {vs done todo : List Value}
  {starts starts' : List State} {s s₁ t t' u : State} {trace : Trace} {stop : Stop}

/-- The note of a round does what is said of it. -/
theorem run_noteValue_of_notesRound (h : s.NotesRound name v trace) :
    (noteValue 3 ("for " ++ name ++ " = ") v).run s = (.ok (), { s with trace := trace }) := by
  cases h with
  | kept hkept htext =>
    rw [noteValue, run_bind_ok (run_textOf_ok_iff.2 ⟨htext, rfl⟩), ← CodeText.ofString_append,
      run_noteText, if_pos hkept, CodeText.encode?_ofString]
  | dropped hdropped htext =>
    obtain ⟨text, htext⟩ := Option.ne_none_iff_exists'.1 htext
    rw [noteValue, run_bind_ok (run_textOf_ok_iff.2 ⟨htext, rfl⟩), run_noteText, hdropped,
      if_neg Bool.false_ne_true]

theorem run_noteValue_of_refusesRound (h : s.RefusesRound v stop) :
    (noteValue 3 ("for " ++ name ++ " = ") v).run s = (.error stop, s) := by
  cases h with
  | cycle hcycle =>
    have htext : (textOf v).run s = (.error .tooDeep, s) := by
      rw [textOf, run_get_bind, Heap.text?_eq_none_iff.2 hcycle]
      rfl
    exact run_bind_error htext _
  | surrogate hkept hshows =>
    obtain ⟨text, htext, hsurrogate⟩ := hshows
    rw [noteValue, run_bind_ok (run_textOf_ok_iff.2 ⟨htext, rfl⟩), run_noteText, if_pos hkept,
      CodeText.encode?_eq_none_iff.2 (CodeText.hasSurrogate_append.2 (.inr hsurrogate))]

/-- From `s` the body is run once for each of the values, one after the other, each time to its
normal end.  The states in which it starts are these, and the last time it ends in `t`. -/
inductive GoesThrough (name : String) (body : Run Completion) :
    List Value → List State → State → State → Prop
  | done {s : State} : GoesThrough name body [] [] s s
  | round {v : Value} {vs : List Value} {starts : List State} {s s₁ t : State} {trace : Trace} :
      s.NotesRound name v trace → body.run (s.bound name v trace) = (.ok .normal, s₁) →
      GoesThrough name body vs starts s₁ t →
      GoesThrough name body (v :: vs) (s.bound name v trace :: starts) s t

/-- When the loop over `vs` has gone through the values before `w`, it has left the state `u`. -/
def Turn (name : String) (body : Run Completion) (vs : List Value) (s : State) (w : Value)
    (u : State) : Prop :=
  ∃ done todo starts, vs = done ++ w :: todo ∧ GoesThrough name body done starts s u

/-- Each time the loop variable starts as the value whose turn it is. -/
theorem GoesThrough.bound (h : GoesThrough name body vs starts s t) :
    List.Forall₂ (fun start v => start.scope.get? name = some v) starts vs := by
  induction h with
  | done => exact .nil
  | round _ _ _ ih =>
    refine .cons ?_ ih
    rw [State.bound, Scope.get?_declare, if_pos rfl]

theorem GoesThrough.append (h : GoesThrough name body done starts s u)
    (h' : GoesThrough name body todo starts' u t) :
    GoesThrough name body (done ++ todo) (starts ++ starts') s t := by
  induction h with
  | done => exact h'
  | round hnote hbody _ ih => exact .round hnote hbody (ih h')

/-- The rounds of a loop are determined by where it starts. -/
theorem GoesThrough.unique (h : GoesThrough name body vs starts s t)
    (h' : GoesThrough name body vs starts' s t') : starts = starts' ∧ t = t' := by
  induction h generalizing starts' with
  | done =>
    cases h'
    exact ⟨rfl, rfl⟩
  | round hnote hbody _ ih =>
    cases h' with
    | round hnote' hbody' hrest' =>
      -- The round is noted in one way only, so the body starts and ends in the same states.
      obtain rfl := hnote.unique hnote'
      obtain ⟨-, rfl⟩ := Prod.mk.inj (hbody.symm.trans hbody')
      obtain ⟨rfl, rfl⟩ := ih hrest'
      exact ⟨rfl, rfl⟩

/-- The round for one of the values, and the rounds before. -/
theorem GoesThrough.split (h : GoesThrough name body (done ++ w :: todo) starts s t) :
    ∃ before u trace after, GoesThrough name body done before s u ∧ u.NotesRound name w trace ∧
      starts = before ++ u.bound name w trace :: after := by
  induction done generalizing starts s with
  | nil =>
    cases h with
    | round hnote _ _ => exact ⟨[], s, _, _, .done, hnote, rfl⟩
  | cons v done ih =>
    cases h with
    | round hnote hbody hrest =>
      obtain ⟨before, u, trace, after, hbefore, hw, rfl⟩ := ih hrest
      exact ⟨_ :: before, u, trace, after, .round hnote hbody hbefore, hw, rfl⟩

theorem run_roundFor (h : s.NotesRound name v trace) :
    (roundFor name body v).run s = body.run (s.bound name v trace) :=
  run_bind_ok (run_noteValue_of_notesRound h) _

/-- Where the round is refused, it stops before the body is run. -/
theorem run_roundFor_of_refusesRound (h : s.RefusesRound v stop) :
    (roundFor name body v).run s = (.error stop, s) :=
  run_bind_error (run_noteValue_of_refusesRound h) _

/-- A loop ends normally exactly if its rounds do. -/
theorem run_eachValue_iff : (eachValue (roundFor name body) vs).run s = (.ok .normal, t) ↔
    ∃ starts, GoesThrough name body vs starts s t := by
  constructor
  · intro hrun
    induction vs generalizing s with
    | nil =>
      cases hrun
      exact ⟨[], .done⟩
    | cons v vs ih =>
      obtain ⟨u, hround, hrest⟩ := exists_run_of_andThen hrun
      obtain ⟨starts, hgoes⟩ := ih hrest
      rcases s.notesRound_or_refusesRound name v with ⟨trace, hnote⟩ | ⟨stop, hrefused⟩
      · rw [run_roundFor hnote] at hround
        exact ⟨_, .round hnote hround hgoes⟩
      · rw [run_roundFor_of_refusesRound hrefused] at hround
        cases hround
  · rintro ⟨starts, hgoes⟩
    induction hgoes with
    | done => rfl
    | round hnote hbody _ ih => rw [eachValue, run_andThen ((run_roundFor hnote).trans hbody), ih]

/-- If no round is refused when its turn comes, and the body then ends normally, the loop goes through
all of the values. -/
theorem exists_goesThrough (hturns : ∀ w u, Turn name body vs s w u →
      (∀ stop, ¬ u.RefusesRound w stop) ∧
        ∀ trace, u.NotesRound name w trace →
          ∃ u', body.run (u.bound name w trace) = (.ok .normal, u')) :
    ∃ starts t, GoesThrough name body vs starts s t := by
  -- The values are gone through one by one; what was gone through already is kept in `done`.
  suffices hrest : ∀ todo done starts u, vs = done ++ todo → GoesThrough name body done starts s u →
      ∃ starts' t, GoesThrough name body todo starts' u t from hrest vs [] [] s rfl .done
  intro todo
  induction todo with
  | nil => exact fun _ _ u _ _ => ⟨[], u, .done⟩
  | cons w todo ih =>
    intro done starts u hvs hdone
    obtain ⟨hrefused, hbody⟩ := hturns w u ⟨done, todo, starts, hvs, hdone⟩
    obtain ⟨trace, hnote⟩ := (u.notesRound_or_refusesRound name w).resolve_right fun h =>
      hrefused _ h.choose_spec
    obtain ⟨u', hu'⟩ := hbody trace hnote
    have hnext : GoesThrough name body (done ++ [w]) (starts ++ [u.bound name w trace]) s u' :=
      hdone.append (.round hnote hu' .done)
    obtain ⟨starts', t, hrest⟩ := ih (done ++ [w]) _ u' (by rw [hvs, List.append_cons]) hnext
    exact ⟨_, t, .round hnote hu' hrest⟩

/-- A block of its own ends as what is run in it does. -/
theorem run_inBlock {act : Run Completion} {result : Except Stop Completion}
    (h : act.run { s with scope := s.scope.push } = (result, t)) :
    (inBlock act).run s = (result, { t with scope := t.scope.pop }) := by
  show (let (result, t) := act.run { s with scope := s.scope.push }
    (result, { t with scope := t.scope.pop })) = _
  rw [h]

/-- A loop stops at an element whose round is refused. -/
theorem Turn.run_eachValue (h : Turn name body vs s w u) (hw : u.RefusesRound w stop) :
    (eachValue (roundFor name body) vs).run s = (.error stop, u) := by
  obtain ⟨done, todo, starts, rfl, hdone⟩ := h
  rw [run_eachValue_append (run_eachValue_iff.2 ⟨starts, hdone⟩), eachValue]
  exact run_bind_error (run_roundFor_of_refusesRound hw) _

end Run

/-! ## Loops -/

namespace Machine

variable {m : Machine} {span : Span} {name : String} {iterable : Expr} {body : List Expr}
  {s s₁ : State} {v : Value} {vs : List Value}

/-- The state in which the rounds of a loop begin, in a block of their own. -/
theorem run_forIn (hshared : m.forScope = .shared)
    (hiterable : (m.eval iterable).run s = (.ok v, s₁)) (helements : v.Elements s₁.heap vs) :
    (m.step (.forIn span name iterable body)).run s =
      (do return .completed (← inBlock (eachValue (roundFor name (m.block body)) vs)) :
        Run Effect).run s₁ := by
  obtain ⟨items, hitems, rfl⟩ := helements.run_elements
  rw [step]
  refine (run_bind_ok hiterable _).trans ((run_bind_ok hitems _).trans ?_)
  rw [hshared, forLoop, each_eq]

/-- The body of a loop is entered only where one of its rounds starts. -/
theorem Enters.cases_forIn {s' : State} {e : Expr} {starts : List State} {t : State}
    (hshared : m.forScope = .shared) (hiterable : (m.eval iterable).run s = (.ok v, s₁))
    (helements : v.Elements s₁.heap vs)
    (hgoes : GoesThrough name (m.block body) vs starts { s₁ with scope := s₁.scope.push } t)
    (h : m.Enters s (.forIn span name iterable body) s' e) :
    (e = iterable ∧ (announceStatement iterable).run s = (.ok (), s')) ∨
      ∃ start ∈ starts, ∃ before rest, body = before ++ e :: rest ∧ m.Comes before e start s' := by
  obtain ⟨items, hitems, rfl⟩ := helements.run_elements
  cases h with
  | iterable hrun => exact .inl ⟨rfl, hrun⟩
  | freshRound hfresh => cases hshared.symm.trans hfresh
  | round _ hiter helem hsplit hdone hround hannounce =>
    -- The iterable has one value and that one has these elements, so it is the same rounds.
    obtain ⟨⟨rfl⟩, rfl⟩ := Prod.mk.inj (hiterable.symm.trans hiter)
    obtain ⟨⟨rfl⟩, rfl⟩ := Prod.mk.inj (hitems.symm.trans helem)
    rw [hsplit] at hgoes
    obtain ⟨starts₁, u, trace, starts₂, hbefore, hnote, rfl⟩ := hgoes.split
    obtain ⟨starts₁', hdone⟩ := run_eachValue_iff.1 hdone
    obtain ⟨rfl, rfl⟩ := hbefore.unique hdone
    rw [run_roundFor hnote] at hround
    exact .inr ⟨_, by simp, _, _, rfl, _, hround, hannounce⟩

/-- A loop runs its body once for each element that the iterable held when the loop looked, in
order, each time from a state in which the loop variable is that element, and at no other time.
This is so in every run in which the body ends normally each time and no round is refused: no element
leads, when its turn comes, to an array that contains itself, and where the trace keeps rounds no
element shows a surrogate.  At an element whose round is refused the loop stops before the body is
run. -/
theorem forIn_visits (m : Machine) (hshared : m.forScope = .shared) (span : Span) (name : String)
    (iterable : Expr) (body : List Expr) {s s₁ : State} {v : Value} {vs : List Value}
    (hiterable : (m.eval iterable).run s = (.ok v, s₁)) (helements : v.Elements s₁.heap vs) :
    let start : State := { s₁ with scope := s₁.scope.push }
    ((∀ w u, Turn name (m.block body) vs start w u → (∀ stop, ¬ u.RefusesRound w stop) ∧
        ∀ trace, u.NotesRound name w trace →
          ∃ u', (m.block body).run (u.bound name w trace) = (.ok .normal, u')) →
      ∃ starts t, GoesThrough name (m.block body) vs starts start t ∧
        List.Forall₂ (fun start v => start.scope.get? name = some v) starts vs ∧
        (m.step (.forIn span name iterable body)).run s =
          (.ok (.completed .normal), { t with scope := t.scope.pop }) ∧
        ∀ s' e, m.Enters s (.forIn span name iterable body) s' e →
          (e = iterable ∧ (announceStatement iterable).run s = (.ok (), s')) ∨
            ∃ start ∈ starts, ∃ before rest, body = before ++ e :: rest ∧
              m.Comes before e start s') ∧
    (∀ w u stop, Turn name (m.block body) vs start w u → u.RefusesRound w stop →
      (m.step (.forIn span name iterable body)).run s =
        (.error stop, { u with scope := u.scope.pop })) := by
  intro start
  rw [run_forIn hshared hiterable helements]
  constructor
  · intro hturns
    obtain ⟨starts, t, hgoes⟩ := exists_goesThrough hturns
    refine ⟨starts, t, hgoes, hgoes.bound, ?_, ?_⟩
    · exact run_bind_ok (run_inBlock (run_eachValue_iff.2 ⟨starts, hgoes⟩)) _
    · intro s' e henters
      exact henters.cases_forIn hshared hiterable helements hgoes
  · intro w u stop hturn hrefused
    exact run_bind_error (run_inBlock (hturn.run_eachValue hrefused)) _

/-- A machine that knows the built-in functions. -/
def plain : Machine := (Program.mk .zero []).machineAt ⟨0, 0, .shared⟩ 0

/-- The variable `a` is an array with the elements `1` and `2`. -/
def pairState : State where
  scope := [[("a", .array ⟨0⟩)]]
  heap := ⟨#[#[.int 1, .int 2]]⟩
  trace := ⟨0, #[]⟩

/-- `a[1] = 10` and `x = 5`: both the array and the loop variable are changed. -/
def overwrites : List Expr :=
  [.store .zero .zero ⟨"a", .zero⟩ (.int .zero 1) (.int .zero 10),
   .assign .zero "x" (.int .zero 5)]

theorem forIn_visits_overwrites :
    (plain.eval (.var .zero "a")).run pairState = (.ok (.array ⟨0⟩), pairState) ∧
    (Value.array ⟨0⟩).Elements pairState.heap [.int 1, .int 2] ∧
    ∃ (starts : List State) (t : State),
      List.Forall₂ (fun start v => start.scope.get? "x" = some v) starts [.int 1, .int 2] ∧
      (plain.step (.forIn .zero "x" (.var .zero "a") overwrites)).run pairState =
        (.ok (.completed .normal), t) := by
  have hiterable : (plain.eval (.var .zero "a")).run pairState =
      (.ok (.array ⟨0⟩), pairState) := rfl
  have helements : (Value.array ⟨0⟩).Elements pairState.heap [.int 1, .int 2] := .array ⟨0⟩
  refine ⟨hiterable, helements, ?_⟩
  obtain ⟨starts, t, -, hbound, hrun, -⟩ :=
    (forIn_visits plain rfl .zero "x" (.var .zero "a") overwrites hiterable helements).1 (by
      -- It is the turn of `1`, or that of `2` behind one round.
      rintro w u ⟨done, todo, starts, hsplit, hdone⟩
      cases hdone with
      | done =>
        obtain ⟨rfl, -⟩ := List.cons.inj hsplit
        refine ⟨State.not_refusesRound_int _ _, fun trace hnote => ?_⟩
        cases hnote with
        | kept hkept => cases hkept
        | dropped => exact ⟨_, rfl⟩
      | round hnote hbody hrest =>
        obtain ⟨rfl, htail⟩ := List.cons.inj hsplit
        cases hrest with
        | done =>
          obtain ⟨rfl, -⟩ := List.cons.inj htail
          refine ⟨State.not_refusesRound_int _ _, fun trace _ => ?_⟩
          cases hbody
          exact ⟨_, rfl⟩
        | round => simp at hsplit)
  exact ⟨starts, _, hbound, hrun⟩

/-- The variable `a` is an array whose one element is the array itself. -/
def loopState : State where
  scope := [[("a", .array ⟨0⟩)]]
  heap := ⟨#[#[.array ⟨0⟩]]⟩
  trace := ⟨0, #[]⟩

/-- The first of the surrogates. -/
def gap : CodePoint := ⟨0xd800, by decide⟩

/-- The variable `a` is a range with one surrogate in it, and the trace keeps rounds. -/
def gapState : State where
  scope := [[("a", .range (.char gap) (.char gap))]]
  trace := ⟨3, #[]⟩

/-- `println()`, which neither returns nor fails. -/
def printsLine : List Expr := [.call .zero "println" []]

/-- The value of the variable `a` has one element.  The body `println()` would end normally for it, but
the loop stops there without having run the body. -/
structure Unvisited (s : State) (whole v : Value) (stop : Stop) : Prop where
  iterable : (plain.eval (.var .zero "a")).run s = (.ok whole, s)
  elements : whole.Elements s.heap [v]
  body : ∃ t, (plain.block printsLine).run (s.bound "y" v s.trace) = (.ok .normal, t)
  stops : (plain.step (.forIn .zero "y" (.var .zero "a") printsLine)).run s = (.error stop, s)

end Machine

/-- `val a = arrayOf(0)`, `val c = arrayOf(a, arrayOf(0))` and `val x = 0`; for `i` in `0..1` both
`a[0] = x` and `val x = c[i]`, so that the second round puts the array into itself; then
`for (y in a) { println() }`. -/
def Program.visitsItself : Program where
  span := .zero
  functions := [
    .plain "main" [] none [
      .declare .zero false "a" (.call .zero "arrayOf" [.int .zero 0]),
      .declare .zero false "c" (.call .zero "arrayOf"
        [.var .zero "a", .call .zero "arrayOf" [.int .zero 0]]),
      .declare .zero false "x" (.int .zero 0),
      .forIn .zero "i" (.binary .zero .range (.int .zero 0) (.int .zero 1)) [
        .store .zero .zero ⟨"a", .zero⟩ (.int .zero 0) (.var .zero "x"),
        .declare .zero false "x" (.index .zero ⟨"c", .zero⟩ (.var .zero "i"))],
      .forIn .zero "y" (.var .zero "a") Machine.printsLine]]

/-- `for (y in '\uD7FF'..'\uE000') { println() }`, where the second element is a surrogate. -/
def Program.visitsGap : Program where
  span := .zero
  functions := [
    .plain "main" [] none [
      .forIn .zero "y" (.binary .zero .range (.char .zero '\uD7FF') (.char .zero '\uE000'))
        Machine.printsLine]]

/-- Neither an array that contains itself nor, where the trace keeps rounds, a surrogate is visited,
though the loop finds it and the body would end normally for it.  Accepted programs get there, too: one
prints nothing, the other one a single line for two thousand elements. -/
theorem Machine.elements_unvisited :
    Unvisited loopState (.array ⟨0⟩) (.array ⟨0⟩) .tooDeep ∧
    Unvisited gapState (.range (.char gap) (.char gap)) (.char gap) (.untraceable 3) ∧
    ((Program.visitsItself.check ⟨0, #[]⟩).1 = [] ∧
      StopsWith (Program.visitsItself.run ⟨50, 0, .shared⟩) { trace := ⟨0, #[]⟩ } .tooDeep ∧
      ((Program.visitsItself.run ⟨50, 0, .shared⟩).run
        { trace := ⟨0, #[]⟩ }).2.console.output = "") ∧
    (Program.visitsGap.check ⟨3, #[]⟩).1 = [] ∧
      StopsWith (Program.visitsGap.run ⟨1, 0, .shared⟩) { trace := ⟨3, #[]⟩ } (.untraceable 3) ∧
      ((Program.visitsGap.run ⟨1, 0, .shared⟩).run
        { trace := ⟨3, #[]⟩ }).2.console.output = "\n" := by
  refine ⟨⟨rfl, .array ⟨0⟩, ⟨_, rfl⟩, rfl⟩, ⟨rfl, ?_, ⟨_, rfl⟩, rfl⟩, ⟨rfl, ?_, ?_⟩, rfl, ?_, ?_⟩
  · refine .chars rfl fun k v hv => ?_
    cases k with
    | zero => exact ⟨gap, (Option.some.inj hv).symm, rfl⟩
    | succ k => cases hv
  · rw [StopsWith]
    decide +kernel
  · decide +kernel
  · rw [StopsWith]
    decide +kernel
  · decide +kernel

end Scriptlet
