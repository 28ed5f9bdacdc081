import Scriptlet.Eval.Builtins
import Scriptlet.Eval.Step
import Scriptlet.Proofs.Eval.Fits
import Scriptlet.Proofs.Typing.Regular

/-!
# Runs that end well

`Run.Safe` says how a run may end: with a result, with a `return` on its way to the call around it,
with a fault of the program, at a bound, or because a line is refused.  It never ends with a breach,
those aside that are tolerated.  There is one rule for each primitive of a run, and one for each
operation on values of the types that checking asks for.
-/

namespace Scriptlet

/-- A run that may stop: a `return` as `R` says, a fault of the program, a bound, a line that is
refused, or a breach that `B` tolerates; where nothing is said, none is. -/
def Stop.Allowed (R : Value → Prop) (B : Breach → Prop := fun _ => False) : Stop → Prop
  | .returned v => R v
  | .fault _ | .tooDeep | .outOfRounds | .overlong | .unprintable | .untraceable _ => True
  | .breach b => B b
  | .unitOrder | .rangeEnd | .noPlace => False

namespace Run

variable {α β : Type} {B : Breach → Prop}

/-- From `s` the run ends with a result and a state as `Q` says, or stops as it may, with a `return`
as `R` says or a breach that `B` tolerates. -/
def Safe (act : Run α) (s : State) (Q : α → State → Prop) (R : Value → State → Prop)
    (B : Breach → Prop := fun _ => False) : Prop :=
  match act.run s with
  | (.ok a, t) => Q a t
  | (.error e, t) => e.Allowed (fun v => R v t) B

/-! ## Runs in general -/

theorem run_bind_ok {act : Run α} {s t : State} {a : α} (h : act.run s = (.ok a, t))
    (f : α → Run β) : (act >>= f).run s = (f a).run t := by
  show (ExceptT.bindCont f (act.run s).1 : StateM State _) (act.run s).2 = _
  rw [h]
  rfl

theorem run_bind_error {act : Run α} {s t : State} {e : Stop} (h : act.run s = (.error e, t))
    (f : α → Run β) : (act >>= f).run s = (.error e, t) := by
  show (ExceptT.bindCont f (act.run s).1 : StateM State _) (act.run s).2 = _
  rw [h]
  rfl

theorem safe_of_run {act : Run α} {s t : State} {a : α} {Q : α → State → Prop}
    {R : Value → State → Prop} (h : act.run s = (.ok a, t)) (hQ : Q a t) : Safe act s Q R B := by
  rw [Safe, h]
  exact hQ

theorem safe_pure {a : α} {s : State} {Q : α → State → Prop} {R : Value → State → Prop}
    (hQ : Q a s) : Safe (pure a) s Q R B := hQ

/-- One run after the other. -/
theorem Safe.bind {act : Run α} {f : α → Run β} {s : State} {P : α → State → Prop}
    {Q : β → State → Prop} {R : Value → State → Prop} (h : Safe act s P R B)
    (hf : ∀ a t, P a t → Safe (f a) t Q R B) : Safe (act >>= f) s Q R B := by
  unfold Safe at h
  rcases hrun : act.run s with ⟨e | a, t⟩ <;> rw [hrun] at h
  · rw [Safe, run_bind_error hrun]
    exact h
  · rw [Safe, run_bind_ok hrun]
    exact hf a t h

/-- A run behind one whose end is known. -/
theorem safe_bind_of_run {act : Run α} {f : α → Run β} {s t : State} {a : α}
    {Q : β → State → Prop} {R : Value → State → Prop} (h : act.run s = (.ok a, t))
    (hf : Safe (f a) t Q R B) : Safe (act >>= f) s Q R B := by
  rw [Safe, run_bind_ok h]
  exact hf

/-- A run may be known to end better than is needed. -/
theorem Safe.imp {act : Run α} {s : State} {Q Q' : α → State → Prop}
    {R R' : Value → State → Prop} (h : Safe act s Q R B) (hQ : ∀ a t, Q a t → Q' a t)
    (hR : ∀ v t, R v t → R' v t) : Safe act s Q' R' B := by
  unfold Safe at h ⊢
  rcases hrun : act.run s with ⟨e | a, t⟩ <;> rw [hrun] at h
  · cases e with
    | returned v => exact hR v t h
    | fault | tooDeep | outOfRounds | overlong | unprintable | untraceable => trivial
    | breach | unitOrder | rangeEnd | noPlace => exact h
  · exact hQ a t h

/-- What is known of a result that a safe run was seen to end with. -/
theorem Safe.of_run {act : Run α} {s t : State} {a : α} {Q : α → State → Prop}
    {R : Value → State → Prop} (h : Safe act s Q R B) (hrun : act.run s = (.ok a, t)) : Q a t := by
  rw [Safe, hrun] at h
  exact h

theorem safe_fault {f : Fault} {s : State} {Q : α → State → Prop} {R : Value → State → Prop} :
    Safe (throw (.fault f)) s Q R B := trivial

/-! ## Primitives -/

theorem safe_note {level : Nat} {text : String} {s : State} {Q : Unit → State → Prop}
    {R : Value → State → Prop} (h : Q () { s with trace := s.trace.write level text }) :
    Safe (note level text) s Q R B := h

/-- What follows a look at the state starts from that state. -/
theorem run_get_bind (f : State → Run α) (s : State) : (get >>= f).run s = (f s).run s :=
  run_bind_ok rfl f

/-- A text is written where the trace keeps it, and refused if it cannot be encoded then. -/
theorem run_noteText (level : Nat) (text : CodeText) (s : State) :
    (noteText level text).run s =
      if s.trace.keeps level = true then
        match text.encode? with
        | some line => (.ok (), { s with trace := s.trace.write level line })
        | none => (.error (.untraceable level), s)
      else (.ok (), s) := by
  have hkeeps : (keeps level).run s = (.ok (s.trace.keeps level), s) := rfl
  rw [noteText, run_bind_ok hkeeps]
  cases s.trace.keeps level with
  | false => rfl
  | true => cases text.encode? <;> rfl

/-- Writing a text to the trace changes at most the trace, or the line is refused. -/
theorem safe_noteText {level : Nat} {text : CodeText} {s : State} {Q : Unit → State → Prop}
    {R : Value → State → Prop} (hkept : ∀ trace, Q () { s with trace := trace }) :
    Safe (noteText level text) s Q R B := by
  rw [Safe, run_noteText]
  cases s.trace.keeps level with
  | false => exact hkept s.trace
  | true =>
    rw [if_pos rfl]
    cases text.encode? with
    | none => trivial
    | some line => exact hkept _

theorem safe_textOf {v : Value} {s : State} {Q : CodeText → State → Prop}
    {R : Value → State → Prop} (h : ∀ text, Q text s) : Safe (textOf v) s Q R B := by
  rw [Safe, textOf, run_get_bind]
  cases s.heap.text? v with
  | none => trivial
  | some text => exact h text

/-- Making a text of a value changes nothing. -/
theorem safe_textOf_bind {v : Value} {f : CodeText → Run α} {s : State} {Q : α → State → Prop}
    {R : Value → State → Prop} (h : ∀ text, Safe (f text) s Q R B) :
    Safe (textOf v >>= f) s Q R B := by
  refine Safe.bind (P := fun _ s' => s' = s) (safe_textOf fun _ => rfl) ?_
  rintro text s' rfl
  exact h text

theorem safe_noteValue {level : Nat} {label : String} {v : Value} {s : State}
    {Q : Unit → State → Prop} {R : Value → State → Prop}
    (hkept : ∀ trace, Q () { s with trace := trace }) : Safe (noteValue level label v) s Q R B :=
  safe_textOf_bind fun _ => safe_noteText hkept

theorem safe_textsOf {vs : List Value} {s : State} {Q : List CodeText → State → Prop}
    {R : Value → State → Prop} (h : ∀ texts, Q texts s) : Safe (textsOf vs) s Q R B := by
  rw [Safe, textsOf, run_get_bind]
  cases s.heap.texts? vs with
  | none => trivial
  | some texts => exact h texts

/-- Printing a text changes at most the console, or the text is refused. -/
theorem safe_print {text : CodeText} {s : State} {Q : Unit → State → Prop}
    {R : Value → State → Prop} (h : ∀ console, Q () { s with console := console }) :
    Safe (print text) s Q R B := by
  rw [Safe, print]
  cases text.encode? with
  | none => trivial
  | some shown => exact h _

theorem safe_readLine {s : State} {Q : String → State → Prop} {R : Value → State → Prop}
    (h : ∀ line console, Q line { s with console := console }) : Safe readLine s Q R B := by
  rw [Safe, readLine, run_get_bind]
  cases s.console.readLine? with
  | none => trivial
  | some read => exact h read.1 read.2

theorem run_lookup {name : String} {v : Value} {s : State} (h : s.scope.get? name = some v) :
    (lookup name).run s = (.ok v, s) := by
  rw [lookup, run_get_bind, h]
  rfl

theorem run_assign {name : String} {v : Value} {s : State} {sc : Scope Value}
    (h : s.scope.set? name v = some sc) : (assign name v).run s = (.ok (), { s with scope := sc }) := by
  rw [assign, run_get_bind, h]
  rfl

theorem safe_inBlock {act : Run α} {s : State} {Q : α → State → Prop} {R : Value → State → Prop}
    (h : Safe act { s with scope := s.scope.push }
      (fun a t => Q a { t with scope := t.scope.pop })
      (fun v t => R v { t with scope := t.scope.pop }) B) : Safe (inBlock act) s Q R B := by
  unfold Safe at h ⊢
  have hrun : (inBlock act).run s =
      ((act.run { s with scope := s.scope.push }).1,
        { (act.run { s with scope := s.scope.push }).2 with
          scope := (act.run { s with scope := s.scope.push }).2.scope.pop }) := rfl
  rw [hrun]
  rcases hact : act.run { s with scope := s.scope.push } with ⟨e | a, t⟩ <;> rw [hact] at h <;>
    exact h

theorem safe_inCall {act : Run α} {frame : Frame Value} {s : State} {Q : α → State → Prop}
    {R : Value → State → Prop}
    (h : Safe act { s with scope := [frame] }
      (fun a t => Q a { t with scope := s.scope })
      (fun v t => R v { t with scope := s.scope }) B) : Safe (inCall frame act) s Q R B := by
  unfold Safe at h ⊢
  have hrun : (inCall frame act).run s =
      ((act.run { s with scope := [frame] }).1,
        { (act.run { s with scope := [frame] }).2 with scope := s.scope }) := rfl
  rw [hrun]
  rcases hact : act.run { s with scope := [frame] } with ⟨e | a, t⟩ <;> rw [hact] at h <;> exact h

theorem safe_position {i : Int} {length : Nat} {s : State} {Q : Nat → State → Prop}
    {R : Value → State → Prop} (h : ∀ n, n < length → Q n s) :
    Safe (position (.int i) length) s Q R B := by
  have hrun : (position (.int i) length).run s =
      (if 0 ≤ i ∧ i < length then pure i.toNat
        else throw (.fault .indexOutOfRange) : Run Nat).run s := rfl
  rw [Safe, hrun]
  by_cases hi : 0 ≤ i ∧ i < length
  · rw [if_pos hi]
    exact h i.toNat (by omega)
  · rw [if_neg hi]
    trivial

end Run

open Run

variable {S : List Ty} {Xs : List (List String)} {Δ : Scope Ty} {s : State}
  {R : Value → State → Prop} {B : Breach → Prop}

/-! ## Elements -/

/-- Reading an element gives a value of the element type. -/
theorem Value.safe_elementAt (hs : s.Fits S Xs Δ) {container i : Value} {t u : Ty}
    (hc : container.HasTy S t) (htu : t.Indexed u) (hi : i.HasTy S .int) :
    Safe (container.elementAt i) s (fun v s' => s' = s ∧ v.HasTy S u) R B := by
  cases hi with
  | @int n =>
    cases htu with
    | array =>
      cases hc with
      | @array h _ hget =>
        refine safe_bind_of_run (a := s.heap.items h) (t := s) rfl ?_
        refine Safe.bind (P := fun k s' => k < (s.heap.items h).size ∧ s' = s)
          (safe_position fun k hk => ⟨hk, rfl⟩) ?_
        rintro k s' ⟨hk, rfl⟩
        refine safe_pure ⟨rfl, hs.heap.items h u hget _ ?_⟩
        rw [Array.getD_eq_getD_getElem?, Array.getElem?_eq_getElem hk, Option.getD_some]
        exact Array.getElem_mem_toList hk
    | string =>
      cases hc with
      | str =>
        refine Safe.bind (P := fun _ s' => s' = s) (safe_position fun k _ => rfl) ?_
        rintro k s' rfl
        exact safe_pure ⟨rfl, .char⟩

/-- Replacing an element by a value of the element type keeps all types. -/
theorem Value.safe_storeAt (hs : s.Fits S Xs Δ) {name : String} {container i v : Value} {t u : Ty}
    (hname : Δ.get? name = some t) (hc : container.HasTy S t) (htu : t.Indexed u)
    (hi : i.HasTy S .int) (hv : v.HasTy S u) :
    Safe (container.storeAt name i v) s (fun _ s' => s'.Fits S Xs Δ) R B := by
  cases hi with
  | @int n =>
    cases htu with
    | array =>
      cases hc with
      | @array h _ hget =>
        refine safe_bind_of_run (a := s.heap.items h) (t := s) rfl ?_
        refine Safe.bind (P := fun _ s' => s' = s) (safe_position fun k _ => rfl) ?_
        rintro k s' rfl
        exact safe_of_run rfl ⟨hs.heap.store hget hv k, hs.scope⟩
    | string =>
      cases hc with
      | str =>
        cases hv with
        | char =>
          refine Safe.bind (P := fun _ s' => s' = s) (safe_position fun k _ => rfl) ?_
          rintro k s' rfl
          obtain ⟨sc, hset, hfits⟩ := hs.scope.set? hname .str
          exact safe_of_run (run_assign hset) ⟨hs.heap, hfits⟩

/-! ## Operators -/

/-- Values of one type that has an order can be compared. -/
theorem Value.safe_order {a b : Value} {t : Ty} (ha : a.HasTy S t) (hb : b.HasTy S t)
    (hprim : t.isPrimitive = true) : Safe (Value.order a b) s (fun _ s' => s' = s) R B := by
  cases ha with
  | int | bool | str | char =>
    cases hb
    exact safe_of_run rfl rfl
  | unit | array | range => cases hprim

/-- The sum of a text and anything is a text. -/
theorem Value.safe_plus_text {a b : Value} (h : (∃ v, a = .str v) ∨ ∃ v, b = .str v) :
    Safe (Value.plus a b) s (fun v s' => s' = s ∧ v.HasTy S .string) R B := by
  have htexts : Safe (do return Value.str ((← textOf a) ++ (← textOf b))) s
      (fun v s' => s' = s ∧ v.HasTy S .string) R B := by
    refine safe_textOf_bind fun x => safe_textOf_bind fun y => ?_
    exact safe_pure ⟨rfl, .str⟩
  rcases h with ⟨v, rfl⟩ | ⟨v, rfl⟩
  · exact htexts
  · cases a <;> exact htexts

/-- Nothing but a number is taken for one, unless the breach is tolerated. -/
theorem safe_expectInt {v : Value} (h : (∀ kind, B (.notAnInt kind)) ∨ v.HasTy S .int) :
    Safe (expectInt v) s (fun n s' => s' = s ∧ v = .int n) R B := by
  cases v with
  | int n => exact safe_pure ⟨rfl, rfl⟩
  | bool | str | char | unit | array | range =>
    rcases h with htolerated | hint
    · exact htolerated _
    · cases hint

/-- Arithmetic on two operands of one type. -/
theorem Value.safe_arithmetic {a b : Value} {t : Ty} (ha : a.HasTy S t) (hb : b.HasTy S t)
    (h : (∀ kind, B (.notAnInt kind)) ∨ t = .int) (f : Int → Int → Int) :
    Safe (do return Value.int (f (← expectInt a) (← expectInt b))) s
      (fun v s' => s' = s ∧ v.HasTy S t) R B := by
  refine Safe.bind (safe_expectInt (h.imp_right fun ht => ht ▸ ha)) ?_
  rintro m s₁ ⟨rfl, rfl⟩
  refine Safe.bind (safe_expectInt (h.imp_right fun ht => ht ▸ hb)) ?_
  rintro n s₂ ⟨rfl, rfl⟩
  cases ha
  exact safe_pure ⟨rfl, .int⟩

/-- An operator on operands that it works on gives a value of the type of the operation; on others it
stops for want of a number. -/
theorem Value.safe_operate {op : BinOp} {a b : Value} {l r t : Ty} (ha : a.HasTy S l)
    (hb : b.HasTy S r) (htyped : op.Typed l r t)
    (happlies : (∀ kind, B (.notAnInt kind)) ∨ op.Applies l r)
    (hand : op ≠ .and) (hor : op ≠ .or) :
    Safe (Value.operate op a b) s (fun v s' => s' = s ∧ v.HasTy S t) R B := by
  cases op with
  | add =>
    -- A sum is of a text and anything, or of two operands of one type.
    by_cases hl : l = .string
    · subst hl
      cases ha
      obtain rfl : t = .string := by cases htyped <;> rfl
      exact Value.safe_plus_text (.inl ⟨_, rfl⟩)
    · by_cases hr : r = .string
      · subst hr
        cases hb
        obtain rfl : t = .string := by cases htyped <;> rfl
        exact Value.safe_plus_text (.inr ⟨_, rfl⟩)
      · cases htyped with
        | concatRight | concatLeft => exact absurd rfl (by assumption)
        | sum =>
          have hint : (∀ kind, B (.notAnInt kind)) ∨ l = .int :=
            happlies.imp_right fun h => by simpa [BinOp.Applies, hl] using h
          have hplus : Value.plus a b =
              (do return Value.int (Word.add (← expectInt a) (← expectInt b))) := by
            cases ha with
            | str => exact absurd rfl hl
            | _ =>
              cases hb
              rfl
          rw [Value.operate, hplus]
          exact Value.safe_arithmetic ha hb hint _
  | sub | mul =>
    cases htyped
    exact Value.safe_arithmetic ha hb (happlies.imp_right And.left) _
  | div =>
    cases htyped
    refine Safe.bind (safe_expectInt (happlies.imp_right fun h => h.1 ▸ ha)) ?_
    rintro m s₁ ⟨rfl, rfl⟩
    refine Safe.bind (safe_expectInt (happlies.imp_right fun h => h.1 ▸ hb)) ?_
    rintro n s₂ ⟨rfl, rfl⟩
    cases ha
    cases Word.div? m n with
    | none => trivial
    | some q => exact ⟨rfl, .int⟩
  | range =>
    cases htyped
    exact safe_of_run rfl ⟨rfl, .range ha hb⟩
  | less | greater =>
    cases htyped
    refine Safe.bind (P := fun _ s' => s' = s) (Value.safe_order ha hb (by assumption)) ?_
    rintro o s' rfl
    exact safe_pure ⟨rfl, .bool⟩
  | and => exact absurd rfl hand
  | or => exact absurd rfl hor

/-- A connective that its left operand decides gives a truth value. -/
theorem BinOp.hasTy_of_shortcut {op : BinOp} {a v : Value} {l r t : Ty}
    (h : op.shortcut? a = some v) (htyped : op.Typed l r t) : v.HasTy S t := by
  cases htyped with
  | and | or =>
    simp only [BinOp.shortcut?] at h
    split at h
    all_goals first | (cases h; exact .bool) | cases h
  | _ => cases h

/-- An operation whose operands are both needed gives a value of its type. -/
theorem BinOp.safe_combine {op : BinOp} {a b : Value} {l r t : Ty} (ha : a.HasTy S l)
    (hb : b.HasTy S r) (htyped : op.Typed l r t)
    (happlies : (∀ kind, B (.notAnInt kind)) ∨ op.Applies l r) :
    Safe (op.combine a b) s (fun v s' => s' = s ∧ v.HasTy S t) R B := by
  cases op with
  | and | or =>
    cases htyped
    exact safe_of_run rfl ⟨rfl, .bool⟩
  | range | sub | add | mul | div | less | greater =>
    exact Value.safe_operate ha hb htyped happlies (by simp) (by simp)

/-! ## What loops visit -/

/-- What a loop visits has the type of the loop variable. -/
theorem Value.safe_elements (hs : s.Fits S Xs Δ) {v : Value} {t u : Ty} (hv : v.HasTy S t)
    (htu : t.Visited u) (hwalk : (∀ kind, B (.notAnInt kind)) ∨ t.Walkable) :
    Safe v.elements s (fun items s' => s' = s ∧ ∀ w ∈ items.toList, w.HasTy S u) R B := by
  cases htu with
  | array =>
    cases hv with
    | @array h _ hget => exact safe_of_run rfl ⟨rfl, hs.heap.items h u hget⟩
  | range =>
    cases hv with
    | @range a b _ ha hb =>
      cases u with
      | int =>
        cases ha
        cases hb
        refine safe_of_run rfl ⟨rfl, ?_⟩
        intro w hw
        obtain ⟨k, -, rfl⟩ := List.mem_map.1 hw
        exact .int
      | char =>
        cases ha
        cases hb
        refine safe_of_run rfl ⟨rfl, ?_⟩
        intro w hw
        obtain ⟨c, -, rfl⟩ := List.mem_map.1 hw
        exact .char
      | string | boolean | unit | array | range =>
        -- Steps are taken from numbers only, and the first end is none.
        have htolerated := hwalk.resolve_right id
        cases ha
        exact htolerated _

/-! ## Built-in functions -/

/-- A line that cannot be read as a number is a fault or refused. -/
theorem Text.readInt_error {line : String} {stop : Stop} (h : Text.readInt line = .error stop) :
    stop = .fault .notAnInt ∨ stop = .overlong := by
  unfold Text.readInt at h
  dsimp only at h
  split at h
  · exact .inl (Except.error.inj h).symm
  · split at h
    · exact .inr (Except.error.inj h).symm
    · split at h
      · cases h
      · exact .inl (Except.error.inj h).symm

/-- A built-in function with arguments that it takes gives a value of its type, and may add an
array. -/
theorem Builtin.safe_apply (hs : s.Fits S Xs Δ) {b : Builtin} {vs : List Value} {ts : List Ty}
    {t : Ty} (hb : b.Typed ts t) (hvs : List.Forall₂ (Value.HasTy S) vs ts) :
    Safe (b.apply vs) s
      (fun v s' => ∃ S', S <+: S' ∧ s'.Fits S' Xs Δ ∧ v.HasTy S' t) R B := by
  have hself : S <+: S := List.prefix_rfl
  cases hb with
  | print | println =>
    refine Safe.bind (P := fun _ s' => s' = s) (safe_textsOf fun _ => rfl) ?_
    rintro texts s' rfl
    refine Safe.bind (P := fun _ t => t.Fits S Xs Δ) (safe_print fun _ => ⟨hs.heap, hs.scope⟩) ?_
    exact fun _ t ht => safe_pure ⟨S, hself, ht, .unit⟩
  | @arrayOf t us hall =>
    -- The array is the one built-in result that makes the heap typing grow.
    cases hvs with
    | @cons v _ vs _ hv hvs =>
      have helems : ∀ w ∈ v :: vs, w.HasTy S t := by
        intro w hw
        rcases List.mem_cons.1 hw with rfl | hw
        · exact hv
        · obtain ⟨i, hi, rfl⟩ := List.mem_iff_getElem.1 hw
          have hi' : i < us.length := hvs.length_eq ▸ hi
          have hget := hvs.get hi hi'
          rwa [List.get_eq_getElem, List.get_eq_getElem, hall _ (List.getElem_mem hi')] at hget
      refine safe_of_run rfl ⟨S ++ [t], List.prefix_append _ _, ⟨?_, ?_⟩, ?_⟩
      · exact hs.heap.alloc helems
      · exact hs.scope.mono (List.prefix_append _ _)
      · refine .array ?_
        show (S ++ [t])[s.heap.arrays.size]? = some t
        rw [hs.heap.size]
        simp
  | readln =>
    refine Safe.bind (safe_readLine fun line console => ?_) fun line s' hs' => hs'
    exact ⟨S, hself, ⟨hs.heap, hs.scope⟩, .str⟩
  | readlnInt =>
    refine Safe.bind (P := fun _ s' => s'.Fits S Xs Δ)
      (safe_readLine fun _ _ => ⟨hs.heap, hs.scope⟩) ?_
    intro line s' hs'
    cases hread : Text.readInt line with
    | error stop =>
      obtain rfl | rfl := Text.readInt_error hread
      · exact safe_fault
      · trivial
    | ok n => exact safe_pure ⟨S, hself, hs', .int⟩
  | readlnBoolean =>
    refine Safe.bind (P := fun _ s' => s'.Fits S Xs Δ)
      (safe_readLine fun _ _ => ⟨hs.heap, hs.scope⟩) ?_
    intro line s' hs'
    cases Text.readBoolean? line with
    | none => exact safe_fault
    | some b => exact safe_pure ⟨S, hself, hs', .bool⟩

end Scriptlet
