import Scriptlet.Eval.Call
import Scriptlet.Proofs.Eval.Safe

/-!
# Runs in lockstep

Two runs are in lockstep if, from states that are equal but for their traces, they end alike in
states that are equal but for their traces.  How the traces are related is left open; writing the
same entry to both has to keep them related.  There is one rule for each primitive of a run, and one
for each operation on values.  Only what is noted looks at the trace: a text that cannot be encoded is
refused where it is kept, so both traces have to keep the same levels.
-/

namespace Scriptlet

/-- A relation between traces that writing the same entry to both keeps. -/
class Trace.Link (T : Trace → Trace → Prop) : Prop where
  write {t t' : Trace} (level : Nat) (text : String) (h : T t t') :
    T (t.write level text) (t'.write level text)

/-- A relation between traces that keep the same levels. -/
class Trace.SameLevels (T : Trace → Trace → Prop) : Prop extends Trace.Link T where
  verbosity {t t' : Trace} (h : T t t') : t'.verbosity = t.verbosity

/-- The states are equal but for their traces, which are related. -/
structure State.Linked (T : Trace → Trace → Prop) (s s' : State) : Prop where
  same : s' = { s with trace := s'.trace }
  trace : T s.trace s'.trace

/-- From states that are equal but for their traces, the runs end with the same result or stop for
the same reason, in states that are equal but for their traces. -/
def Run.Lockstep {α : Type} (T : Trace → Trace → Prop) (act act' : Run α) : Prop :=
  ∀ ⦃s s' : State⦄, s.Linked T s' →
    (act'.run s').1 = (act.run s).1 ∧ (act.run s).2.Linked T (act'.run s').2

variable {α β : Type} {T : Trace → Trace → Prop}

/-- A change of the variables alone keeps states linked. -/
theorem State.Linked.scope {s s' : State} (h : s.Linked T s') (f : Scope Value → Scope Value) :
    State.Linked T { s with scope := f s.scope } { s' with scope := f s'.scope } := by
  obtain ⟨hsame, htrace⟩ := h
  refine ⟨?_, htrace⟩
  rw [hsame]

namespace Run

/-! ## Runs in general -/

theorem lockstep_pure (a : α) : Lockstep T (pure a) (pure a) := fun _ _ h => ⟨rfl, h⟩

theorem lockstep_throw (e : Stop) : Lockstep T (throw e : Run α) (throw e) := fun _ _ h => ⟨rfl, h⟩

/-- One pair of runs after the other. -/
theorem Lockstep.bind {act act' : Run α} {f f' : α → Run β} (h : Lockstep T act act')
    (hf : ∀ a, Lockstep T (f a) (f' a)) : Lockstep T (act >>= f) (act' >>= f') := by
  intro s s' hs
  obtain ⟨hresult, hlinked⟩ := h hs
  rcases hrun : act.run s with ⟨e | a, t⟩ <;> rcases hrun' : act'.run s' with ⟨e' | a', t'⟩ <;>
    rw [hrun, hrun'] at hresult hlinked
  -- Both stop for one reason, or both go on with one value.
  · obtain rfl := Except.error.inj hresult
    rw [run_bind_error hrun, run_bind_error hrun']
    exact ⟨rfl, hlinked⟩
  · cases hresult
  · cases hresult
  · obtain rfl := Except.ok.inj hresult
    rw [run_bind_ok hrun, run_bind_ok hrun']
    exact hf a' hlinked

/-- A look at the state that does not show the trace. -/
theorem lockstep_get {f f' : State → Run α} (hf : ∀ s, Lockstep T (f s) (f' s))
    (htrace : ∀ s t, f' { s with trace := t } = f' s) : Lockstep T (get >>= f) (get >>= f') := by
  intro s s' hs
  rw [run_get_bind, run_get_bind]
  have hseen : f' s' = f' s := by
    rw [hs.same, htrace]
  rw [hseen]
  exact hf s hs

/-- A change of the state that leaves the trace alone. -/
theorem lockstep_modify {f : State → State}
    (hf : ∀ s t, f { s with trace := t } = { f s with trace := t }) :
    Lockstep T (modify f : Run Unit) (modify f) := by
  intro s s' hs
  have hkept : (f s).trace = s.trace := by
    have h := hf s s.trace
    rw [h]
  have hchanged : f s' = { f s with trace := s'.trace } := by
    rw [hs.same, hf]
  refine ⟨rfl, ?_, ?_⟩
  · show f s' = { f s with trace := (f s').trace }
    rw [hchanged]
  · show T (f s).trace (f s').trace
    rw [hkept, hchanged]
    exact hs.trace

/-- Writing to the trace is what links are for. -/
theorem lockstep_note [link : Trace.Link T] (level : Nat) (text : String) :
    Lockstep T (note level text) (note level text) := by
  intro s s' hs
  refine ⟨rfl, ?_, link.write level text hs.trace⟩
  show ({ s' with trace := s'.trace.write level text } : State) =
    { s with trace := s'.trace.write level text }
  rw [hs.same]

/-- Blocks are entered and left in both runs alike. -/
theorem Lockstep.inBlock {act act' : Run α} (h : Lockstep T act act') :
    Lockstep T (inBlock act) (inBlock act') := by
  intro s s' hs
  obtain ⟨hresult, hlinked⟩ := h (hs.scope Scope.push)
  exact ⟨hresult, hlinked.scope Scope.pop⟩

/-- Calls in lockstep start with the same variables, and the old ones come back in both runs. -/
theorem Lockstep.inCall {act act' : Run α} (h : Lockstep T act act') (frame : Frame Value) :
    Lockstep T (inCall frame act) (inCall frame act') := by
  intro s s' hs
  obtain ⟨hresult, hlinked⟩ := h (hs.scope fun _ => [frame])
  have hscope : s'.scope = s.scope := by rw [hs.same]
  refine ⟨hresult, ?_⟩
  have hend := hlinked.scope fun _ => s.scope
  show State.Linked T { (act.run { s with scope := [frame] }).2 with scope := s.scope }
    { (act'.run { s' with scope := [frame] }).2 with scope := s'.scope }
  rw [hscope]
  exact hend

/-! ## Primitives -/

/-- Values have the same texts in both states, or none in both. -/
theorem lockstep_textOf (v : Value) : Lockstep T (textOf v) (textOf v) := by
  refine lockstep_get (fun s => ?_) fun _ _ => rfl
  cases s.heap.text? v with
  | none => exact lockstep_throw _
  | some text => exact lockstep_pure text

theorem lockstep_textsOf (vs : List Value) : Lockstep T (textsOf vs) (textsOf vs) := by
  refine lockstep_get (fun s => ?_) fun _ _ => rfl
  cases s.heap.texts? vs with
  | none => exact lockstep_throw _
  | some texts => exact lockstep_pure texts

section

variable [levels : Trace.SameLevels T]

theorem lockstep_keeps (level : Nat) : Lockstep T (keeps level) (keeps level) := by
  intro s s' hs
  refine ⟨?_, hs⟩
  show (Except.ok (s'.trace.keeps level) : Except Stop Bool) = .ok (s.trace.keeps level)
  rw [Trace.keeps, Trace.keeps, levels.verbosity hs.trace]

/-- A text is kept by both traces or by none, so it is refused by both or by none. -/
theorem lockstep_noteText (level : Nat) (text : CodeText) :
    Lockstep T (noteText level text) (noteText level text) := by
  refine (lockstep_keeps level).bind fun kept => ?_
  split
  · cases text.encode? with
    | none => exact lockstep_throw _
    | some line => exact lockstep_note level line
  · exact lockstep_pure _

theorem lockstep_noteValue (level : Nat) (label : String) (v : Value) :
    Lockstep T (noteValue level label v) (noteValue level label v) :=
  (lockstep_textOf v).bind fun _ => lockstep_noteText _ _

theorem lockstep_writeCall (what : String) (args : List Value) :
    Lockstep T (writeCall what args) (writeCall what args) :=
  (lockstep_textsOf args).bind fun _ => lockstep_noteText _ _

theorem lockstep_noteCall (what : String) (args : List Value) :
    Lockstep T (noteCall what args) (noteCall what args) := by
  refine (lockstep_keeps 2).bind fun kept => ?_
  cases kept with
  | false => exact lockstep_pure _
  | true => exact lockstep_writeCall what args

end

theorem lockstep_lookup (name : String) : Lockstep T (lookup name) (lookup name) := by
  refine lockstep_get (fun s => ?_) fun _ _ => rfl
  cases s.scope.get? name with
  | none => exact lockstep_throw _
  | some v => exact lockstep_pure v

theorem lockstep_declare (name : String) (v : Value) :
    Lockstep T (Run.declare name v) (Run.declare name v) := lockstep_modify fun _ _ => rfl

theorem lockstep_assign (name : String) (v : Value) :
    Lockstep T (Run.assign name v) (Run.assign name v) := by
  refine lockstep_get (fun s => ?_) fun _ _ => rfl
  cases s.scope.set? name v with
  | none => exact lockstep_throw _
  | some scope => exact lockstep_modify fun _ _ => rfl

theorem lockstep_itemsOf (h : Handle) : Lockstep T (itemsOf h) (itemsOf h) :=
  lockstep_get (fun _ => lockstep_pure _) fun _ _ => rfl

theorem lockstep_alloc (items : List Value) : Lockstep T (alloc items) (alloc items) :=
  lockstep_get (fun _ => (lockstep_modify fun _ _ => rfl).bind fun _ => lockstep_pure _)
    fun _ _ => rfl

theorem lockstep_store (h : Handle) (i : Nat) (v : Value) :
    Lockstep T (store h i v) (store h i v) := lockstep_modify fun _ _ => rfl

theorem lockstep_print (text : CodeText) : Lockstep T (print text) (print text) := by
  unfold print
  cases text.encode? with
  | none => exact lockstep_throw _
  | some shown => exact lockstep_modify fun _ _ => rfl

theorem lockstep_readLine : Lockstep T readLine readLine := by
  refine lockstep_get (fun s => ?_) fun _ _ => rfl
  cases s.console.readLine? with
  | none => exact lockstep_throw _
  | some read => exact (lockstep_modify fun _ _ => rfl).bind fun _ => lockstep_pure _

theorem lockstep_expectInt (v : Value) : Lockstep T (expectInt v) (expectInt v) := by
  cases v with
  | int n => exact lockstep_pure n
  | _ => exact lockstep_throw _

theorem lockstep_position (v : Value) (length : Nat) :
    Lockstep T (position v length) (position v length) := by
  refine (lockstep_expectInt v).bind fun i => ?_
  split
  · exact lockstep_pure _
  · exact lockstep_throw _

end Run

open Run

/-! ## Operations -/

/-- An element is found in both runs or in none: the arrays are the same. -/
theorem Value.lockstep_elementAt (container i : Value) :
    Lockstep T (container.elementAt i) (container.elementAt i) := by
  cases container with
  | array h =>
    exact (lockstep_itemsOf h).bind fun _ => (lockstep_position _ _).bind fun _ => lockstep_pure _
  | str s => exact (lockstep_position _ _).bind fun _ => lockstep_pure _
  | _ => exact lockstep_throw _

/-- A store changes the same array, or the same variable. -/
theorem Value.lockstep_storeAt (name : String) (container i v : Value) :
    Lockstep T (container.storeAt name i v) (container.storeAt name i v) := by
  unfold Value.storeAt
  split
  · exact (lockstep_itemsOf _).bind fun _ => (lockstep_position _ _).bind fun _ =>
      lockstep_store _ _ _
  · exact (lockstep_position _ _).bind fun _ => lockstep_assign _ _
  · exact lockstep_throw _

theorem Value.lockstep_order (a b : Value) : Lockstep T (Value.order a b) (Value.order a b) := by
  unfold Value.order
  split <;> first | exact lockstep_pure _ | exact lockstep_throw _

theorem Value.lockstep_plus (a b : Value) : Lockstep T (Value.plus a b) (Value.plus a b) := by
  unfold Value.plus
  split
  · exact (lockstep_textOf _).bind fun _ => (lockstep_textOf _).bind fun _ => lockstep_pure _
  · exact (lockstep_textOf _).bind fun _ => (lockstep_textOf _).bind fun _ => lockstep_pure _
  · exact (lockstep_expectInt _).bind fun _ => (lockstep_expectInt _).bind fun _ => lockstep_pure _

/-- Operators do not look at the trace. -/
theorem BinOp.lockstep_combine (op : BinOp) (a b : Value) :
    Lockstep T (op.combine a b) (op.combine a b) := by
  cases op with
  | add => exact Value.lockstep_plus a b
  | sub | mul =>
    exact (lockstep_expectInt a).bind fun _ => (lockstep_expectInt b).bind fun _ => lockstep_pure _
  | div =>
    refine (lockstep_expectInt a).bind fun m => (lockstep_expectInt b).bind fun n => ?_
    cases Word.div? m n with
    | none => exact lockstep_throw _
    | some q => exact lockstep_pure _
  | range => exact lockstep_pure _
  | less | greater => exact (Value.lockstep_order a b).bind fun _ => lockstep_pure _
  | and | or => exact lockstep_pure _

/-- Loops visit the same elements. -/
theorem Value.lockstep_elements (v : Value) : Lockstep T v.elements v.elements := by
  unfold Value.elements
  split
  · exact (lockstep_itemsOf _).bind fun _ => lockstep_pure _
  · exact lockstep_pure _
  · exact lockstep_throw _
  · exact (lockstep_expectInt _).bind fun _ => (lockstep_expectInt _).bind fun _ => lockstep_pure _
  · exact lockstep_pure _
  · exact lockstep_throw _

/-- Built-in functions do not look at the trace: they print, read and allocate the same. -/
theorem Builtin.lockstep_apply (b : Builtin) (args : List Value) :
    Lockstep T (b.apply args) (b.apply args) := by
  cases b with
  | print | println =>
    exact (lockstep_textsOf args).bind fun _ => (lockstep_print _).bind fun _ => lockstep_pure _
  | readln => exact lockstep_readLine.bind fun _ => lockstep_pure _
  | readlnInt =>
    refine lockstep_readLine.bind fun line => ?_
    cases Text.readInt line with
    | error stop => exact lockstep_throw stop
    | ok n => exact lockstep_pure _
  | readlnBoolean =>
    refine lockstep_readLine.bind fun line => ?_
    cases Text.readBoolean? line with
    | none => exact lockstep_throw _
    | some b => exact lockstep_pure _
  | arrayOf => exact lockstep_alloc args

end Scriptlet
