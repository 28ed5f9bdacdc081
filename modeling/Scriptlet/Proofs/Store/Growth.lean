import Scriptlet.Eval.Call
import Scriptlet.Proofs.Eval.Safe
import Scriptlet.Proofs.Syntax.Induction

/-!
# Arrays keep their lengths

A run adds arrays and replaces elements, and that is all it does to the heap.  So the lengths of the
arrays, listed in the order of creation, only ever get more entries at the end.  `Run.Grows` says so
of a run; it holds of every primitive and passes from parts to wholes.
-/

namespace Scriptlet

namespace Heap

/-- How many arrays there are. -/
def size (m : Heap) : Nat := m.arrays.size

/-- The lengths of the arrays, in the order of their creation. -/
def lengths (m : Heap) : List Nat := m.arrays.toList.map Array.size

@[simp] theorem length_lengths (m : Heap) : m.lengths.length = m.size := by
  simp [lengths, size]

/-- A new array comes last. -/
theorem lengths_alloc (m : Heap) (items : Array Value) :
    (m.alloc items).2.lengths = m.lengths ++ [items.size] := by
  simp [alloc, lengths]

/-- Replacing an element changes no length. -/
theorem lengths_store (m : Heap) (h : Handle) (i : Nat) (v : Value) :
    (m.store h i v).lengths = m.lengths := by
  apply List.ext_getElem?
  intro k
  simp only [store, lengths, List.getElem?_map, Array.getElem?_toList, Array.getElem?_modify]
  split
  · cases m.arrays[k]? <;> simp
  · rfl

end Heap

namespace Run

variable {α β : Type}

/-- Every array that is there before the run keeps its length; arrays may be added. -/
def Grows (act : Run α) : Prop := ∀ s, s.heap.lengths <+: (act.run s).2.heap.lengths

/-! ## Runs in general -/

theorem grows_pure (a : α) : Grows (pure a) := fun _ => List.prefix_rfl

theorem grows_throw (e : Stop) : Grows (throw e : Run α) := fun _ => List.prefix_rfl

/-- One run after the other: both keep lengths, so both together do. -/
theorem Grows.bind {act : Run α} {f : α → Run β} (h : Grows act) (hf : ∀ a, Grows (f a)) :
    Grows (act >>= f) := by
  intro s
  have hact := h s
  rcases hrun : act.run s with ⟨e | a, t⟩ <;> rw [hrun] at hact
  · rw [run_bind_error hrun]
    exact hact
  · rw [run_bind_ok hrun]
    exact hact.trans (hf a t)

/-- A look at the state changes nothing. -/
theorem grows_get_bind {f : State → Run α} (hf : ∀ s, Grows (f s)) : Grows (get >>= f) := by
  intro s
  rw [run_get_bind]
  exact hf s s

/-- A change of the state that leaves the heap alone. -/
theorem grows_modify {f : State → State} (hf : ∀ s, (f s).heap = s.heap) :
    Grows (modify f : Run Unit) := by
  intro s
  have hlengths : (f s).heap.lengths = s.heap.lengths := congrArg Heap.lengths (hf s)
  exact hlengths ▸ List.prefix_rfl

/-! ## Primitives -/

theorem grows_note (level : Nat) (text : String) : Grows (note level text) :=
  grows_modify fun _ => rfl

theorem grows_keeps (level : Nat) : Grows (keeps level) := grows_get_bind fun _ => grows_pure _

theorem grows_textOf (v : Value) : Grows (textOf v) := by
  refine grows_get_bind fun s => ?_
  cases s.heap.text? v with
  | none => exact grows_throw _
  | some text => exact grows_pure text

theorem grows_noteText (level : Nat) (text : CodeText) : Grows (noteText level text) := by
  refine (grows_keeps level).bind fun kept => ?_
  split
  · cases text.encode? with
    | none => exact grows_throw _
    | some line => exact grows_note level line
  · exact grows_pure _

theorem grows_noteValue (level : Nat) (label : String) (v : Value) :
    Grows (noteValue level label v) :=
  (grows_textOf v).bind fun _ => grows_noteText _ _

theorem grows_textsOf (vs : List Value) : Grows (textsOf vs) := by
  refine grows_get_bind fun s => ?_
  cases s.heap.texts? vs with
  | none => exact grows_throw _
  | some texts => exact grows_pure texts

theorem grows_lookup (name : String) : Grows (lookup name) := by
  refine grows_get_bind fun s => ?_
  cases s.scope.get? name with
  | none => exact grows_throw _
  | some v => exact grows_pure v

theorem grows_declare (name : String) (v : Value) : Grows (Run.declare name v) :=
  grows_modify fun _ => rfl

/-- A variable is set or is missing; the heap is no part of either. -/
theorem grows_assign (name : String) (v : Value) : Grows (assign name v) := by
  refine grows_get_bind fun s => ?_
  cases s.scope.set? name v with
  | none => exact grows_throw _
  | some scope => exact grows_modify fun _ => rfl

/-- Blocks change variables alone. -/
theorem grows_inBlock {act : Run α} (h : Grows act) : Grows (inBlock act) :=
  fun s => h { s with scope := s.scope.push }

/-- Calls change variables alone. -/
theorem grows_inCall (frame : Frame Value) {act : Run α} (h : Grows act) :
    Grows (inCall frame act) :=
  fun s => h { s with scope := [frame] }

theorem grows_itemsOf (h : Handle) : Grows (itemsOf h) := grows_get_bind fun _ => grows_pure _

/-- A new array adds its length behind the others. -/
theorem grows_alloc (items : List Value) : Grows (alloc items) := by
  intro s
  show s.heap.lengths <+: (s.heap.alloc items.toArray).2.lengths
  rw [Heap.lengths_alloc]
  exact List.prefix_append _ _

/-- A store changes an element and no length. -/
theorem grows_store (h : Handle) (i : Nat) (v : Value) : Grows (store h i v) := by
  intro s
  exact Heap.lengths_store s.heap h i v ▸ List.prefix_rfl

theorem grows_print (text : CodeText) : Grows (print text) := by
  unfold print
  cases text.encode? with
  | none => exact grows_throw _
  | some shown => exact grows_modify fun _ => rfl

theorem grows_readLine : Grows readLine := by
  refine grows_get_bind fun s => ?_
  cases s.console.readLine? with
  | none => exact grows_throw _
  | some read =>
    exact Grows.bind (f := fun _ => pure read.1) (grows_modify fun _ => rfl) fun _ => grows_pure _

theorem grows_expectInt (v : Value) : Grows (expectInt v) := by
  cases v with
  | int n => exact grows_pure n
  | _ => exact grows_throw _

theorem grows_position (v : Value) (length : Nat) : Grows (position v length) := by
  refine (grows_expectInt v).bind fun i => ?_
  split
  · exact grows_pure _
  · exact grows_throw _

theorem grows_noteCall (what : String) (args : List Value) : Grows (noteCall what args) := by
  refine (grows_keeps 2).bind fun keeps => ?_
  cases keeps with
  | false => exact grows_pure _
  | true => exact (grows_textsOf args).bind fun _ => grows_noteText _ _

end Run

open Run

/-! ## Operations -/

theorem Value.grows_elementAt (container i : Value) : Grows (container.elementAt i) := by
  cases container with
  | array h =>
    exact (grows_itemsOf h).bind fun _ => (grows_position _ _).bind fun _ => grows_pure _
  | str s => exact (grows_position _ _).bind fun _ => grows_pure _
  | _ => exact grows_throw _

/-- Storing an element changes an array in its place, or a variable. -/
theorem Value.grows_storeAt (name : String) (container i v : Value) :
    Grows (container.storeAt name i v) := by
  unfold Value.storeAt
  split
  · exact (grows_itemsOf _).bind fun _ => (grows_position _ _).bind fun _ => grows_store _ _ _
  · exact (grows_position _ _).bind fun _ => grows_assign _ _
  · exact grows_throw _

theorem Value.grows_order (a b : Value) : Grows (Value.order a b) := by
  unfold Value.order
  split <;> first | exact grows_pure _ | exact grows_throw _

theorem Value.grows_plus (a b : Value) : Grows (Value.plus a b) := by
  unfold Value.plus
  split
  · exact (grows_textOf _).bind fun _ => (grows_textOf _).bind fun _ => grows_pure _
  · exact (grows_textOf _).bind fun _ => (grows_textOf _).bind fun _ => grows_pure _
  · exact (grows_expectInt _).bind fun _ => (grows_expectInt _).bind fun _ => grows_pure _

/-- Operators make no arrays. -/
theorem BinOp.grows_combine (op : BinOp) (a b : Value) : Grows (op.combine a b) := by
  cases op with
  | and | or => exact grows_pure _
  | add => exact Value.grows_plus a b
  | sub | mul =>
    exact (grows_expectInt a).bind fun _ => (grows_expectInt b).bind fun _ => grows_pure _
  | div =>
    refine (grows_expectInt a).bind fun m => (grows_expectInt b).bind fun n => ?_
    cases Word.div? m n with
    | none => exact grows_throw _
    | some q => exact grows_pure _
  | range => exact grows_pure _
  | less | greater => exact (Value.grows_order a b).bind fun _ => grows_pure _

/-- What a loop visits is looked up once, and nothing changes by that. -/
theorem Value.grows_elements (v : Value) : Grows v.elements := by
  unfold Value.elements
  split
  · exact (grows_itemsOf _).bind fun _ => grows_pure _
  · exact grows_pure _
  · exact grows_throw _
  · exact (grows_expectInt _).bind fun _ => (grows_expectInt _).bind fun _ => grows_pure _
  · exact grows_pure _
  · exact grows_throw _

/-- Of the built-in functions only one makes arrays, and it makes one. -/
theorem Builtin.grows_apply (b : Builtin) (args : List Value) : Grows (b.apply args) := by
  cases b with
  | print | println =>
    exact (grows_textsOf args).bind fun _ => (grows_print _).bind fun _ => grows_pure _
  | readln => exact grows_readLine.bind fun _ => grows_pure _
  | readlnInt =>
    refine grows_readLine.bind fun line => ?_
    cases Text.readInt line with
    | error stop => exact grows_throw _
    | ok n => exact grows_pure _
  | readlnBoolean =>
    refine grows_readLine.bind fun line => ?_
    cases Text.readBoolean? line with
    | none => exact grows_throw _
    | some b => exact grows_pure _
  | arrayOf => exact grows_alloc args

/-! ## Statements and loops -/

namespace Run

theorem grows_announce (e : Expr) : Grows (announce e) := grows_note _ _

theorem grows_announceStatement (e : Expr) : Grows (announceStatement e) := by
  rw [announceStatement]
  split
  · exact grows_announce e
  · exact grows_pure _

theorem grows_asValue (e : Expr) {act : Run Effect} (h : Grows act) : Grows (asValue e act) := by
  refine (grows_announceStatement e).bind fun _ => h.bind fun effect => ?_
  rcases effect with v | (_ | v)
  · exact grows_pure v
  · exact grows_pure _
  · exact grows_throw _

theorem grows_asStatement (e : Expr) {act : Run Effect} (h : Grows act) :
    Grows (asStatement e act) := by
  refine (grows_announce e).bind fun _ => h.bind fun effect => ?_
  rcases effect with v | c
  · exact grows_pure _
  · exact grows_pure c

theorem grows_andThen {first second : Run Completion} (hfirst : Grows first)
    (hsecond : Grows second) : Grows (andThen first second) := by
  refine hfirst.bind fun c => ?_
  cases c with
  | normal => exact hsecond
  | returned v => exact grows_pure _

/-- Runs for one value after the other keep lengths if each of them does. -/
theorem grows_eachValue {body : Value → Run Completion} (h : ∀ v, Grows (body v))
    (vs : List Value) : Grows (eachValue body vs) := by
  induction vs with
  | nil => exact grows_pure _
  | cons v vs ih => exact grows_andThen (h v) ih

theorem grows_roundFor (name : String) {body : Run Completion} (h : Grows body) (v : Value) :
    Grows (roundFor name body v) :=
  (grows_noteValue _ _ v).bind fun _ => (grows_declare _ _).bind fun _ => h

/-- A loop over values keeps lengths if its body does, whether its rounds share a scope or not. -/
theorem grows_forLoop (scope : ForScope) (name : String) {body : Run Completion} (h : Grows body)
    (items : Items) : Grows (forLoop scope name body items) := by
  cases scope with
  | shared =>
    rw [forLoop, each_eq]
    exact grows_inBlock (grows_eachValue (grows_roundFor name h) _)
  | fresh =>
    rw [forLoop, each_eq]
    exact grows_eachValue (fun v => grows_inBlock (grows_roundFor name h v)) _

/-- By induction on the rounds that are left. -/
theorem grows_whileTrue {cond : Run Value} {body : Run Completion} (hcond : Grows cond)
    (hbody : Grows body) (rounds : Nat) : Grows (whileTrue cond body rounds) := by
  induction rounds with
  | zero => exact grows_throw _
  | succ rounds ih =>
    refine hcond.bind fun c => ?_
    split
    · exact (grows_note _ _).bind fun _ => grows_andThen (grows_inBlock hbody) ih
    · exact grows_pure _

/-- Taking the result of a body does not change the state that it left. -/
theorem snd_run_resultOf (body : Run Completion) (s : State) :
    ((resultOf body).run s).2 = (body.run s).2 := by
  show (resultOf body s).2 = _
  unfold resultOf
  rcases body.run s with ⟨(v | f | b | _ | _ | _ | _ | _) | (_ | v), t⟩ <;> rfl

theorem grows_resultOf {body : Run Completion} (h : Grows body) : Grows (resultOf body) := by
  intro s
  rw [snd_run_resultOf]
  exact h s

end Run

/-! ## Forms -/

namespace Machine

/-- Calls keep the lengths of arrays. -/
def GrowingCalls (m : Machine) : Prop := ∀ name vs, Grows (m.call name vs)

variable {m : Machine}

/-- Arguments keep lengths if each of them does. -/
theorem grows_values_of {es : List Expr} (ih : ∀ e ∈ es, Grows (m.step e)) : Grows (m.values es) := by
  induction es with
  | nil => exact grows_pure _
  | cons e es ihes =>
    refine (grows_asValue e (ih e List.mem_cons_self)).bind fun v => ?_
    exact (ihes fun x hx => ih x (List.mem_cons_of_mem _ hx)).bind fun vs => grows_pure _

/-- Statements keep lengths if each of them does. -/
theorem grows_block_of {es : List Expr} (ih : ∀ e ∈ es, Grows (m.step e)) : Grows (m.block es) := by
  induction es with
  | nil => exact grows_pure _
  | cons e es ihes =>
    exact grows_andThen (grows_asStatement e (ih e List.mem_cons_self))
      (ihes fun x hx => ih x (List.mem_cons_of_mem _ hx))

/-- Running a form keeps the lengths of arrays. -/
theorem GrowingCalls.step (hm : m.GrowingCalls) (e : Expr) : Grows (m.step e) := by
  induction e using Expr.induction with
  | int | bool | char | str | returnUnit => exact grows_pure _
  | var s name => exact (grows_lookup name).bind fun _ => grows_pure _
  | index s base position ih =>
    refine (grows_lookup _).bind fun container => (grows_asValue _ ih).bind fun i => ?_
    exact (Value.grows_elementAt container i).bind fun _ => grows_pure _
  | neg s e ih =>
    exact (grows_asValue _ ih).bind fun v => (grows_expectInt v).bind fun _ => grows_pure _
  | not s e ih | parens s e ih | returnValue s e ih =>
    exact (grows_asValue _ ih).bind fun _ => grows_pure _
  | binary s op l r ihl ihr =>
    refine (grows_asValue _ ihl).bind fun a => ?_
    cases op.shortcut? a with
    | some v => exact grows_pure _
    | none =>
      refine (grows_asValue _ ihr).bind fun b => ?_
      exact (op.grows_combine a b).bind fun _ => grows_pure _
  | call s name args ih =>
    exact (grows_values_of ih).bind fun vs => (hm name vs).bind fun _ => grows_pure _
  | declare s mutable name value ih =>
    refine (grows_asValue _ ih).bind fun v => (grows_declare name v).bind fun _ => ?_
    exact (grows_noteValue _ _ v).bind fun _ => grows_pure _
  | assign s name value ih =>
    exact (grows_asValue _ ih).bind fun v => (grows_assign name v).bind fun _ => grows_pure _
  | store s target base position value ihp ihv =>
    refine (grows_lookup _).bind fun container => (grows_asValue _ ihp).bind fun i => ?_
    refine (grows_asValue _ ihv).bind fun v => ?_
    exact (Value.grows_storeAt _ container i v).bind fun _ => grows_pure _
  | branch s cond body otherwise ihc ihb iho =>
    refine (grows_asValue _ ihc).bind fun c => (grows_noteValue _ _ c).bind fun _ => ?_
    split
    · exact (grows_inBlock (grows_block_of ihb)).bind fun _ => grows_pure _
    · exact (grows_inBlock (grows_block_of iho)).bind fun _ => grows_pure _
  | forIn s name iterable body ihi ihb =>
    refine (grows_asValue _ ihi).bind fun v => (Value.grows_elements v).bind fun items => ?_
    exact (grows_forLoop _ name (grows_block_of ihb) items).bind fun _ => grows_pure _
  | loop s cond body ihc ihb =>
    exact (grows_whileTrue (grows_asValue _ ihc) (grows_block_of ihb) _).bind fun _ => grows_pure _

theorem GrowingCalls.eval (hm : m.GrowingCalls) (e : Expr) : Grows (m.eval e) :=
  grows_asValue e (hm.step e)

theorem GrowingCalls.values (hm : m.GrowingCalls) (es : List Expr) : Grows (m.values es) :=
  grows_values_of fun e _ => hm.step e

theorem GrowingCalls.block (hm : m.GrowingCalls) (es : List Expr) : Grows (m.block es) :=
  grows_block_of fun e _ => hm.step e

end Machine

/-! ## Calls -/

namespace Program

/-- A call by name keeps lengths if the functions of the program do. -/
theorem grows_dispatch (p : Program) {user : Fun → List Value → Run Value}
    (huser : ∀ f vs, Grows (user f vs)) (name : String) (vs : List Value) :
    Grows (p.dispatch user name vs) := by
  unfold Program.dispatch
  split
  · exact (grows_noteCall _ _).bind fun _ => Builtin.grows_apply _ vs
  · split
    · exact grows_throw _
    · refine (grows_noteCall _ _).bind fun _ => (huser _ vs).bind fun v => ?_
      exact (grows_noteValue _ _ v).bind fun _ => grows_pure v

/-- Runs of functions keep the lengths of arrays, however deep calls are nested. -/
theorem grows_invoke (p : Program) (o : Settings) (depth : Nat) (f : Fun) (vs : List Value) :
    Grows (p.invoke o depth f vs) := by
  induction depth generalizing f vs with
  | zero => exact grows_throw _
  | succ depth ih =>
    have hm : Machine.GrowingCalls ⟨p.dispatch (p.invoke o depth), o.rounds, o.forScope⟩ :=
      fun name vs => p.grows_dispatch ih name vs
    exact grows_inCall _ (grows_resultOf (hm.block f.body))

end Program

end Scriptlet
