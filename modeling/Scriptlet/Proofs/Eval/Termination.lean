import Scriptlet.Proofs.Eval.Astray
import Scriptlet.Proofs.Store.Cycles
import Scriptlet.Proofs.Syntax.Forms

/-!
# Programs that end

A program without `while` loops whose functions do not call themselves, be it through others, ends:
`Program.run_ends_of_noRecursion`.  What a `for` loop visits is fixed when it starts, so there are as
many rounds as elements whatever its body does, and calls are not nested deeper than there are
functions.

That a run ends is said with its bounds.  From some depth of calls on, every bound gives the same
run, and that run stops at none of its bounds.
-/

namespace Scriptlet

/-- Reasons to stop that are no bound on the run; an array that contains itself cannot be shown. -/
def Stop.Genuine (heap : Heap) : Stop → Prop
  | .tooDeep => ¬ heap.Acyclic
  | .outOfRounds => False
  | .returned _ | .fault _ | .breach _ | .unitOrder | .rangeEnd | .noPlace | .overlong | .unprintable
  | .untraceable _ => True

namespace Run

variable {α β : Type}

/-- The run does not stop at a bound. -/
class Completes (act : Run α) : Prop where
  genuine (s : State) (stop : Stop) (h : (act.run s).1 = .error stop) :
    stop.Genuine (act.run s).2.heap

/-! ## Runs in general -/

instance completes_pure (a : α) : Completes (pure a) where
  genuine _ _ h := nomatch h

theorem completes_throw {stop : Stop} (h : ∀ heap, stop.Genuine heap) :
    Completes (throw stop : Run α) where
  genuine s stop' hstop := by
    obtain rfl := Except.error.inj hstop
    exact h s.heap

instance completes_fault (f : Fault) : Completes (throw (.fault f) : Run α) :=
  completes_throw fun _ => trivial

instance completes_breach (b : Breach) : Completes (throw (.breach b) : Run α) :=
  completes_throw fun _ => trivial

theorem Completes.bind {act : Run α} {f : α → Run β} (h : Completes act)
    (hf : ∀ a, Completes (f a)) : Completes (act >>= f) where
  genuine s stop hstop := by
    -- Either the first part stops, in the state where the whole stops, or the second part does.
    rcases hrun : act.run s with ⟨e | a, t⟩
    · rw [run_bind_error hrun] at hstop ⊢
      obtain rfl := Except.error.inj hstop
      have hgenuine := h.genuine s e (by rw [hrun])
      rwa [hrun] at hgenuine
    · rw [run_bind_ok hrun] at hstop ⊢
      exact (hf a).genuine t stop hstop

instance completes_bind {act : Run α} {f : α → Run β} [h : Completes act]
    [hf : ∀ a, Completes (f a)] : Completes (act >>= f) := h.bind hf

instance completes_ite {p : Prop} [Decidable p] {act act' : Run α} [h : Completes act]
    [h' : Completes act'] : Completes (if p then act else act') := by
  split
  · exact h
  · exact h'

instance completes_get : Completes (get : Run State) where
  genuine _ _ h := nomatch h

instance completes_modify (f : State → State) : Completes (modify f : Run Unit) where
  genuine _ _ h := nomatch h

instance completes_inBlock {act : Run α} [h : Completes act] : Completes (inBlock act) where
  genuine s stop hstop := h.genuine { s with scope := s.scope.push } stop hstop

instance completes_inCall {act : Run α} [h : Completes act] (frame : Frame Value) :
    Completes (inCall frame act) where
  genuine s stop hstop := h.genuine { s with scope := [frame] } stop hstop

theorem Completes.resultOf {body : Run Completion} (h : Completes body) :
    Completes (resultOf body) where
  genuine s stop hstop := by
    have hrun : (Run.resultOf body).run s = Run.resultOf body s := rfl
    rw [hrun, Run.resultOf] at hstop ⊢
    have hgenuine := h.genuine s
    rcases hbody : body.run s with ⟨e | c, t⟩ <;> rw [hbody] at hstop hgenuine
    · cases e with
      | returned v => cases hstop
      | _ =>
        obtain rfl := Except.error.inj hstop
        exact hgenuine _ rfl
    · cases c <;> cases hstop

/-! ## Primitives -/

instance completes_note (level : Nat) (text : String) : Completes (note level text) :=
  completes_modify _

instance completes_textOf (v : Value) : Completes (textOf v) where
  genuine s stop hstop := by
    rcases textOf_cases v s with ⟨text, hrun⟩ | ⟨hrun, hcyclic⟩ <;> rw [hrun] at hstop ⊢
    · cases hstop
    · obtain rfl := Except.error.inj hstop
      exact hcyclic

instance completes_keeps (level : Nat) : Completes (keeps level) := completes_bind

instance completes_noteText (level : Nat) (text : CodeText) : Completes (noteText level text) := by
  refine (completes_keeps level).bind fun kept => ?_
  split
  · cases text.encode? with
    | none => exact completes_throw fun _ => trivial
    | some line => exact completes_note level line
  · exact completes_pure _

instance completes_noteValue (level : Nat) (label : String) (v : Value) :
    Completes (noteValue level label v) := completes_bind

instance completes_textsOf (vs : List Value) : Completes (textsOf vs) where
  genuine s stop hstop := by
    rcases textsOf_cases vs s with ⟨texts, hrun⟩ | ⟨hrun, hcyclic⟩ <;> rw [hrun] at hstop ⊢
    · cases hstop
    · obtain rfl := Except.error.inj hstop
      exact hcyclic

instance completes_lookup (name : String) : Completes (lookup name) := by
  refine completes_get.bind fun s => ?_
  cases s.scope.get? name <;> infer_instance

instance completes_declare (name : String) (v : Value) : Completes (Run.declare name v) :=
  completes_modify _

instance completes_assign (name : String) (v : Value) : Completes (Run.assign name v) := by
  refine completes_get.bind fun s => ?_
  cases s.scope.set? name v <;> infer_instance

instance completes_itemsOf (h : Handle) : Completes (itemsOf h) := completes_bind

instance completes_alloc (items : List Value) : Completes (alloc items) := completes_bind

instance completes_store (h : Handle) (i : Nat) (v : Value) : Completes (store h i v) :=
  completes_modify _

instance completes_print (text : CodeText) : Completes (print text) := by
  unfold print
  cases text.encode? with
  | none => exact completes_throw fun _ => trivial
  | some shown => exact completes_modify _

instance completes_readLine : Completes readLine := by
  refine completes_get.bind fun s => ?_
  cases s.console.readLine? <;> infer_instance

instance completes_expectInt (v : Value) : Completes (expectInt v) := by
  cases v <;> simp only [expectInt] <;> infer_instance

instance completes_position (v : Value) (length : Nat) : Completes (position v length) :=
  completes_bind

end Run

open Run

/-! ## Operations -/

instance Value.completes_elementAt (container i : Value) : Completes (container.elementAt i) := by
  cases container <;> simp only [Value.elementAt] <;> infer_instance

instance Value.completes_storeAt (name : String) (container i v : Value) :
    Completes (container.storeAt name i v) := by
  unfold Value.storeAt
  split <;> infer_instance

instance Value.completes_order (a b : Value) : Completes (Value.order a b) := by
  unfold Value.order
  split <;> first | infer_instance | exact completes_throw fun _ => trivial

instance Value.completes_plus (a b : Value) : Completes (Value.plus a b) := by
  unfold Value.plus
  split <;> infer_instance

instance BinOp.completes_combine (op : BinOp) (a b : Value) : Completes (op.combine a b) := by
  cases op with
  | div =>
    refine (completes_expectInt a).bind fun m => (completes_expectInt b).bind fun n => ?_
    cases Word.div? m n <;> infer_instance
  | add => exact Value.completes_plus a b
  | sub | mul | range | less | greater => simp only [BinOp.combine, Value.operate]; infer_instance
  | and | or => exact completes_pure _

instance Value.completes_elements (v : Value) : Completes v.elements := by
  unfold Value.elements
  split <;> first | infer_instance | exact completes_throw fun _ => trivial

instance Builtin.completes_apply (b : Builtin) (args : List Value) : Completes (b.apply args) := by
  cases b with
  | readlnInt =>
    refine completes_readLine.bind fun line => ?_
    cases hread : Text.readInt line with
    | ok n => exact completes_pure _
    | error stop =>
      obtain rfl | rfl := Text.readInt_error hread
      · exact completes_fault _
      · exact completes_throw fun _ => trivial
  | readlnBoolean =>
    refine completes_readLine.bind fun line => ?_
    cases Text.readBoolean? line <;> infer_instance
  | print | println | readln | arrayOf => simp only [Builtin.apply]; infer_instance

/-! ## Statements and loops -/

namespace Run

instance completes_announce (e : Expr) : Completes (announce e) := completes_note _ _

instance completes_announceStatement (e : Expr) : Completes (announceStatement e) := completes_ite

theorem Completes.asValue {act : Run Effect} (h : Completes act) (e : Expr) :
    Completes (asValue e act) := by
  refine (completes_announceStatement e).bind fun _ => h.bind fun effect => ?_
  rcases effect with v | _ | v
  · exact completes_pure v
  · exact completes_pure _
  · exact completes_throw fun _ => trivial

theorem Completes.asStatement {act : Run Effect} (h : Completes act) (e : Expr) :
    Completes (asStatement e act) := by
  refine (completes_note _ _).bind fun _ => h.bind fun effect => ?_
  cases effect <;> infer_instance

theorem Completes.andThen {first second : Run Completion} (h : Completes first)
    (h' : Completes second) : Completes (andThen first second) := by
  refine h.bind fun c => ?_
  cases c with
  | normal => exact h'
  | returned v => exact completes_pure _

/-- A loop over a list is as long as the list, whatever the rounds do. -/
theorem completes_eachValue {body : Value → Run Completion} (h : ∀ v, Completes (body v))
    (vs : List Value) : Completes (eachValue body vs) := by
  induction vs with
  | nil => exact completes_pure _
  | cons v vs ih => exact (h v).andThen ih

theorem Completes.forLoop {body : Run Completion} (h : Completes body) (scope : ForScope)
    (name : String) (items : Items) : Completes (forLoop scope name body items) := by
  have hround : ∀ v, Completes (roundFor name body v) := fun v =>
    (completes_noteValue _ _ v).bind fun _ => (completes_declare name v).bind fun _ => h
  cases scope with
  | shared =>
    rw [Run.forLoop, each_eq]
    have hrounds := completes_eachValue hround items.toList
    exact completes_inBlock
  | fresh =>
    rw [Run.forLoop, each_eq]
    exact completes_eachValue (fun v => completes_inBlock (h := hround v)) items.toList

end Run

/-! ## Forms -/

namespace Machine

variable {m m' : Machine}

theorem completes_values {es : List Expr} (h : ∀ e ∈ es, Completes (m.step e)) :
    Completes (m.values es) := by
  induction es with
  | nil => exact completes_pure _
  | cons e es ih =>
    obtain ⟨he, hes⟩ := List.forall_mem_cons.1 h
    exact (he.asValue e).bind fun _ => (ih hes).bind fun _ => completes_pure _

theorem completes_block {es : List Expr} (h : ∀ e ∈ es, Completes (m.step e)) :
    Completes (m.block es) := by
  induction es with
  | nil => exact completes_pure _
  | cons e es ih =>
    obtain ⟨he, hes⟩ := List.forall_mem_cons.1 h
    exact (he.asStatement e).andThen (ih hes)

/-- A form without `while` loops completes if the calls do that it makes. -/
theorem completes_step {e : Expr}
    (he : e.Straight fun name => ∀ vs, Completes (m.call name vs)) : Completes (m.step e) := by
  -- what completes is found by instances; only what depends on the form is stated here
  induction e using Expr.induction with
  | int | bool | char | str | returnUnit => exact completes_pure _
  | var span name => exact completes_bind
  | index span base position ih =>
    have hposition := (ih (he.part (by simp [Expr.parts]))).asValue position
    exact completes_bind
  | neg span e ih | not span e ih | parens span e ih | returnValue span e ih =>
    have hvalue := (ih (he.part (by simp [Expr.parts]))).asValue e
    exact completes_bind
  | declare span mutable name value ih | assign span name value ih =>
    have hvalue := (ih (he.part (by simp [Expr.parts]))).asValue value
    exact completes_bind
  | binary span op l r ihl ihr =>
    have hr := (ihr (he.part (by simp [Expr.parts]))).asValue r
    refine ((ihl (he.part (by simp [Expr.parts]))).asValue l).bind fun a => ?_
    cases op.shortcut? a with
    | some v => exact completes_pure _
    | none => exact completes_bind
  | call span name args ih =>
    have hargs := completes_values fun e hmem => ih e hmem (he.part hmem)
    have hcall := he.callee
    exact completes_bind
  | store span target base position value ihp ihv =>
    have hposition := (ihp (he.part (by simp [Expr.parts]))).asValue position
    have hvalue := (ihv (he.part (by simp [Expr.parts]))).asValue value
    exact completes_bind
  | branch span cond body otherwise ihc ihb iho =>
    have hcond := (ihc (he.part (by simp [Expr.parts]))).asValue cond
    have hbody := completes_block fun e hmem => ihb e hmem (he.part (by simp [Expr.parts, hmem]))
    have hotherwise :=
      completes_block fun e hmem => iho e hmem (he.part (by simp [Expr.parts, hmem]))
    exact completes_bind
  | forIn span name iterable body ihi ihb =>
    have hiterable := (ihi (he.part (by simp [Expr.parts]))).asValue iterable
    have hbody := completes_block fun e hmem => ihb e hmem (he.part (by simp [Expr.parts, hmem]))
    exact hiterable.bind fun v => v.completes_elements.bind fun items =>
      (hbody.forLoop m.forScope name items).bind fun _ => completes_pure _
  | loop span cond body => exact absurd he (Expr.not_straight_loop span cond body)

/-! ## The same calls -/

theorem values_congr {es : List Expr} (h : ∀ e ∈ es, m'.step e = m.step e) :
    m'.values es = m.values es := by
  induction es with
  | nil => rfl
  | cons e es ih =>
    obtain ⟨he, hes⟩ := List.forall_mem_cons.1 h
    rw [values, values, he, ih hes]

theorem block_congr {es : List Expr} (h : ∀ e ∈ es, m'.step e = m.step e) :
    m'.block es = m.block es := by
  induction es with
  | nil => rfl
  | cons e es ih =>
    obtain ⟨he, hes⟩ := List.forall_mem_cons.1 h
    rw [block, block, he, ih hes]

/-- A form without `while` loops runs the same wherever the calls are the same that it makes. -/
theorem step_congr (hscope : m'.forScope = m.forScope) {e : Expr}
    (he : e.Straight fun name => m'.call name = m.call name) : m'.step e = m.step e := by
  induction e using Expr.induction with
  | int | bool | char | str | var | returnUnit => rfl
  | index _ _ _ ih | neg _ _ ih | not _ _ ih | parens _ _ ih | declare _ _ _ _ ih
  | assign _ _ _ ih | returnValue _ _ ih =>
    rw [step, step, ih (he.part (by simp [Expr.parts]))]
  | binary _ _ _ _ ihl ihr | store _ _ _ _ _ ihl ihr =>
    rw [step, step, ihl (he.part (by simp [Expr.parts])), ihr (he.part (by simp [Expr.parts]))]
  | call _ _ _ ih =>
    rw [step, step, values_congr fun e hmem => ih e hmem (he.part hmem), he.callee]
  | branch _ _ _ _ ihc ihb iho =>
    rw [step, step, ihc (he.part (by simp [Expr.parts])),
      block_congr fun e hmem => ihb e hmem (he.part (by simp [Expr.parts, hmem])),
      block_congr fun e hmem => iho e hmem (he.part (by simp [Expr.parts, hmem]))]
  | forIn _ _ _ _ ihi ihb =>
    rw [step, step, ihi (he.part (by simp [Expr.parts])),
      block_congr fun e hmem => ihb e hmem (he.part (by simp [Expr.parts, hmem])), hscope]
  | loop span cond body => exact absurd he (Expr.not_straight_loop span cond body)

end Machine

/-! ## Calls -/

instance Run.completes_writeCall (what : String) (args : List Value) :
    Completes (writeCall what args) := completes_bind

instance Run.completes_noteCall (what : String) (args : List Value) :
    Completes (noteCall what args) := completes_bind

namespace Program

variable {p : Program} {o : Settings}

/-- The names of the functions that a function of the program calls, built-in functions aside. -/
def callees (p : Program) (name : String) : List String :=
  match p.find? name with
  | none => []
  | some f => ((Expr.formsAll f.body).filterMap Expr.callee?).filter fun g =>
      (Builtin.ofName? g).isNone

/-- One function of the program calls the other. -/
def Calls (p : Program) (name name' : String) : Prop := name' ∈ p.callees name

/-- No function that can be reached from the start calls itself, be it through others. -/
def NoRecursion (p : Program) : Prop :=
  ∀ name, Relation.ReflTransGen p.Calls "main" name → ¬ Relation.TransGen p.Calls name name

/-- There is no `while` loop in the program. -/
def LoopFree (p : Program) : Prop :=
  ∀ f ∈ p.functions, ∀ e ∈ Expr.formsAll f.body, e.isLoop = false

/-- In the body of a function there are no `while` loops, and calls are of built-in functions or of
functions that this one calls. -/
theorem LoopFree.straight (h : p.LoopFree) {name : String} {f : Fun} (hf : p.find? name = some f)
    {Callee : String → Prop} (hbuiltin : ∀ g, Builtin.ofName? g ≠ none → Callee g)
    (hcallee : ∀ g, p.Calls name g → Callee g) : ∀ e ∈ f.body, e.Straight Callee := by
  intro e he
  refine ⟨fun x hx => ?_, fun x hx g hg => ?_⟩
  · exact h f (List.mem_of_find?_eq_some hf) x (Expr.mem_formsAll.2 ⟨e, he, hx⟩)
  · by_cases hname : Builtin.ofName? g = none
    · refine hcallee g ?_
      rw [Calls, callees, hf]
      exact List.mem_filter.2 ⟨List.mem_filterMap.2 ⟨x, Expr.mem_formsAll.2 ⟨e, he, hx⟩, hg⟩,
        by rw [hname]; rfl⟩
    · exact hbuiltin g hname

/-- If calls may be nested `n` deep, a call of the function completes, and neither a larger depth nor
another bound on rounds makes a difference. -/
structure EndsWithin (p : Program) (o : Settings) (n : Nat) (name : String) : Prop where
  completes : ∀ vs, Completes (p.dispatch (p.invoke o n) name vs)
  enough : ∀ o' : Settings, o'.forScope = o.forScope → ∀ d, n ≤ d →
    p.dispatch (p.invoke o' d) name = p.dispatch (p.invoke o n) name

section

variable {name : String} {user user' : Fun → List Value → Run Value}

theorem completes_dispatch
    (h : Builtin.ofName? name = none → ∀ f, p.find? name = some f → ∀ vs, Completes (user f vs))
    (vs : List Value) : Completes (p.dispatch user name vs) := by
  unfold dispatch
  cases hname : Builtin.ofName? name with
  | some b => exact completes_bind
  | none =>
    cases hfind : p.find? name with
    | none => exact completes_breach _
    | some f =>
      have huser := h hname f hfind vs
      exact completes_bind

theorem dispatch_congr
    (h : Builtin.ofName? name = none → ∀ f, p.find? name = some f → user' f = user f) :
    p.dispatch user' name = p.dispatch user name := by
  funext vs
  unfold dispatch
  cases hname : Builtin.ofName? name with
  | some b => rfl
  | none =>
    cases hfind : p.find? name with
    | none => rfl
    | some f => simp only [h hname f hfind]

end

/-- Built-in functions, and names that nothing is known about, need no nested calls. -/
theorem endsWithin_of_not_found {name : String}
    (h : Builtin.ofName? name = none → p.find? name = none) (n : Nat) : p.EndsWithin o n name where
  completes := completes_dispatch fun hname f hf => by simp [h hname] at hf
  enough _ _ _ _ := dispatch_congr fun hname f hf => by simp [h hname] at hf

/-- A function needs one nested call more than those that it calls. -/
theorem LoopFree.endsWithin_succ (h : p.LoopFree) {n : Nat} {name : String}
    (hcallees : ∀ g, p.Calls name g → p.EndsWithin o n g) : p.EndsWithin o (n + 1) name := by
  have hbody : ∀ f, p.find? name = some f → ∀ e ∈ f.body, e.Straight (p.EndsWithin o n) :=
    fun f hf => h.straight hf
      (fun g hg => endsWithin_of_not_found (fun hnone => absurd hnone hg) n) hcallees
  refine ⟨completes_dispatch fun _ f hf vs => ?_, fun o' ho' d hd => dispatch_congr fun _ f hf => ?_⟩
  · have hblock : Completes
        (Machine.block ⟨p.dispatch (p.invoke o n), o.rounds, o.forScope⟩ f.body) :=
      Machine.completes_block fun e he =>
        Machine.completes_step ((hbody f hf e he).imp fun g hg => hg.completes)
    exact completes_inCall (h := hblock.resultOf) (f.frame vs)
  · -- More depth and other rounds: the bodies run the same, for what they call does.
    obtain ⟨k, rfl⟩ : ∃ k, d = k + 1 := ⟨d - 1, by omega⟩
    have hblock : Machine.block ⟨p.dispatch (p.invoke o' k), o'.rounds, o'.forScope⟩ f.body =
        Machine.block ⟨p.dispatch (p.invoke o n), o.rounds, o.forScope⟩ f.body :=
      Machine.block_congr fun e he => Machine.step_congr ho'
        ((hbody f hf e he).imp fun g hg => hg.enough o' ho' k (Nat.le_of_succ_le_succ hd))
    funext vs
    rw [invoke, invoke, hblock]

/-- Calls are not nested deeper than there are functions. -/
theorem NoRecursion.endsWithin (hcalls : p.NoRecursion) (hloops : p.LoopFree) :
    p.EndsWithin o p.functions.length "main" := by
  -- From a name that no function has, no step leads on.
  rw [← List.length_map Fun.name]
  refine acyclic_induction hcalls (fun n name hname => ?_) fun n name => hloops.endsWithin_succ
  refine endsWithin_of_not_found (fun _ => List.find?_eq_none.2 fun f hf => ?_) n
  exact fun hfound => hname (List.mem_map.2 ⟨f, hf, of_decide_eq_true hfound⟩)

/-- No run stops with a `return`: it is caught by the call around it. -/
theorem not_stopsWith_returned (o : Settings) (s : State) (v : Value) :
    ¬ StopsWith (p.run o) s (.returned v) :=
  fun h => ((stopsWith_run_iff id).1 h).isStray

/-- A program without `while` loops and without recursion ends.  With calls nested as deep as there are
functions, or deeper, all bounds give the same run, and it ends with a value or an error that is no
bound, unless an array contains itself. -/
theorem run_ends_of_noRecursion (p : Program) (hloops : p.LoopFree) (hcalls : p.NoRecursion)
    (scope : ForScope) (s : State) :
    ∃ r : Except Stop Value × State,
      (∀ calls rounds, p.functions.length ≤ calls → (p.run ⟨calls, rounds, scope⟩).run s = r) ∧
      (r.2.heap.Acyclic →
        (∃ v, r.1 = .ok v) ∨
        ∃ stop, r.1 = .error stop ∧ stop ≠ .tooDeep ∧ stop ≠ .outOfRounds ∧
          ∀ v, stop ≠ .returned v) := by
  -- The smallest bounds that are enough: no round of a `while` loop is ever needed.
  let o : Settings := ⟨p.functions.length, 0, scope⟩
  have hmain : p.EndsWithin o p.functions.length "main" := hcalls.endsWithin hloops
  refine ⟨(p.run o).run s, fun calls rounds hbound => ?_, fun hacyclic => ?_⟩
  · have hcall : p.call ⟨calls, rounds, scope⟩ "main" = p.call o "main" :=
      hmain.enough ⟨calls, rounds, scope⟩ rfl calls hbound
    rw [run, run, hcall]
  · have hcompletes : Completes (p.run o) :=
      (completes_note _ _).bind fun _ => (hmain.completes []).bind fun v => completes_bind
    rcases hrun : ((p.run o).run s).1 with stop | v
    · have hgenuine := hcompletes.genuine s stop hrun
      refine .inr ⟨stop, rfl, ?_, ?_, ?_⟩
      · rintro rfl
        exact hgenuine hacyclic
      · rintro rfl
        exact hgenuine
      · rintro v rfl
        exact not_stopsWith_returned o s v hrun
    · exact .inl ⟨v, rfl⟩

/-- `var xs = arrayOf(1, 2)`, and for `x` in `xs` both `xs[1] = twice(x)` and
`xs = arrayOf(x, x, x)`: a loop that changes what it visits. -/
def changesVisited : Program where
  span := .zero
  functions := [
    { span := .zero
      name := "twice"
      params := [⟨.zero, "n", .simple .zero "Int"⟩]
      result := some (.simple .zero "Int")
      body := [.returnValue .zero (.binary .zero .add (.var .zero "n") (.var .zero "n"))] },
    { span := .zero
      name := "main"
      params := []
      result := none
      body := [
        .declare .zero true "xs" (.call .zero "arrayOf" [.int .zero 1, .int .zero 2]),
        .forIn .zero "x" (.var .zero "xs") [
          .store .zero .zero ⟨"xs", .zero⟩ (.int .zero 1) (.call .zero "twice" [.var .zero "x"]),
          .assign .zero "xs"
            (.call .zero "arrayOf" [.var .zero "x", .var .zero "x", .var .zero "x"])]] }]

theorem noRecursion_changesVisited : changesVisited.NoRecursion := by
  have hcalls : ∀ name g, changesVisited.Calls name g → name = "main" ∧ g = "twice" := by
    intro name g h
    by_cases htwice : name = "twice"
    · subst htwice
      cases h
    · by_cases hmain : name = "main"
      · subst hmain
        exact ⟨rfl, List.mem_singleton.1 h⟩
      · have hnone : changesVisited.find? name = none := by
          simp [find?, changesVisited, Ne.symm htwice, Ne.symm hmain]
        rw [Calls, callees, hnone] at h
        cases h
  -- A way back would start at `main` and end at `twice`.
  intro name _ hcycle
  obtain ⟨g, hfirst, -⟩ := Relation.TransGen.head'_iff.1 hcycle
  obtain ⟨f, -, hlast⟩ := Relation.TransGen.tail'_iff.1 hcycle
  exact absurd ((hcalls name g hfirst).1.symm.trans (hcalls f name hlast).2) (by decide)

theorem run_ends_of_noRecursion_changesVisited :
    changesVisited.LoopFree ∧ changesVisited.NoRecursion ∧
      ∀ calls rounds, 2 ≤ calls →
        ((changesVisited.run ⟨calls, rounds, .shared⟩).run { trace := ⟨0, #[]⟩ }).1 = .ok .unit := by
  have hloops : changesVisited.LoopFree := by
    unfold LoopFree
    decide
  refine ⟨hloops, noRecursion_changesVisited, fun calls rounds hbound => ?_⟩
  obtain ⟨r, hsame, -⟩ := run_ends_of_noRecursion changesVisited hloops noRecursion_changesVisited
    .shared { trace := ⟨0, #[]⟩ }
  rw [hsame calls rounds hbound, ← hsame 2 0 (Nat.le_refl 2)]
  decide +kernel

end Program

end Scriptlet
