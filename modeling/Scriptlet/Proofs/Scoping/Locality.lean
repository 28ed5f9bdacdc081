import Mathlib.Data.List.Forall2
import Scriptlet.Proofs.Scoping.Alike
import Scriptlet.Proofs.Syntax.Forms
import Scriptlet.Session

/-!
# Only the names that occur matter

What running a form does is a matter of the variables that occur in it.  From two scopes that agree
on these, frame by frame, it ends alike, and the scopes still agree; the other variables of each
scope are left as they were.  Functions that are called have variables of their own, so their names
do not count.  `Run.Local` says this of a run; it holds of every primitive that is given one of the
names, and passes from parts to wholes.
-/

namespace Scriptlet

open Run

/-! ## Scopes that agree on some names -/

/-- The scopes have as many frames, and names of which `P` holds stand for the same in frames of
one depth. -/
def Scope.Agree (P : String → Prop) (c c' : Scope Value) : Prop :=
  List.Forall₂ (fun f f' : Frame Value => ∀ x, P x → f.get? x = f'.get? x) c c'

namespace Scope

variable {P : String → Prop} {c c' c'' : Scope Value} {x : String} {v : Value}

theorem Agree.refl (P : String → Prop) (c : Scope Value) : Agree P c c :=
  List.forall₂_same.2 fun _ _ _ _ => rfl

theorem Agree.trans (h : Agree P c c') (h' : Agree P c' c'') : Agree P c c'' := by
  induction h generalizing c'' with
  | nil => exact h'
  | cons hframe _ ih =>
    cases h' with
    | cons hframe' hrest' =>
      exact .cons (fun x hx => (hframe x hx).trans (hframe' x hx)) (ih hrest')

theorem Agree.ne_nil (h : Agree P c c') (hc : c ≠ []) : c' ≠ [] := by
  cases h with
  | nil => exact hc
  | cons => exact List.cons_ne_nil _ _

theorem Agree.push (h : Agree P c c') : Agree P c.push c'.push := .cons (fun _ _ => rfl) h

/-- What a block was put on top of is there again when the block is left. -/
theorem Agree.pop (h : Agree P c.push c') (hc : c ≠ []) : Agree P c c'.pop := by
  cases h with
  | cons _ hrest =>
    cases hrest with
    | nil => exact absurd rfl hc
    | cons hframe hrest => exact .cons hframe hrest

/-- Both scopes are the insides of blocks; left, they still agree. -/
theorem Agree.pop_pop {d d' : Scope Value} (h : Agree P d d') (hc : c ≠ [])
    (hd : d.length = c.push.length) : Agree P d.pop d'.pop := by
  cases h with
  | nil => cases hd
  | cons _ hrest =>
    cases hrest with
    | nil =>
      have hlength : c.length = 0 := by simpa [Scope.push] using hd.symm
      exact absurd (List.length_eq_zero_iff.1 hlength) hc
    | cons hframe hrest => exact .cons hframe hrest

theorem Agree.get? (h : Agree P c c') (hx : P x) : c.get? x = c'.get? x := by
  induction h with
  | nil => rfl
  | @cons f f' fs fs' hframe _ ih =>
    simp only [Scope.get?, List.findSome?_cons, hframe x hx]
    cases f'.get? x with
    | none => exact ih
    | some w => rfl

theorem agree_declare_frame {f f' : Frame Value} (h : ∀ y, P y → f.get? y = f'.get? y) (x : String)
    (v : Value) : ∀ y, P y → (f.declare x v).get? y = (f'.declare x v).get? y := by
  intro y hy
  rw [Frame.get?_declare, Frame.get?_declare, h y hy]

theorem Agree.declare (h : Agree P c c') (x : String) (v : Value) :
    Agree P (c.declare x v) (c'.declare x v) := by
  cases h with
  | nil => exact Agree.refl P _
  | cons hframe hrest => exact .cons (agree_declare_frame hframe x v) hrest

theorem get?_declare_of_not {f : Frame Value} (hx : ¬ P x) {y : String} (hy : P y) :
    f.get? y = (f.declare x v).get? y := by
  have hne : x ≠ y := fun hxy => hx (hxy ▸ hy)
  rw [Frame.get?_declare, if_neg hne]

/-- A declaration keeps what other names stand for. -/
theorem agree_declare (hc : c ≠ []) (hx : ¬ P x) (v : Value) : Agree P c (c.declare x v) := by
  cases c with
  | nil => exact absurd rfl hc
  | cons f fs => exact .cons (fun _ hy => get?_declare_of_not hx hy) (Agree.refl P fs)

/-- An assignment keeps what other names stand for. -/
theorem agree_of_set? (hx : ¬ P x) (h : c.set? x v = some c') : Agree P c c' := by
  induction c generalizing c' with
  | nil => cases h
  | cons f fs ih =>
    rw [Scope.set?] at h
    split at h
    · cases h
      exact .cons (fun _ hy => get?_declare_of_not hx hy) (Agree.refl P fs)
    · obtain ⟨gs, hgs, rfl⟩ := Option.map_eq_some_iff.1 h
      exact .cons (fun _ _ => rfl) (ih hgs)

/-- A name on which the scopes agree is set in frames of one depth, or in none. -/
theorem Agree.set? (h : Agree P c c') (hx : P x) (v : Value) :
    Option.Rel (Agree P) (c.set? x v) (c'.set? x v) := by
  induction h with
  | nil => exact .none
  | @cons f f' fs fs' hframe hrest ih =>
    have hhas : f.has x = f'.has x := by rw [Frame.has, Frame.has, hframe x hx]
    rw [Scope.set?, Scope.set?, hhas]
    split
    · exact .some (.cons (agree_declare_frame hframe x v) hrest)
    · generalize Scope.set? fs x v = found at ih
      generalize Scope.set? fs' x v = found' at ih
      cases ih with
      | none => exact .none
      | some hset => exact .some (.cons hframe hset)

end Scope

/-! ## Local runs -/

namespace Run

variable {α β : Type} {names : List String}

/-- The ends of two runs, from states that are equal but for their scopes `c` and `c'`: the same
result or the same reason to stop, states that are equal but for their scopes, scopes that agree on
the names, and in each of them all other names as they were. -/
structure EndAlike (names : List String) (c c' : Scope Value) (r r' : Except Stop α × State) :
    Prop where
  result : r'.1 = r.1
  beside : r.2.Beside r'.2
  agree : Scope.Agree (· ∈ names) r.2.scope r'.2.scope
  kept : Scope.Agree (· ∉ names) c r.2.scope
  kept' : Scope.Agree (· ∉ names) c' r'.2.scope

/-- From scopes that agree on the names, the run ends alike. -/
def Local (names : List String) (act : Run α) : Prop :=
  ∀ ⦃s : State⦄ ⦃c c' : Scope Value⦄, c ≠ [] → Scope.Agree (· ∈ names) c c' →
    EndAlike names c c' (act.run { s with scope := c }) (act.run { s with scope := c' })

/-- Runs that leave variables alone. -/
theorem Blind.isLocal {E : Stop → Prop} {act : Run α} (h : Blind E act) : Local names act := by
  intro s c c' _ hagree
  rw [h.run_scope s c, h.run_scope s c']
  exact ⟨rfl, rfl, hagree, .refl _ c, .refl _ c'⟩

theorem local_pure (a : α) : Local names (pure a) :=
  (blind_pure (E := fun _ => True) a).isLocal

theorem local_throw (e : Stop) : Local names (throw e : Run α) :=
  (blind_throw (E := fun _ => True) trivial).isLocal

/-- One run after the other. -/
theorem Local.bind {act : Run α} {f : α → Run β} (h : Local names act)
    (hf : ∀ a, Local names (f a)) : Local names (act >>= f) := by
  intro s c c' hc hagree
  obtain ⟨hresult, hbeside, hagree', hkept, hkept'⟩ := h (s := s) hc hagree
  rcases hrun : act.run { s with scope := c } with ⟨e | a, t⟩ <;>
    rcases hrun' : act.run { s with scope := c' } with ⟨e' | a', t'⟩ <;>
    rw [hrun, hrun'] at hresult hbeside hagree' <;> rw [hrun] at hkept <;> rw [hrun'] at hkept'
  · obtain rfl := Except.error.inj hresult
    rw [run_bind_error hrun, run_bind_error hrun']
    exact ⟨rfl, hbeside, hagree', hkept, hkept'⟩
  · cases hresult
  · cases hresult
  · obtain rfl := Except.ok.inj hresult
    rw [run_bind_ok hrun, run_bind_ok hrun']
    -- The second run starts from the scopes that the first one left.
    obtain ⟨hend, hbeside', hagree'', hmore, hmore'⟩ :=
      hf a' (s := t) (hkept.ne_nil hc) hagree'
    rw [← show t' = { t with scope := t'.scope } from hbeside] at hend hbeside' hagree'' hmore'
    exact ⟨hend, hbeside', hagree'', hkept.trans hmore, hkept'.trans hmore'⟩

theorem Local.inBlock {act : Run α} (h : Local names act) : Local names (inBlock act) := by
  intro s c c' hc hagree
  -- The empty frame of the block agrees with itself, and is taken away again from both.
  obtain ⟨hresult, hbeside, hagree', hkept, hkept'⟩ :=
    h (s := s) (List.cons_ne_nil [] c) hagree.push
  exact ⟨hresult, hbeside.scope _ _, hagree'.pop_pop hc hkept.length_eq.symm, hkept.pop hc,
    hkept'.pop (hagree.ne_nil hc)⟩

/-! ## Variables -/

theorem local_lookup {x : String} (hx : x ∈ names) : Local names (lookup x) := by
  intro s c c' hc hagree
  rw [lookup, run_get_bind, run_get_bind]
  simp only [hagree.get? hx]
  cases c'.get? x with
  | none => exact local_throw _ hc hagree
  | some v => exact local_pure v hc hagree

theorem local_declare {x : String} (hx : x ∈ names) (v : Value) :
    Local names (Run.declare x v) := by
  intro s c c' hc hagree
  have hother : ¬ x ∉ names := fun hnot => hnot hx
  exact ⟨rfl, rfl, hagree.declare x v, Scope.agree_declare hc hother v,
    Scope.agree_declare (hagree.ne_nil hc) hother v⟩

theorem local_assign {x : String} (hx : x ∈ names) (v : Value) : Local names (assign x v) := by
  intro s c c' hc hagree
  have hother : ¬ x ∉ names := fun hnot => hnot hx
  -- The name is found in frames of one depth, so one assignment fails exactly if the other does.
  have hset := hagree.set? hx v
  rw [assign, run_get_bind, run_get_bind]
  cases hfound : c.set? x v with
  | none =>
    cases hfound' : c'.set? x v with
    | none => exact local_throw _ hc hagree
    | some d' =>
      rw [hfound, hfound'] at hset
      cases hset
  | some d =>
    cases hfound' : c'.set? x v with
    | none =>
      rw [hfound, hfound'] at hset
      cases hset
    | some d' =>
      rw [hfound, hfound'] at hset
      cases hset with
      | some hset =>
        exact ⟨rfl, rfl, hset, Scope.agree_of_set? hother hfound, Scope.agree_of_set? hother hfound'⟩

/-! ## Statements and loops -/

theorem Local.asValue {act : Run Effect} (h : Local names act) (e : Expr) :
    Local names (asValue e act) := by
  refine (blind_announceStatement (E := fun _ => True) e).isLocal.bind fun _ => ?_
  refine h.bind fun effect => ?_
  rcases effect with v | _ | v
  · exact local_pure v
  · exact local_pure _
  · exact local_throw _

theorem Local.asStatement {act : Run Effect} (h : Local names act) (e : Expr) :
    Local names (asStatement e act) := by
  refine (blind_note (E := fun _ => True) _ _).isLocal.bind fun _ => h.bind fun effect => ?_
  rcases effect with v | c
  · exact local_pure _
  · exact local_pure c

theorem Local.andThen {first second : Run Completion} (h : Local names first)
    (h' : Local names second) : Local names (andThen first second) := by
  refine h.bind fun c => ?_
  cases c with
  | normal => exact h'
  | returned v => exact local_pure _

theorem local_note (level : Nat) (text : String) : Local names (note level text) :=
  (blind_note (E := fun _ => True) level text).isLocal

theorem local_noteValue (level : Nat) (label : String) (v : Value) :
    Local names (noteValue level label v) := (blind_noteValue level label v).isLocal

theorem local_whileTrue {cond : Run Value} {body : Run Completion} (hcond : Local names cond)
    (hbody : Local names body) (rounds : Nat) : Local names (whileTrue cond body rounds) := by
  induction rounds with
  | zero => exact local_throw _
  | succ rounds ih =>
    refine hcond.bind fun v => ?_
    split
    · exact (local_note _ _).bind fun _ => hbody.inBlock.andThen ih
    · exact local_pure _

theorem local_eachValue {body : Value → Run Completion} (h : ∀ v, Local names (body v))
    (vs : List Value) : Local names (eachValue body vs) := by
  induction vs with
  | nil => exact local_pure _
  | cons v vs ih => exact (h v).andThen ih

theorem local_forLoop {body : Run Completion} {x : String} (hx : x ∈ names)
    (hbody : Local names body) (scope : ForScope) (items : Items) :
    Local names (forLoop scope x body items) := by
  have hround : ∀ v, Local names (roundFor x body v) := fun v =>
    (local_noteValue _ _ v).bind fun _ => (local_declare hx v).bind fun _ => hbody
  cases scope with
  | shared =>
    rw [forLoop, each_eq]
    exact (local_eachValue hround items.toList).inBlock
  | fresh =>
    rw [forLoop, each_eq]
    exact local_eachValue (fun v => (hround v).inBlock) items.toList

end Run

/-! ## Forms -/

theorem Value.local_storeAt {names : List String} {x : String} (hx : x ∈ names)
    (container i v : Value) : Local names (container.storeAt x i v) := by
  unfold Value.storeAt
  split
  · exact (blind_itemsOf (E := fun _ => True) _).isLocal.bind fun _ =>
      (blind_position _ _).isLocal.bind fun _ => (blind_store (E := fun _ => True) _ _ _).isLocal
  · exact (blind_position _ _).isLocal.bind fun _ => local_assign hx _
  · exact local_throw _

namespace Machine

variable {m : Machine} {names : List String}

theorem local_values {es : List Expr} (h : ∀ e ∈ es, Local names (m.step e)) :
    Local names (m.values es) := by
  induction es with
  | nil => exact local_pure _
  | cons e es ih =>
    obtain ⟨he, hes⟩ := List.forall_mem_cons.1 h
    exact (he.asValue e).bind fun _ => (ih hes).bind fun _ => local_pure _

theorem local_block {es : List Expr} (h : ∀ e ∈ es, Local names (m.step e)) :
    Local names (m.block es) := by
  induction es with
  | nil => exact local_pure _
  | cons e es ih =>
    obtain ⟨he, hes⟩ := List.forall_mem_cons.1 h
    exact (he.asStatement e).andThen (ih hes)

/-- A form is local to any names among which those are that occur in it, where calls leave variables
alone. -/
theorem local_step (hcall : ∀ name vs, Local names (m.call name vs)) (e : Expr)
    (hnames : e.names ⊆ names) : Local names (m.step e) := by
  -- the names of a form are those that it uses itself and those of its parts
  have own : ∀ {e : Expr} {x : String}, e.names ⊆ names → x ∈ e.ownNames → x ∈ names :=
    fun hnames hx => hnames (Expr.mem_names_of_own hx)
  have part : ∀ {e e' : Expr}, e.names ⊆ names → e' ∈ e.parts → e'.names ⊆ names :=
    fun hnames he' => List.Subset.trans (Expr.names_part_subset he') hnames
  induction e using Expr.induction with
  | int | bool | char | str | returnUnit => exact local_pure _
  | var span name =>
    have hname : name ∈ names := own hnames (List.mem_singleton_self _)
    exact (local_lookup hname).bind fun _ => local_pure _
  | index span base position ih =>
    have hbase : base.text ∈ names := own hnames (List.mem_singleton_self _)
    have hposition := (ih (part hnames List.mem_cons_self)).asValue position
    exact (local_lookup hbase).bind fun container => hposition.bind fun i =>
      (container.blind_elementAt i).isLocal.bind fun _ => local_pure _
  | neg span e ih =>
    have he := (ih (part hnames List.mem_cons_self)).asValue e
    exact he.bind fun v => (blind_expectInt v).isLocal.bind fun _ => local_pure _
  | not span e ih | parens span e ih | returnValue span e ih =>
    have he := (ih (part hnames List.mem_cons_self)).asValue e
    exact he.bind fun _ => local_pure _
  | binary span op l r ihl ihr =>
    have hl := (ihl (part hnames List.mem_cons_self)).asValue l
    have hr := (ihr (part hnames (List.mem_cons_of_mem _ List.mem_cons_self))).asValue r
    refine hl.bind fun a => ?_
    cases op.shortcut? a with
    | some v => exact local_pure _
    | none =>
      exact hr.bind fun b => (op.blind_combine a b).isLocal.bind fun _ => local_pure _
  | declare span mutable name value ih =>
    have hname : name ∈ names := own hnames (List.mem_singleton_self _)
    have hvalue := (ih (part hnames List.mem_cons_self)).asValue value
    exact hvalue.bind fun v => (local_declare hname v).bind fun _ =>
      (local_noteValue _ _ v).bind fun _ => local_pure _
  | assign span name value ih =>
    have hname : name ∈ names := own hnames (List.mem_singleton_self _)
    have hvalue := (ih (part hnames List.mem_cons_self)).asValue value
    exact hvalue.bind fun v => (local_assign hname v).bind fun _ => local_pure _
  | call span name args ih =>
    have hargs := local_values fun e he => ih e he (part hnames he)
    exact hargs.bind fun vs => (hcall name vs).bind fun _ => local_pure _
  | store span target base position value ihp ihv =>
    have hbase : base.text ∈ names := own hnames (List.mem_singleton_self _)
    have hposition := (ihp (part hnames List.mem_cons_self)).asValue position
    have hvalue := (ihv (part hnames (List.mem_cons_of_mem _ List.mem_cons_self))).asValue value
    exact (local_lookup hbase).bind fun container => hposition.bind fun i => hvalue.bind fun v =>
      (container.local_storeAt hbase i v).bind fun _ => local_pure _
  | branch span cond body otherwise ihc ihb iho =>
    have hcond := (ihc (part hnames List.mem_cons_self)).asValue cond
    have hbody := local_block fun e he => ihb e he
      (part hnames (List.mem_append_left _ (List.mem_cons_of_mem _ he)))
    have hother := local_block fun e he => iho e he (part hnames (List.mem_append_right _ he))
    refine hcond.bind fun c => (local_noteValue _ _ c).bind fun _ => ?_
    split
    · exact hbody.inBlock.bind fun _ => local_pure _
    · exact hother.inBlock.bind fun _ => local_pure _
  | forIn span name iterable body ihi ihb =>
    have hname : name ∈ names := own hnames (List.mem_singleton_self _)
    have hiterable := (ihi (part hnames List.mem_cons_self)).asValue iterable
    have hbody := local_block fun e he => ihb e he (part hnames (List.mem_cons_of_mem _ he))
    exact hiterable.bind fun v => v.blind_elements.isLocal.bind fun items =>
      (local_forLoop hname hbody m.forScope items).bind fun _ => local_pure _
  | loop span cond body ihc ihb =>
    have hcond := (ihc (part hnames List.mem_cons_self)).asValue cond
    have hbody := local_block fun e he => ihb e he (part hnames (List.mem_cons_of_mem _ he))
    exact (local_whileTrue hcond hbody m.rounds).bind fun _ => local_pure _

end Machine

/-! ## Programs -/

/-- A call leaves the variables of the caller alone, whatever the function does to its own. -/
theorem Program.blind_dispatch (p : Program) (o : Settings) (depth : Nat) (name : String)
    (vs : List Value) : Blind (fun _ => True) (p.dispatch (p.invoke o depth) name vs) := by
  have hinvoke : ∀ f, Blind (fun _ => True) (p.invoke o depth f vs) := by
    intro f
    cases depth with
    | zero => exact blind_throw trivial
    -- The body runs in a scope of its own, and the old one is put back.
    | succ depth => exact ⟨fun _ _ => rfl, fun _ _ _ _ => trivial⟩
  have hnote : ∀ what, Blind (fun _ => True) (noteCall what vs) := fun what =>
    (blind_noteCall what vs).imp fun _ _ => trivial
  unfold Program.dispatch
  cases Builtin.ofName? name with
  | some b => exact (hnote _).bind fun _ => (b.blind_apply vs).imp fun _ _ => trivial
  | none =>
    cases p.find? name with
    | none => exact blind_throw trivial
    | some f =>
      refine (hnote _).bind fun _ => (hinvoke f).bind fun v => ?_
      exact ((blind_noteValue _ _ v).imp fun _ _ => trivial).bind fun _ => blind_pure _

theorem Program.blind_call (p : Program) (o : Settings) (name : String) (vs : List Value) :
    Blind (fun _ => True) (p.call o name vs) := p.blind_dispatch o o.calls name vs

/-- The variables that occur in a fragment. -/
def Fragment.names : Fragment → List String
  | .program p => p.functions.flatMap fun f => f.params.map Param.name ++ f.body.flatMap Expr.names
  | .function f => f.params.map Param.name ++ f.body.flatMap Expr.names
  | .param p => [p.name]
  | .type _ => []
  | .expr e => e.names
  | .body es => es.flatMap Expr.names

namespace Session

variable (σ : Session)

theorem local_step (e : Expr) : Local e.names (σ.machine.step e) :=
  Machine.local_step (fun name vs => (σ.program.blind_call σ.settings name vs).isLocal) e
    (List.Subset.refl _)

theorem local_exec (n : Fragment) : Local n.names (σ.exec n) := by
  cases n with
  | expr e => exact (σ.local_step e).asStatement e
  | body => exact local_throw _
  | program | function | param | type => exact (local_note _ _).bind fun _ => local_throw _

theorem local_eval (n : Fragment) : Local n.names (σ.eval n) := by
  cases n with
  | expr e => exact (σ.local_step e).asValue e
  | program | function | param | type | body => exact local_throw _

/-- Running a fragment is a matter of the variables that occur in it.  From states that are equal
but for their variables, in scopes that agree on the names of the fragment frame by frame, it gives
the same value, the same `return` or the same reason to stop, whether it is run as a statement or
for its value; arrays, console and trace are the same at the end.  Afterwards the scopes still agree
on the names of the fragment, and each frame of each scope has all other names as they were. -/
theorem endAlike_of_agree (n : Fragment) (s : State) (c c' : Scope Value) (hc : c ≠ [])
    (hagree : Scope.Agree (· ∈ n.names) c c') :
    EndAlike n.names c c' ((σ.exec n).run { s with scope := c })
        ((σ.exec n).run { s with scope := c' }) ∧
      EndAlike n.names c c' ((σ.eval n).run { s with scope := c })
        ((σ.eval n).run { s with scope := c' }) :=
  ⟨σ.local_exec n hc hagree, σ.local_eval n hc hagree⟩

/-- A session with `fun next(i: Int): Int { val y = i + 1; return y }`. -/
def withNext : Session where
  program := ⟨.zero, [{
    span := .zero
    name := "next"
    params := [⟨.zero, "i", .simple .zero "Int"⟩]
    result := some (.simple .zero "Int")
    body := [
      .declare .zero false "y" (.binary .zero .add (.var .zero "i") (.int .zero 1)),
      .returnValue .zero (.var .zero "y")] }]⟩
  settings := .standard
  context := {}
  state := { trace := ⟨0, #[]⟩ }

/-- The loop `for (i in 0..x) { val z = next(x); x = z }`. -/
def raising : Fragment :=
  .expr (.forIn .zero "i" (.binary .zero .range (.int .zero 0) (.var .zero "x")) [
    .declare .zero false "z" (.call .zero "next" [.var .zero "x"]),
    .assign .zero "x" (.var .zero "z")])

/-- A state with these variables and nothing else. -/
def stateWith (c : Scope Value) : State := { scope := c, trace := ⟨0, #[]⟩ }

/-- The scopes differ in `y`, which the function that is called uses and the loop does not. -/
theorem endAlike_of_agree_raising :
    Scope.Agree (· ∈ raising.names) [[("y", .int 1)], [("x", .int 2)]]
        [[], [("y", .unit), ("x", .int 2)]] ∧
      EndAlike raising.names [[("y", .int 1)], [("x", .int 2)]] [[], [("y", .unit), ("x", .int 2)]]
        ((withNext.exec raising).run (stateWith [[("y", .int 1)], [("x", .int 2)]]))
        ((withNext.exec raising).run (stateWith [[], [("y", .unit), ("x", .int 2)]])) ∧
      EndAlike raising.names [[("y", .int 1)], [("x", .int 2)]] [[], [("y", .unit), ("x", .int 2)]]
        ((withNext.eval raising).run (stateWith [[("y", .int 1)], [("x", .int 2)]]))
        ((withNext.eval raising).run (stateWith [[], [("y", .unit), ("x", .int 2)]])) := by
  have hagree : Scope.Agree (· ∈ raising.names) [[("y", .int 1)], [("x", .int 2)]]
      [[], [("y", .unit), ("x", .int 2)]] := by
    have hinner : ∀ x ∈ raising.names,
        Frame.get? x [("y", Value.int 1)] = Frame.get? x [] := by decide
    have houter : ∀ x ∈ raising.names,
        Frame.get? x [("x", Value.int 2)] = Frame.get? x [("y", .unit), ("x", .int 2)] := by decide
    exact .cons hinner (.cons houter .nil)
  exact ⟨hagree, withNext.endAlike_of_agree raising (stateWith []) _ _ (List.cons_ne_nil _ _) hagree⟩

end Session

end Scriptlet
