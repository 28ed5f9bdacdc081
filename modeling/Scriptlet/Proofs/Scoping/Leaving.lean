import Scriptlet.Proofs.Eval.Reach
import Scriptlet.Proofs.Scoping.Locality

/-!
# Scopes are left as they were entered

Running a form declares names in the innermost frame only, and takes none away: blocks are left on
every way out, and an assignment changes a value where the name is declared.  `Run.Leaves` says so
of a run, together with the names that may be new; it holds of every primitive and passes from parts
to wholes.  A call runs in a scope of its own, so the frames of the caller stay as they are until it
is over: `Program.scopes_left`.
-/

namespace Scriptlet

open Run

/-! ## Frames and their names -/

/-- The frames declare the same names. -/
def Frame.SameNames (F F' : Frame Value) : Prop := ∀ x, F'.has x = F.has x

namespace Scope

/-- The scopes have as many frames, and frames of one depth declare the same names. -/
def SameNames (c c' : Scope Value) : Prop := List.Forall₂ Frame.SameNames c c'

/-- The innermost frame has lost no name and gained at most these, and the others declare the same
names as before. -/
inductive Kept (gains : List String) : Scope Value → Scope Value → Prop
  | intro {F F' : Frame Value} {c c' : Scope Value} :
      (∀ x, F.has x = true → F'.has x = true) →
      (∀ x, F'.has x = true → F.has x = true ∨ x ∈ gains) → SameNames c c' →
      Kept gains (F :: c) (F' :: c')

variable {gains : List String} {c c' c'' : Scope Value} {x : String} {v : Value}

theorem SameNames.refl (c : Scope Value) : SameNames c c := List.forall₂_same.2 fun _ _ _ => rfl

theorem SameNames.trans (h : SameNames c c') (h' : SameNames c' c'') : SameNames c c'' := by
  induction h generalizing c'' with
  | nil => exact h'
  | cons hframe _ ih =>
    cases h' with
    | cons hframe' hrest' => exact .cons (fun x => (hframe' x).trans (hframe x)) (ih hrest')

theorem SameNames.kept (h : SameNames c c') (hc : c ≠ []) : Kept gains c c' := by
  cases h with
  | nil => exact absurd rfl hc
  | cons hframe hrest =>
    refine .intro (fun x hx => ?_) (fun x hx => .inl ?_) hrest
    · rw [hframe x, hx]
    · rw [← hframe x, hx]

theorem Kept.trans (h : Kept gains c c') (h' : Kept gains c' c'') : Kept gains c c'' := by
  cases h with
  | intro hlost hgained hrest =>
    cases h' with
    | intro hlost' hgained' hrest' =>
      refine .intro (fun x hx => hlost' x (hlost x hx)) (fun x hx => ?_) (hrest.trans hrest')
      rcases hgained' x hx with hx | hx
      · exact hgained x hx
      · exact .inr hx

theorem Kept.ne_nil (h : Kept gains c c') : c' ≠ [] := by
  cases h with
  | intro => exact List.cons_ne_nil _ _

/-- Where nothing is gained, the names are the same. -/
theorem Kept.sameNames (h : Kept [] c c') : SameNames c c' := by
  cases h with
  | intro hlost hgained hrest =>
    refine .cons (fun x => ?_) hrest
    rw [Bool.eq_iff_iff]
    exact ⟨fun hx => (hgained x hx).resolve_right List.not_mem_nil, hlost x⟩

/-- A block is left with the names that were there before. -/
theorem Kept.pop (h : Kept gains c.push c') (hc : c ≠ []) : SameNames c c'.pop := by
  cases h with
  | intro _ _ hrest =>
    cases hrest with
    | nil => exact absurd rfl hc
    | cons hframe hrest => exact .cons hframe hrest

theorem kept_declare (hx : x ∈ gains) (hc : c ≠ []) (v : Value) : Kept gains c (c.declare x v) := by
  cases c with
  | nil => exact absurd rfl hc
  | cons F c =>
    refine .intro (fun y hy => ?_) (fun y hy => ?_) (.refl c)
    · rw [Frame.has_declare, hy, Bool.or_true]
    · rw [Frame.has_declare, Bool.or_eq_true, decide_eq_true_eq] at hy
      rcases hy with rfl | hy
      · exact .inr hx
      · exact .inl hy

/-- An assignment adds no name: it finds the one that it changes. -/
theorem sameNames_of_set? (h : c.set? x v = some c') : SameNames c c' := by
  induction c generalizing c' with
  | nil => cases h
  | cons F c ih =>
    rw [Scope.set?] at h
    split at h
    · rename_i hhas
      cases h
      -- The name is set in the frame that declares it already.
      refine .cons (fun y => ?_) (SameNames.refl c)
      rw [Frame.has_declare]
      by_cases hy : x = y
      · rw [← hy, hhas, Bool.or_true]
      · rw [decide_eq_false hy, Bool.false_or]
    · obtain ⟨c', hc', rfl⟩ := Option.map_eq_some_iff.1 h
      exact .cons (fun _ => rfl) (ih hc')

end Scope

/-! ## Runs -/

namespace Run

variable {α β : Type} {gains gains' : List String}

/-- However the run ends, the innermost frame has lost no name and gained at most these, and the
others declare the same names as before. -/
def Leaves (gains : List String) (act : Run α) : Prop :=
  ∀ s : State, s.scope ≠ [] → Scope.Kept gains s.scope (act.run s).2.scope

theorem Blind.scope_eq {E : Stop → Prop} {act : Run α} (h : Blind E act) (s : State) :
    (act.run s).2.scope = s.scope := by
  have hrun : act.run s = ((act.run s).1, { (act.run s).2 with scope := s.scope }) :=
    h.run_scope s s.scope
  rw [hrun]

theorem Blind.leaves {E : Stop → Prop} {act : Run α} (h : Blind E act) : Leaves gains act := by
  intro s hs
  rw [h.scope_eq s]
  exact (Scope.SameNames.refl _).kept hs

theorem leaves_pure (a : α) : Leaves gains (pure a) := (blind_pure (E := fun _ => True) a).leaves

theorem leaves_throw (e : Stop) : Leaves gains (throw e : Run α) :=
  (blind_throw (E := fun _ => True) trivial).leaves

theorem Leaves.bind {act : Run α} {f : α → Run β} (h : Leaves gains act)
    (hf : ∀ a, Leaves gains (f a)) : Leaves gains (act >>= f) := by
  intro s hs
  have hact := h s hs
  rcases hrun : act.run s with ⟨e | a, t⟩ <;> rw [hrun] at hact
  · rw [run_bind_error hrun]
    exact hact
  · rw [run_bind_ok hrun]
    exact hact.trans (hf a t hact.ne_nil)

/-- Whatever a block declares, it is gone behind the block. -/
theorem Leaves.inBlock {act : Run α} (h : Leaves gains' act) : Leaves gains (inBlock act) := by
  intro s hs
  -- The block starts with a frame of its own, which goes with all that was declared in it.
  have hact := h { s with scope := s.scope.push } (List.cons_ne_nil _ _)
  exact (hact.pop hs).kept hs

theorem leaves_lookup (x : String) : Leaves gains (lookup x) := by
  intro s hs
  rw [lookup, run_get_bind]
  cases s.scope.get? x with
  | none => exact leaves_throw _ s hs
  | some v => exact leaves_pure v s hs

theorem leaves_declare {x : String} (hx : x ∈ gains) (v : Value) :
    Leaves gains (Run.declare x v) := fun _ hs => Scope.kept_declare hx hs v

theorem leaves_assign (x : String) (v : Value) : Leaves gains (assign x v) := by
  intro s hs
  rw [assign, run_get_bind]
  cases hset : s.scope.set? x v with
  | none => exact leaves_throw _ s hs
  | some c => exact (Scope.sameNames_of_set? hset).kept hs

/-! ## Statements and loops -/

theorem leaves_note (level : Nat) (text : String) : Leaves gains (note level text) :=
  (blind_note (E := fun _ => True) level text).leaves

theorem leaves_noteValue (level : Nat) (label : String) (v : Value) :
    Leaves gains (noteValue level label v) := (blind_noteValue level label v).leaves

theorem Leaves.asValue {act : Run Effect} (h : Leaves gains act) (e : Expr) :
    Leaves gains (asValue e act) := by
  refine (blind_announceStatement (E := fun _ => True) e).leaves.bind fun _ => ?_
  refine h.bind fun effect => ?_
  rcases effect with v | _ | v
  · exact leaves_pure v
  · exact leaves_pure _
  · exact leaves_throw _

theorem Leaves.asStatement {act : Run Effect} (h : Leaves gains act) (e : Expr) :
    Leaves gains (asStatement e act) := by
  refine (leaves_note _ _).bind fun _ => h.bind fun effect => ?_
  rcases effect with v | c
  · exact leaves_pure _
  · exact leaves_pure c

theorem Leaves.andThen {first second : Run Completion} (h : Leaves gains first)
    (h' : Leaves gains second) : Leaves gains (andThen first second) := by
  refine h.bind fun c => ?_
  cases c with
  | normal => exact h'
  | returned v => exact leaves_pure _

/-- The condition runs in the frame around the loop, each round of the body in a frame of its own. -/
theorem leaves_whileTrue {cond : Run Value} {body : Run Completion} (hcond : Leaves gains cond)
    (hbody : Leaves gains' body) (rounds : Nat) : Leaves gains (whileTrue cond body rounds) := by
  induction rounds with
  | zero => exact leaves_throw _
  | succ rounds ih =>
    refine hcond.bind fun v => ?_
    split
    · exact (leaves_note _ _).bind fun _ => hbody.inBlock.andThen ih
    · exact leaves_pure _

theorem leaves_eachValue {body : Value → Run Completion} (h : ∀ v, Leaves gains (body v))
    (vs : List Value) : Leaves gains (eachValue body vs) := by
  induction vs with
  | nil => exact leaves_pure _
  | cons v vs ih => exact (h v).andThen ih

/-- The loop variable belongs to the frame of the loop, or of its round. -/
theorem leaves_forLoop {body : Run Completion} (hbody : Leaves gains' body) (scope : ForScope)
    (x : String) (items : Items) (hx : x ∈ gains') : Leaves gains (forLoop scope x body items) := by
  have hround : ∀ v, Leaves gains' (roundFor x body v) := fun v =>
    (leaves_noteValue _ _ v).bind fun _ => (leaves_declare hx v).bind fun _ => hbody
  cases scope with
  | shared =>
    rw [forLoop, each_eq]
    exact (leaves_eachValue hround items.toList).inBlock
  | fresh =>
    rw [forLoop, each_eq]
    exact leaves_eachValue (fun v => (hround v).inBlock) items.toList

end Run

/-! ## Forms -/

theorem Value.leaves_storeAt {gains : List String} (x : String) (container i v : Value) :
    Leaves gains (container.storeAt x i v) := by
  unfold Value.storeAt
  split
  · exact (blind_itemsOf (E := fun _ => True) _).leaves.bind fun _ =>
      (blind_position _ _).leaves.bind fun _ => (blind_store (E := fun _ => True) _ _ _).leaves
  · exact (blind_position _ _).leaves.bind fun _ => leaves_assign x _
  · exact leaves_throw _

namespace Machine

variable {m : Machine} {gains : List String}

theorem leaves_values {es : List Expr} (h : ∀ e ∈ es, Leaves gains (m.step e)) :
    Leaves gains (m.values es) := by
  induction es with
  | nil => exact leaves_pure _
  | cons e es ih =>
    obtain ⟨he, hes⟩ := List.forall_mem_cons.1 h
    exact (he.asValue e).bind fun _ => (ih hes).bind fun _ => leaves_pure _

theorem leaves_block {es : List Expr} (h : ∀ e ∈ es, Leaves gains (m.step e)) :
    Leaves gains (m.block es) := by
  induction es with
  | nil => exact leaves_pure _
  | cons e es ih =>
    obtain ⟨he, hes⟩ := List.forall_mem_cons.1 h
    exact (he.asStatement e).andThen (ih hes)

end Machine

theorem Expr.mem_declaredAll {es : List Expr} {x : String} :
    x ∈ declaredAll es ↔ ∃ e ∈ es, x ∈ e.declared := by
  induction es with
  | nil => simp [declaredAll]
  | cons e es ih => simp [declaredAll, ih]

theorem Expr.declared_subset_declaredAll {es : List Expr} {e : Expr} (he : e ∈ es) :
    e.declared ⊆ declaredAll es := fun _ hx => mem_declaredAll.2 ⟨e, he, hx⟩

namespace Machine

variable {m : Machine} {gains : List String}

/-- The innermost frame gains at most the names that the form declares outside of blocks, where calls
leave variables alone. -/
theorem leaves_step (hcall : ∀ gains name vs, Leaves gains (m.call name vs)) (e : Expr)
    (hgains : e.declared ⊆ gains) : Leaves gains (m.step e) := by
  induction e using Expr.induction generalizing gains with
  | int | bool | char | str | returnUnit => exact leaves_pure _
  | var span name => exact (leaves_lookup name).bind fun _ => leaves_pure _
  | index span base position ih =>
    have hposition := (ih hgains).asValue position
    exact (leaves_lookup _).bind fun container => hposition.bind fun i =>
      (container.blind_elementAt i).leaves.bind fun _ => leaves_pure _
  | neg span e ih =>
    exact ((ih hgains).asValue e).bind fun v => (blind_expectInt v).leaves.bind fun _ =>
      leaves_pure _
  | not span e ih | parens span e ih | returnValue span e ih =>
    exact ((ih hgains).asValue e).bind fun _ => leaves_pure _
  | binary span op l r ihl ihr =>
    obtain ⟨hleft, hright⟩ := List.append_subset.1 hgains
    have hl := (ihl hleft).asValue l
    have hr := (ihr hright).asValue r
    refine hl.bind fun a => ?_
    -- A right operand that is skipped declares nothing, which is less than it may.
    cases op.shortcut? a with
    | some v => exact leaves_pure _
    | none => exact hr.bind fun b => (op.blind_combine a b).leaves.bind fun _ => leaves_pure _
  | declare span mutable name value ih =>
    obtain ⟨hinner, hname⟩ := List.append_subset.1 hgains
    have hvalue := (ih hinner).asValue value
    exact hvalue.bind fun v => (leaves_declare (hname List.mem_cons_self) v).bind fun _ =>
      (leaves_noteValue _ _ v).bind fun _ => leaves_pure _
  | assign span name value ih =>
    exact ((ih hgains).asValue value).bind fun v => (leaves_assign name v).bind fun _ =>
      leaves_pure _
  | call span name args ih =>
    have hargs := leaves_values fun e he =>
      ih e he (List.Subset.trans (Expr.declared_subset_declaredAll he) hgains)
    exact hargs.bind fun vs => (hcall _ name vs).bind fun _ => leaves_pure _
  | store span target base position value ihp ihv =>
    obtain ⟨hleft, hright⟩ := List.append_subset.1 hgains
    have hposition := (ihp hleft).asValue position
    have hvalue := (ihv hright).asValue value
    exact (leaves_lookup _).bind fun container => hposition.bind fun i => hvalue.bind fun v =>
      (container.leaves_storeAt base.text i v).bind fun _ => leaves_pure _
  | branch span cond body otherwise ihc ihb iho =>
    have hcond := (ihc hgains).asValue cond
    have hbody := leaves_block fun e he => ihb e he (Expr.declared_subset_declaredAll he)
    have hother := leaves_block fun e he => iho e he (Expr.declared_subset_declaredAll he)
    refine hcond.bind fun c => (leaves_noteValue _ _ c).bind fun _ => ?_
    split
    · exact hbody.inBlock.bind fun _ => leaves_pure _
    · exact hother.inBlock.bind fun _ => leaves_pure _
  | forIn span name iterable body ihi ihb =>
    have hiterable := (ihi hgains).asValue iterable
    -- The loop variable is one of the names of the block, whatever the body declares there.
    have hbody : Leaves (name :: Expr.declaredAll body) (m.block body) := leaves_block fun e he =>
      ihb e he fun x hx => List.mem_cons_of_mem _ (Expr.declared_subset_declaredAll he hx)
    exact hiterable.bind fun v => v.blind_elements.leaves.bind fun items =>
      (leaves_forLoop hbody m.forScope name items List.mem_cons_self).bind fun _ => leaves_pure _
  | loop span cond body ihc ihb =>
    have hcond := (ihc hgains).asValue cond
    have hbody := leaves_block fun e he => ihb e he (Expr.declared_subset_declaredAll he)
    exact (leaves_whileTrue hcond hbody m.rounds).bind fun _ => leaves_pure _

end Machine

namespace Expr

/-- What decides about the blocks of a form before they run: the condition of an `if` or a `while`,
the range of a `for`. -/
def header? : Expr → Option Expr
  | .branch _ header _ _ | .forIn _ _ header _ | .loop _ header _ => some header
  | _ => none

/-- A form in which there is no declaration declares nothing. -/
theorem declared_eq_nil {e : Expr} (h : ∀ e' ∈ e.forms, e'.declares? = none) : e.declared = [] := by
  induction e using Expr.induction_parts with
  | h e ih =>
    have hparts : ∀ e' ∈ e.parts, e'.declared = [] := fun e' he' =>
      ih e' he' fun x hx => h x (mem_forms_of_part he' hx)
    cases e with
    | int | bool | char | str | var | returnUnit => rfl
    | index _ _ e | neg _ e | not _ e | parens _ e | assign _ _ e | returnValue _ e | branch _ e
    | forIn _ _ e | loop _ e => exact hparts e List.mem_cons_self
    | binary s op l r =>
      rw [declared, hparts l List.mem_cons_self,
        hparts r (List.mem_cons_of_mem _ List.mem_cons_self), List.append_nil]
    | store s target base position value =>
      rw [declared, hparts position List.mem_cons_self,
        hparts value (List.mem_cons_of_mem _ List.mem_cons_self), List.append_nil]
    | call s name args =>
      rw [declared, List.eq_nil_iff_forall_not_mem]
      intro x hx
      obtain ⟨e', he', hx⟩ := mem_declaredAll.1 hx
      rw [hparts e' he'] at hx
      cases hx
    | declare s mutable name value => cases h _ (self_mem_forms _)

theorem declared_of_header {e header : Expr} (h : e.header? = some header) :
    e.declared = header.declared := by
  cases e <;> cases h <;> rfl

end Expr

/-! ## Programs -/

namespace Program

variable (p : Program) (o : Settings)

theorem leaves_step (depth : Nat) (e : Expr) :
    Leaves e.declared ((p.machineAt o depth).step e) :=
  Machine.leaves_step (fun _ name vs => (p.blind_dispatch o depth name vs).leaves) e
    (List.Subset.refl _)

theorem kept_exec (depth : Nat) (e : Expr) {s : State} (hs : s.scope ≠ []) :
    Scope.Kept e.declared s.scope (((p.machineAt o depth).exec e).run s).2.scope :=
  (p.leaves_step o depth e).asStatement e s hs

theorem kept_eval (depth : Nat) (e : Expr) {s : State} (hs : s.scope ≠ []) :
    Scope.Kept e.declared s.scope (((p.machineAt o depth).eval e).run s).2.scope :=
  (p.leaves_step o depth e).asValue e s hs

/-- The call `w` waits, and the calls `outer` for it: its frames are those that were there when its
arguments had been evaluated, and those that are there when it is over. -/
def Waits (s₀ : State) (w : Waiting) (outer : List Waiting) : Prop :=
  ∃ depth s s₁ span name args vs, w.call = .call span name args ∧
    p.Reaches o s₀ (depth + 1) outer w.caller s w.call ∧
    ((p.machineAt o (depth + 1)).values args).run s = (.ok vs, s₁) ∧ w.scope = s₁.scope ∧
    (((p.machineAt o (depth + 1)).call name vs).run s₁).2.scope = w.scope

variable {p o}

/-- At every point of a run, each call that waits has its frames as they were. -/
theorem Reaches.waits {s₀ s : State} {depth : Nat} {waiting inner outer : List Waiting} {f : Fun}
    {e : Expr} {w : Waiting} (h : p.Reaches o s₀ depth waiting f s e)
    (hw : waiting = inner ++ w :: outer) : p.Waits o s₀ w outer := by
  induction h generalizing inner with
  | start => cases inner <;> cases hw
  | part _ _ ih => exact ih hw
  | @call depth waiting f g s s₁ s₂ s' span name args before rest e vs hcaller hargs _ _ hnote _ _ ih =>
    cases inner with
    | cons _ inner => exact ih (List.cons.inj hw).2
    | nil =>
      -- This is the innermost call: noting it has left the variables alone.
      obtain ⟨rfl, rfl⟩ := List.cons.inj hw
      have hscope : s₂.scope = s₁.scope := by
        have hblind := (blind_noteCall name vs).scope_eq s₁
        rw [hnote] at hblind
        exact hblind
      refine ⟨depth, s, s₁, span, name, args, vs, rfl, hcaller, hargs, hscope, ?_⟩
      exact ((p.blind_dispatch o (depth + 1) name vs).scope_eq s₁).trans hscope.symm

variable (p o)

/-- Scopes are left as they were entered, in any program and however a form ends.  Behind a form the
innermost frame has lost no name, and the frames around it declare what they declared.  Where a
condition or a range holds no declaration, this goes for all frames behind an `if`, a `while` or a
`for`.  A call neither looks at the frames of its caller nor changes them, and at every point of a
run the calls that wait have theirs as they were when their arguments had been evaluated. -/
theorem scopes_left :
    (∀ (depth : Nat) (e : Expr) (s : State), s.scope ≠ [] →
      Scope.Kept e.declared s.scope (((p.machineAt o depth).exec e).run s).2.scope ∧
        Scope.Kept e.declared s.scope (((p.machineAt o depth).eval e).run s).2.scope) ∧
    (∀ (depth : Nat) (e header : Expr) (s : State), s.scope ≠ [] → e.header? = some header →
      (∀ e' ∈ header.forms, e'.declares? = none) →
      Scope.SameNames s.scope (((p.machineAt o depth).exec e).run s).2.scope ∧
        Scope.SameNames s.scope (((p.machineAt o depth).eval e).run s).2.scope) ∧
    (∀ (depth : Nat) (name : String) (vs : List Value) (s : State) (scope : Scope Value),
      ((p.machineAt o depth).call name vs).run { s with scope } =
        ((((p.machineAt o depth).call name vs).run s).1,
          { (((p.machineAt o depth).call name vs).run s).2 with scope })) ∧
    ∀ (s₀ s : State) (depth : Nat) (waiting : List Waiting) (f : Fun) (e : Expr),
      p.Reaches o s₀ depth waiting f s e →
        ∀ inner w outer, waiting = inner ++ w :: outer → p.Waits o s₀ w outer := by
  refine ⟨?_, ?_, ?_, ?_⟩
  · intro depth e s hs
    exact ⟨p.kept_exec o depth e hs, p.kept_eval o depth e hs⟩
  · intro depth e header s hs hheader hnone
    have hdeclared : e.declared = [] := by
      rw [Expr.declared_of_header hheader, Expr.declared_eq_nil hnone]
    have hexec := p.kept_exec o depth e hs
    have heval := p.kept_eval o depth e hs
    rw [hdeclared] at hexec heval
    exact ⟨hexec.sameNames, heval.sameNames⟩
  · intro depth name vs s scope
    exact (p.blind_dispatch o depth name vs).run_scope s scope
  · intro s₀ s depth waiting f e hreaches inner w outer hwaiting
    exact hreaches.waits hwaiting

/-- The statement `if (x < 3) { val y = next(x); x = y }`. -/
def raisesOnce : Expr :=
  .branch .zero (.binary .zero .less (.var .zero "x") (.int .zero 3)) [
    .declare .zero false "y" (.call .zero "next" [.var .zero "x"]),
    .assign .zero "x" (.var .zero "y")] []

/-- The function that is called declares a name and the block another one; behind them the frames
have no names but the old ones, and one of these has a new value. -/
theorem scopes_left_raisesOnce :
    ((((Session.withNext.program.machineAt .standard 1).exec raisesOnce).run
        (Session.stateWith [[], [("x", .int 2)]])).1 = .ok .normal ∧
      (((Session.withNext.program.machineAt .standard 1).exec raisesOnce).run
        (Session.stateWith [[], [("x", .int 2)]])).2.scope = [[], [("x", .int 3)]]) ∧
    raisesOnce.header? = some (.binary .zero .less (.var .zero "x") (.int .zero 3)) ∧
    (∀ e ∈ (Expr.binary .zero .less (.var .zero "x") (.int .zero 3)).forms, e.declares? = none) ∧
    Scope.SameNames [[], [("x", .int 2)]]
      (((Session.withNext.program.machineAt .standard 1).exec raisesOnce).run
        (Session.stateWith [[], [("x", .int 2)]])).2.scope := by
  have hnone : ∀ e ∈ (Expr.binary .zero .less (.var .zero "x") (.int .zero 3)).forms,
      e.declares? = none := by decide
  refine ⟨⟨rfl, rfl⟩, rfl, hnone, ?_⟩
  exact ((scopes_left Session.withNext.program .standard).2.1 1 raisesOnce _
    (Session.stateWith [[], [("x", .int 2)]]) (List.cons_ne_nil _ _) rfl hnone).1

end Program

end Scriptlet
