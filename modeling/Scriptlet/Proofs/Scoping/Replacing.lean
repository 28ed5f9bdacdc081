import Scriptlet.Proofs.Eval.Endings
import Scriptlet.Proofs.Scoping.Leaving
import Scriptlet.Proofs.Store.Points

/-!
# Replacing characters of texts

A text has no place of its own: `s[i] = c` gives the variable a new text.  The old text is looked up
before `i` and `c` are evaluated, so what these assign to the variable is overwritten with it.
`Program.store_keeps_iff` says which assignments survive: those that leave all other characters as
they were, and so in particular none at all.

That a form which does not set a variable leaves it alone is a matter of its syntax: `Run.Spares`
holds of every primitive that sets other names, and passes from parts to wholes.
-/

namespace Scriptlet

open Run

/-! ## Texts that differ in one character -/

namespace Text

/-- The texts are equally long and differ in the character at position `i` at most. -/
def SameElsewhere (i : Nat) (a b : List CodePoint) : Prop :=
  a.length = b.length ∧ ∀ k, k ≠ i → a[k]? = b[k]?

/-- The second text is the first one with `c` in place of the character at position `i`. -/
def Replaces (i : Nat) (c : CodePoint) (a b : List CodePoint) : Prop :=
  SameElsewhere i a b ∧ b[i]? = some c

variable {i : Nat} {c : CodePoint} {a b d : List CodePoint}

theorem SameElsewhere.symm (h : SameElsewhere i a b) : SameElsewhere i b a :=
  ⟨h.1.symm, fun k hk => (h.2 k hk).symm⟩

theorem SameElsewhere.trans (h : SameElsewhere i a b) (h' : SameElsewhere i b d) :
    SameElsewhere i a d :=
  ⟨h.1.trans h'.1, fun k hk => (h.2 k hk).trans (h'.2 k hk)⟩

theorem replaces_set (h : i < a.length) (c : CodePoint) : Replaces i c a (a.set i c) := by
  refine ⟨⟨List.length_set.symm, fun k hk => ?_⟩, List.getElem?_set_self h⟩
  rw [List.getElem?_set_ne hk.symm]

theorem Replaces.unique (h : Replaces i c a b) (h' : Replaces i c a d) : b = d := by
  apply List.ext_getElem?
  intro k
  by_cases hk : k = i
  · rw [hk, h.2, h'.2]
  · rw [← h.1.2 k hk, ← h'.1.2 k hk]

/-- What the character is replaced in matters only as far as the other characters. -/
theorem Replaces.iff (h : Replaces i c a b) : Replaces i c d b ↔ SameElsewhere i a d :=
  ⟨fun h' => h.1.trans h'.1.symm, fun h' => ⟨h'.symm.trans h.1, h.2⟩⟩

end Text

/-! ## Variables that a run does not set -/

namespace Run

variable {α β : Type} {x : String}

/-- However the run ends, `x` stands for the same in every frame as before. -/
def Spares (x : String) (act : Run α) : Prop :=
  ∀ s : State, s.scope ≠ [] → Scope.Agree (· = x) s.scope (act.run s).2.scope

theorem Blind.spares {E : Stop → Prop} {act : Run α} (h : Blind E act) : Spares x act := by
  intro s _
  rw [h.scope_eq s]
  exact Scope.Agree.refl _ _

theorem spares_pure (a : α) : Spares x (pure a) := (blind_pure (E := fun _ => True) a).spares

theorem spares_throw (e : Stop) : Spares x (throw e : Run α) :=
  (blind_throw (E := fun _ => True) trivial).spares

theorem spares_note (level : Nat) (text : String) : Spares x (note level text) :=
  (blind_note (E := fun _ => True) level text).spares

theorem spares_noteValue (level : Nat) (label : String) (v : Value) :
    Spares x (noteValue level label v) := (blind_noteValue level label v).spares

theorem Spares.bind {act : Run α} {f : α → Run β} (h : Spares x act) (hf : ∀ a, Spares x (f a)) :
    Spares x (act >>= f) := by
  intro s hs
  have hact := h s hs
  rcases hrun : act.run s with ⟨e | a, t⟩ <;> rw [hrun] at hact
  · rw [run_bind_error hrun]
    exact hact
  · rw [run_bind_ok hrun]
    exact hact.trans (hf a t (hact.ne_nil hs))

/-- The frame of the block is gone behind it, with or without the name. -/
theorem Spares.inBlock {act : Run α} (h : Spares x act) : Spares x (inBlock act) := by
  intro s hs
  have hact := h { s with scope := s.scope.push } (List.cons_ne_nil _ _)
  exact hact.pop hs

theorem spares_lookup (y : String) : Spares x (lookup y) := by
  intro s hs
  rw [lookup, run_get_bind]
  cases s.scope.get? y with
  | none => exact spares_throw _ s hs
  | some v => exact spares_pure v s hs

theorem spares_declare {y : String} (hy : y ≠ x) (v : Value) : Spares x (Run.declare y v) := by
  intro s hs
  exact Scope.agree_declare (P := (· = x)) hs hy v

theorem spares_assign {y : String} (hy : y ≠ x) (v : Value) : Spares x (assign y v) := by
  intro s hs
  rw [assign, run_get_bind]
  cases hset : s.scope.set? y v with
  | none => exact spares_throw _ s hs
  | some c => exact Scope.agree_of_set? hy hset

/-! ## Statements and loops -/

theorem Spares.asValue {act : Run Effect} (h : Spares x act) (e : Expr) :
    Spares x (asValue e act) := by
  refine (blind_announceStatement (E := fun _ => True) e).spares.bind fun _ => ?_
  refine h.bind fun effect => ?_
  rcases effect with v | _ | v
  · exact spares_pure v
  · exact spares_pure _
  · exact spares_throw _

theorem Spares.asStatement {act : Run Effect} (h : Spares x act) (e : Expr) :
    Spares x (asStatement e act) := by
  refine (spares_note _ _).bind fun _ => h.bind fun effect => ?_
  rcases effect with v | c
  · exact spares_pure _
  · exact spares_pure c

theorem Spares.andThen {first second : Run Completion} (h : Spares x first)
    (h' : Spares x second) : Spares x (andThen first second) := by
  refine h.bind fun c => ?_
  cases c with
  | normal => exact h'
  | returned v => exact spares_pure _

theorem spares_whileTrue {cond : Run Value} {body : Run Completion} (hcond : Spares x cond)
    (hbody : Spares x body) (rounds : Nat) : Spares x (whileTrue cond body rounds) := by
  induction rounds with
  | zero => exact spares_throw _
  | succ rounds ih =>
    refine hcond.bind fun v => ?_
    split
    · exact (spares_note _ _).bind fun _ => hbody.inBlock.andThen ih
    · exact spares_pure _

theorem spares_eachValue {body : Value → Run Completion} (h : ∀ v, Spares x (body v))
    (vs : List Value) : Spares x (eachValue body vs) := by
  induction vs with
  | nil => exact spares_pure _
  | cons v vs ih => exact (h v).andThen ih

theorem spares_forLoop {body : Run Completion} (hbody : Spares x body) (scope : ForScope)
    {y : String} (hy : y ≠ x) (items : Items) : Spares x (forLoop scope y body items) := by
  have hround : ∀ v, Spares x (roundFor y body v) := fun v =>
    (spares_noteValue _ _ v).bind fun _ => (spares_declare hy v).bind fun _ => hbody
  cases scope with
  | shared =>
    rw [forLoop, each_eq]
    exact (spares_eachValue hround items.toList).inBlock
  | fresh =>
    rw [forLoop, each_eq]
    exact spares_eachValue (fun v => (hround v).inBlock) items.toList

end Run

theorem Value.spares_storeAt {x y : String} (hy : y ≠ x) (container i v : Value) :
    Spares x (container.storeAt y i v) := by
  unfold Value.storeAt
  split
  · exact (blind_itemsOf (E := fun _ => True) _).spares.bind fun _ =>
      (blind_position _ _).spares.bind fun _ => (blind_store (E := fun _ => True) _ _ _).spares
  · exact (blind_position _ _).spares.bind fun _ => spares_assign hy _
  · exact spares_throw _

/-! ## Variables that a form does not set -/

namespace Expr

/-- The variables that a form itself declares, assigns to or loops with, or one of whose elements it
assigns to. -/
def ownTargets : Expr → List String
  | declare _ _ name _ | assign _ name _ | forIn _ name _ _ => [name]
  | store _ _ base _ _ => [base.text]
  | _ => []

/-- No form that occurs in the form sets `x`. -/
def LeavesAlone (x : String) (e : Expr) : Prop := ∀ e' ∈ e.forms, x ∉ e'.ownTargets

instance (x : String) (e : Expr) : Decidable (e.LeavesAlone x) :=
  inferInstanceAs (Decidable (∀ e' ∈ e.forms, x ∉ e'.ownTargets))

end Expr

namespace Machine

variable {m : Machine} {x : String}

theorem spares_values {es : List Expr} (h : ∀ e ∈ es, Spares x (m.step e)) :
    Spares x (m.values es) := by
  induction es with
  | nil => exact spares_pure _
  | cons e es ih =>
    obtain ⟨he, hes⟩ := List.forall_mem_cons.1 h
    exact (he.asValue e).bind fun _ => (ih hes).bind fun _ => spares_pure _

theorem spares_block {es : List Expr} (h : ∀ e ∈ es, Spares x (m.step e)) :
    Spares x (m.block es) := by
  induction es with
  | nil => exact spares_pure _
  | cons e es ih =>
    obtain ⟨he, hes⟩ := List.forall_mem_cons.1 h
    exact (he.asStatement e).andThen (ih hes)

/-- A form in which no form sets the variable leaves it alone, where calls do. -/
theorem spares_step (hcall : ∀ name vs, Spares x (m.call name vs)) (e : Expr)
    (he : e.LeavesAlone x) : Spares x (m.step e) := by
  induction e using Expr.induction_parts with
  | h e ih =>
    have hpart : ∀ e' ∈ e.parts, Spares x (m.step e') := fun e' he' =>
      ih e' he' fun e'' he'' => he e'' (Expr.mem_forms_of_part he' he'')
    -- a form sets only the variables that it names as its targets
    have hown : ∀ y ∈ e.ownTargets, y ≠ x := by
      rintro y hy rfl
      exact he e e.self_mem_forms hy
    cases e with
    | int | bool | char | str | returnUnit => exact spares_pure _
    | var span name => exact (spares_lookup name).bind fun _ => spares_pure _
    | index span base position =>
      have hposition := (hpart position List.mem_cons_self).asValue position
      exact (spares_lookup _).bind fun container => hposition.bind fun i =>
        (container.blind_elementAt i).spares.bind fun _ => spares_pure _
    | neg span e =>
      exact ((hpart e List.mem_cons_self).asValue e).bind fun v =>
        (blind_expectInt v).spares.bind fun _ => spares_pure _
    | not span e | parens span e | returnValue span e =>
      exact ((hpart e List.mem_cons_self).asValue e).bind fun _ => spares_pure _
    | binary span op l r =>
      have hl := (hpart l List.mem_cons_self).asValue l
      have hr := (hpart r (List.mem_cons_of_mem _ List.mem_cons_self)).asValue r
      refine hl.bind fun a => ?_
      cases op.shortcut? a with
      | some v => exact spares_pure _
      | none => exact hr.bind fun b => (op.blind_combine a b).spares.bind fun _ => spares_pure _
    | declare span mutable name value =>
      have hvalue := (hpart value List.mem_cons_self).asValue value
      exact hvalue.bind fun v => (spares_declare (hown name List.mem_cons_self) v).bind fun _ =>
        (spares_noteValue _ _ v).bind fun _ => spares_pure _
    | assign span name value =>
      have hvalue := (hpart value List.mem_cons_self).asValue value
      exact hvalue.bind fun v => (spares_assign (hown name List.mem_cons_self) v).bind fun _ =>
        spares_pure _
    | call span name args =>
      exact (spares_values hpart).bind fun vs => (hcall name vs).bind fun _ => spares_pure _
    | store span target base position value =>
      have hposition := (hpart position List.mem_cons_self).asValue position
      have hvalue := (hpart value (List.mem_cons_of_mem _ List.mem_cons_self)).asValue value
      have hbase := hown base.text List.mem_cons_self
      exact (spares_lookup _).bind fun container => hposition.bind fun i => hvalue.bind fun v =>
        (container.spares_storeAt hbase i v).bind fun _ => spares_pure _
    | branch span cond body otherwise =>
      have hcond := (hpart cond List.mem_cons_self).asValue cond
      have hbody := spares_block fun e he => hpart e (List.mem_append_left _ (.tail _ he))
      have hother := spares_block fun e he => hpart e (List.mem_append_right _ he)
      refine hcond.bind fun c => (spares_noteValue _ _ c).bind fun _ => ?_
      split
      · exact hbody.inBlock.bind fun _ => spares_pure _
      · exact hother.inBlock.bind fun _ => spares_pure _
    | forIn span name iterable body =>
      have hiterable := (hpart iterable List.mem_cons_self).asValue iterable
      have hbody := spares_block fun e he => hpart e (.tail _ he)
      have hname := hown name List.mem_cons_self
      exact hiterable.bind fun v => v.blind_elements.spares.bind fun items =>
        (spares_forLoop hbody m.forScope hname items).bind fun _ => spares_pure _
    | loop span cond body =>
      have hcond := (hpart cond List.mem_cons_self).asValue cond
      have hbody := spares_block fun e he => hpart e (.tail _ he)
      exact (spares_whileTrue hcond hbody m.rounds).bind fun _ => spares_pure _

end Machine

/-- Calls leave all variables of the caller alone, so evaluating a form changes only those that the
form itself sets. -/
theorem Program.get?_eval (p : Program) (o : Settings) (depth : Nat) {x : String} {e : Expr}
    (he : e.LeavesAlone x) {s : State} (hs : s.scope ≠ []) :
    (((p.machineAt o depth).eval e).run s).2.scope.get? x = s.scope.get? x := by
  have hcall : ∀ name vs, Spares x ((p.machineAt o depth).call name vs) := fun name vs =>
    (p.blind_dispatch o depth name vs).spares
  have hagree := ((Machine.spares_step hcall e he).asValue e) s hs
  exact (hagree.get? rfl).symm

/-! ## Assignments to characters -/

namespace Run

variable {s t : State}

theorem run_position_iff {v : Value} {length k : Nat} :
    (position v length).run s = (.ok k, t) ↔ v = .int k ∧ k < length ∧ t = s := by
  constructor
  · intro h
    cases v with
    | int n =>
      obtain ⟨_, _, hint, h⟩ := exists_run_of_bind h
      cases hint
      split at h
      · cases h
        refine ⟨?_, ?_, rfl⟩
        · congr 1
          omega
        · omega
      · cases h
    | bool | str | char | unit | array | range => cases h
  · rintro ⟨rfl, hlt, rfl⟩
    refine (run_bind_ok (show (expectInt (.int k)).run t = (.ok (k : Int), t) from rfl) _).trans ?_
    rw [if_pos (by omega)]
    rfl

theorem run_assign_iff {x : String} {v : Value} :
    (assign x v).run s = (.ok (), t) ↔
      s.scope.set? x v = some t.scope ∧ t = { s with scope := t.scope } := by
  constructor
  · intro h
    rw [assign, run_get_bind] at h
    cases hset : s.scope.set? x v with
    | none =>
      rw [hset] at h
      cases h
    | some scope =>
      rw [hset] at h
      cases h
      exact ⟨rfl, rfl⟩
  · rintro ⟨hset, ht⟩
    rw [run_assign hset, ← ht]

end Run

namespace Machine

/-- How `x[position] = value` goes where `x` is `text` at first: the position is evaluated from `s` to
`s₁`, the value from there to `s₂`, and then `x` becomes `new`. -/
structure StoresText (m : Machine) (x : String) (position value : Expr) (text : CodeText)
    (s s₁ s₂ t : State) (k : Nat) (c : CodePoint) (new : CodeText) : Prop where
  index : (m.eval position).run s = (.ok (.int k), s₁)
  value : (m.eval value).run s₁ = (.ok (.char c), s₂)
  /-- The text that is changed is the one from before the two evaluations. -/
  replaced : Text.Replaces k c text.points new.points
  /-- It goes to the variable that is visible after them. -/
  stored : s₂.scope.set? x (.str new) = some t.scope
  /-- Nothing else is changed. -/
  rest : t = { s₂ with scope := t.scope }

variable {m : Machine} {s t : State}

/-- A text takes characters, at its own positions. -/
theorem run_storeAt_text_iff {x : String} {text : CodeText} {i v : Value} :
    ((Value.str text).storeAt x i v).run s = (.ok (), t) ↔
      ∃ (k : Nat) (c : CodePoint) (new : CodeText), i = .int k ∧ v = .char c ∧
        Text.Replaces k c text.points new.points ∧
        s.scope.set? x (.str new) = some t.scope ∧ t = { s with scope := t.scope } := by
  constructor
  · intro h
    cases v with
    | char c =>
      obtain ⟨k, u, hposition, hassign⟩ := exists_run_of_bind h
      obtain ⟨rfl, hlt, rfl⟩ := run_position_iff.1 hposition
      obtain ⟨hset, ht⟩ := run_assign_iff.1 hassign
      exact ⟨k, c, _, rfl, rfl, Text.replaces_set hlt c, hset, ht⟩
    | int | bool | str | unit | array | range => cases h
  · rintro ⟨k, c, new, rfl, rfl, hnew, hset, ht⟩
    have hlt : k < text.length := by
      obtain ⟨hk, -⟩ := List.getElem?_eq_some_iff.1 hnew.2
      rwa [← hnew.1.1] at hk
    -- There is only one such text.
    have hlist : text.set k c = new :=
      congrArg CodeText.mk ((Text.replaces_set hlt c).unique hnew)
    refine (run_bind_ok (run_position_iff.2 ⟨rfl, hlt, rfl⟩) _).trans (run_assign_iff.2 ?_)
    rw [hlist]
    exact ⟨hset, ht⟩

/-- An assignment to a character of a text ends exactly if it goes as it should. -/
theorem run_store_text_iff {span target : Span} {base : Name} {position value : Expr}
    {text : CodeText} {r : Effect} (htext : s.scope.get? base.text = some (.str text)) :
    (m.step (.store span target base position value)).run s = (.ok r, t) ↔
      r = .completed .normal ∧
        ∃ s₁ s₂ k c new, m.StoresText base.text position value text s s₁ s₂ t k c new := by
  rw [step]
  constructor
  · intro h
    obtain ⟨container, u, hlookup, h⟩ := exists_run_of_bind h
    rw [run_lookup htext] at hlookup
    cases hlookup
    obtain ⟨i, s₁, hindex, h⟩ := exists_run_of_bind h
    obtain ⟨v, s₂, hvalue, h⟩ := exists_run_of_bind h
    obtain ⟨_, t', hstore, h⟩ := exists_run_of_bind h
    cases h
    obtain ⟨k, c, new, rfl, rfl, hnew, hset, hrest⟩ := run_storeAt_text_iff.1 hstore
    exact ⟨rfl, s₁, s₂, k, c, new, hindex, hvalue, hnew, hset, hrest⟩
  · rintro ⟨rfl, s₁, s₂, k, c, new, h⟩
    have hstore : ((Value.str text).storeAt base.text (.int k) (.char c)).run s₂ = (.ok (), t) :=
      run_storeAt_text_iff.2 ⟨k, c, new, rfl, rfl, h.replaced, h.stored, h.rest⟩
    refine (run_bind_ok (run_lookup htext) _).trans ?_
    refine (run_bind_ok h.index _).trans ?_
    refine (run_bind_ok h.value _).trans ?_
    exact run_bind_ok hstore _

end Machine

/-- From the first state to the second one, the text that `x` stands for is changed in the character
at position `k`, which becomes `c`, and in no other. -/
def State.Updates (x : String) (k : Nat) (c : CodePoint) (s t : State) : Prop :=
  ∃ current new : CodeText, s.scope.get? x = some (.str current) ∧
    t.scope.get? x = some (.str new) ∧ Text.Replaces k c current.points new.points

namespace Machine.StoresText

variable {m : Machine} {x : String} {position value : Expr} {text new : CodeText}
  {s s₁ s₂ t : State} {k : Nat} {c : CodePoint}

theorem get? (h : m.StoresText x position value text s s₁ s₂ t k c new) :
    t.scope.get? x = some (.str new) := Scope.get?_of_set? h.stored

/-- The current text is updated if it still has the other characters of the old one. -/
theorem updates_iff (h : m.StoresText x position value text s s₁ s₂ t k c new) :
    s₂.Updates x k c t ↔
      ∃ current, s₂.scope.get? x = some (.str current) ∧
        Text.SameElsewhere k text.points current.points := by
  constructor
  · rintro ⟨current, new', hcurrent, hnew, hreplaces⟩
    obtain rfl : new = new' := by
      have hsome := h.get?.symm.trans hnew
      injection hsome with hsome
      injection hsome
    exact ⟨current, hcurrent, h.replaced.iff.1 hreplaces⟩
  · rintro ⟨current, hcurrent, hsame⟩
    exact ⟨current, new, hcurrent, h.get?, h.replaced.iff.2 hsame⟩

end Machine.StoresText

namespace Program

/-- In any program, checked or not, an assignment `s[i] = c` to a character of a text ends exactly if
`i` evaluates to a position of the text, and `c` behind it to a character.  The variable that is then
visible becomes the text that `s` was before the two evaluations, with the one character replaced.
So its own current text is updated exactly if it still has the other characters of that old text, and
in particular if neither `i` nor `c` sets the variable. -/
theorem store_keeps_iff (p : Program) (o : Settings) (depth : Nat) (span target : Span)
    (base : Name) (position value : Expr) {s : State} {text : CodeText}
    (htext : s.scope.get? base.text = some (.str text)) :
    let m := p.machineAt o depth
    (∀ r t, (m.step (.store span target base position value)).run s = (.ok r, t) ↔
      r = .completed .normal ∧
        ∃ s₁ s₂ k c new, m.StoresText base.text position value text s s₁ s₂ t k c new) ∧
    ∀ s₁ s₂ t k c new, m.StoresText base.text position value text s s₁ s₂ t k c new →
      t.scope.get? base.text = some (.str new) ∧
      (s₂.Updates base.text k c t ↔
        ∃ current, s₂.scope.get? base.text = some (.str current) ∧
          Text.SameElsewhere k text.points current.points) ∧
      (position.LeavesAlone base.text → value.LeavesAlone base.text →
        s₂.Updates base.text k c t) := by
  intro m
  refine ⟨fun r t => Machine.run_store_text_iff htext, ?_⟩
  intro s₁ s₂ t k c new h
  refine ⟨h.get?, h.updates_iff, ?_⟩
  intro hposition hvalue
  have hne : s.scope ≠ [] := by
    intro hnil
    rw [hnil] at htext
    cases htext
  -- Neither of the two evaluations changes the variable, so its text is still the old one.
  have hs₁ : s₁.scope.get? base.text = some (.str text) := by
    have hget := p.get?_eval o depth hposition hne
    rw [h.index] at hget
    exact hget.trans htext
  have hne₁ : s₁.scope ≠ [] := by
    intro hnil
    rw [hnil] at hs₁
    cases hs₁
  have hs₂ : s₂.scope.get? base.text = some (.str text) := by
    have hget := p.get?_eval o depth hvalue hne₁
    rw [h.value] at hget
    exact hget.trans hs₁
  exact h.updates_iff.2 ⟨text, hs₂, rfl, fun _ _ => rfl⟩

/-- The statement `s[next(0)] = s[2]` reads the variable that it changes, but sets it only once. -/
theorem store_keeps_iff_copiesLast :
    let m := Session.withNext.program.machineAt .standard 1
    let position : Expr := .call .zero "next" [.int .zero 0]
    let value : Expr := .index .zero ⟨"s", .zero⟩ (.int .zero 2)
    let s := Session.stateWith [[("s", .str "abc")]]
    s.scope.get? "s" = some (.str "abc") ∧ position.LeavesAlone "s" ∧ value.LeavesAlone "s" ∧
    ∃ s₁ s₂ t, (m.step (.store .zero .zero ⟨"s", .zero⟩ position value)).run s =
        (.ok (.completed .normal), t) ∧
      m.StoresText "s" position value "abc" s s₁ s₂ t 1 (.ofChar 'c') "acc" ∧
      s₂.Updates "s" 1 (.ofChar 'c') t := by
  intro m position value s
  have htext : s.scope.get? "s" = some (.str "abc") := rfl
  have hposition : position.LeavesAlone "s" := by decide
  have hvalue : value.LeavesAlone "s" := by decide
  have hstores : m.StoresText "s" position value "abc" s s s (Session.stateWith [[("s", .str "acc")]])
      1 (.ofChar 'c') "acc" := by
    exact ⟨rfl, rfl, Text.replaces_set (by decide) (.ofChar 'c'), rfl, rfl⟩
  obtain ⟨hcompletes, hkeeps⟩ := store_keeps_iff Session.withNext.program .standard 1 .zero .zero
    ⟨"s", .zero⟩ position value htext
  refine ⟨htext, hposition, hvalue, s, s, _, (hcompletes _ _).2 ⟨rfl, _, _, _, _, _, hstores⟩,
    hstores, ?_⟩
  exact (hkeeps _ _ _ _ _ _ hstores).2.2 hposition hvalue

/-- `s[0] = mark(s = "def")`, where `mark` takes a `Unit` and returns a character. -/
def marksAssigned : Expr :=
  .store .zero .zero ⟨"s", .zero⟩ (.int .zero 0)
    (.call .zero "mark" [.assign .zero "s" (.str .zero "def")])

/-- `var s = "abc"`, then `s[0] = mark(s = "def")`, then `return s`. -/
def forgetsAssigned : Program where
  span := .zero
  functions := [
    .plain "mark" [⟨.zero, "u", .simple .zero "Unit"⟩] (some "Char")
      [.returnValue .zero (.char .zero 'x')],
    .plain "main" [] (some "String") [
      .declare .zero true "s" (.str .zero "abc"),
      marksAssigned,
      .returnValue .zero (.var .zero "s")]]

/-- An assignment made while the value is evaluated is lost: the program is accepted, the variable is
`def` when the character is stored, and `xbc` behind that. -/
theorem forgetsAssigned_loses :
    (forgetsAssigned.check ⟨0, #[]⟩).1 = [] ∧
    (∃ f s s₁ s₂ t, forgetsAssigned.Reaches ⟨2, 0, .shared⟩ { trace := ⟨0, #[]⟩ } 1 [] f s
        marksAssigned ∧
      s.scope.get? "s" = some (.str "abc") ∧
      ((forgetsAssigned.machineAt ⟨2, 0, .shared⟩ 1).step marksAssigned).run s =
        (.ok (.completed .normal), t) ∧
      (forgetsAssigned.machineAt ⟨2, 0, .shared⟩ 1).StoresText "s" (.int .zero 0)
        (.call .zero "mark" [.assign .zero "s" (.str .zero "def")]) "abc" s s₁ s₂ t 0
        (.ofChar 'x') "xbc" ∧
      s₂.scope.get? "s" = some (.str "def") ∧ ¬ s₂.Updates "s" 0 (.ofChar 'x') t) ∧
    ((forgetsAssigned.run ⟨2, 0, .shared⟩).run { trace := ⟨0, #[]⟩ }).1 = .ok (.str "xbc") := by
  have hstores : (forgetsAssigned.machineAt ⟨2, 0, .shared⟩ 1).StoresText "s" (.int .zero 0)
      (.call .zero "mark" [.assign .zero "s" (.str .zero "def")]) "abc"
      (Session.stateWith [[("s", .str "abc")]]) (Session.stateWith [[("s", .str "abc")]])
      (Session.stateWith [[("s", .str "def")]]) (Session.stateWith [[("s", .str "xbc")]]) 0
      (.ofChar 'x') "xbc" :=
    ⟨rfl, rfl, Text.replaces_set (by decide) (.ofChar 'x'), rfl, rfl⟩
  have hcomes : (forgetsAssigned.machineAt ⟨2, 0, .shared⟩ 1).Comes
      [.declare .zero true "s" (.str .zero "abc")] marksAssigned (Session.stateWith [[]])
      (Session.stateWith [[("s", .str "abc")]]) :=
    ⟨Session.stateWith [[("s", .str "abc")]], rfl, rfl⟩
  refine ⟨rfl, ⟨_, _, _, _, _, .start rfl rfl rfl rfl hcomes, rfl, rfl, hstores, ?_⟩, rfl⟩
  refine ⟨rfl, ?_⟩
  -- The current text and the new one differ in the second character, too.
  rintro ⟨current, new, hcurrent, hnew, hreplaces⟩
  cases hcurrent
  cases hnew
  have hsecond : (CodeText.ofString "def").points[1]? = (CodeText.ofString "xbc").points[1]? :=
    hreplaces.1.2 1 (by decide)
  exact absurd hsecond (by decide)

end Program

end Scriptlet
