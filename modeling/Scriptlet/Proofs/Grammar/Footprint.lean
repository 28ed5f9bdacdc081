import Scriptlet.Proofs.Grammar.Yield

/-!
# Rules look at their window alone

A rule that reads from a window never looks at a lexeme outside of it, nor asks or searches in a
window that reaches beyond it.  So it does not matter what stands outside, or whether anything does:
on every layout that is the same inside of the window the rule goes the same way.

`Rule.Confined` puts a rule next to the same rule on another such layout.  Both ask the same goals,
all of them inside of the window, and go on alike as long as the answers stop inside of it.
-/

namespace Scriptlet

variable {α β : Type}

/-! ## The judgement -/

/-- Inside of `w₀` the other layout has the same lexemes and finds the same places. -/
structure Layout.SameInside (L L' : Layout) (w₀ : Window) : Prop where
  lexeme : ∀ i, w₀.lo ≤ i → i < w₀.hi → L'.lexemes[i]? = L.lexemes[i]?
  closing : ∀ lo hi, w₀.Holds lo hi → L'.closing? ⟨lo, hi⟩ = L.closing? ⟨lo, hi⟩
  find : ∀ t lo hi, w₀.Holds lo hi → L'.find? t ⟨lo, hi⟩ = L.find? t ⟨lo, hi⟩

theorem Layout.SameInside.refl (L : Layout) (w₀ : Window) : L.SameInside L w₀ where
  lexeme _ _ _ := rfl
  closing _ _ _ := rfl
  find _ _ _ _ := rfl

/-- Reading stopped inside of the window, at `hi` at the latest, or it failed.  What is left over is
no failure of a rule. -/
def Outcome.Inside (w₀ : Window) (hi : Nat) : Outcome α → Prop
  | .ok (_, k) => w₀.Holds k hi
  | .error e => ∀ l, e ≠ .leftover l

/-- Both computations ask the same goals, all of them inside of `w₀`.  From answers that stop inside
of their windows they go on alike and end with the same result, which is as `P` says. -/
inductive Query.Confined (w₀ : Window) (P : α → Prop) : Query α → Query α → Prop
  | done {a : α} : P a → Confined w₀ P (.done a) (.done a)
  | ask {g : Goal} {resume resume' : Outcome Expr → Query α} :
      w₀.Holds g.window.lo g.window.hi →
      (∀ o, Outcome.Inside w₀ g.window.hi o → Confined w₀ P (resume o) (resume' o)) →
      Confined w₀ P (.ask g resume) (.ask g resume')

/-- Wherever in `w₀` both rules start, at most up to `hi`, they go on alike and stop in `w₀`. -/
def Rule.Confined (w₀ : Window) (hi : Nat) (r r' : Rule α) : Prop :=
  ∀ lo, w₀.Holds lo hi → (r ⟨lo, hi⟩).Confined w₀ (Outcome.Inside w₀ hi) (r' ⟨lo, hi⟩)

variable {w₀ : Window}

/-- What follows is confined if it is for every answer that the first part may get. -/
theorem Query.Confined.bind {P : α → Prop} {Q : β → Prop} {q q' : Query α} {f f' : α → Query β}
    (h : q.Confined w₀ P q') (hf : ∀ a, P a → (f a).Confined w₀ Q (f' a)) :
    (q.bind f).Confined w₀ Q (q'.bind f') := by
  induction h with
  | done hP => exact hf _ hP
  | ask hg _ ih => exact .ask hg ih

/-- With the same answers, all of them inside of their windows, the results are the same. -/
theorem Query.Confined.run {P : α → Prop} {q q' : Query α}
    {answer answer' : Goal → Option (Outcome Expr)} (h : q.Confined w₀ P q')
    (hanswer : ∀ g : Goal, w₀.Holds g.window.lo g.window.hi → answer' g = answer g ∧
      ∀ o, answer g = some o → Outcome.Inside w₀ g.window.hi o) :
    q'.run answer' = q.run answer ∧ ∀ a, q.run answer = some a → P a := by
  induction h with
  | done hP =>
    refine ⟨rfl, fun a ha => ?_⟩
    obtain rfl := Option.some.inj ha
    exact hP
  | @ask g resume resume' hg _ ih =>
    obtain ⟨heq, hinside⟩ := hanswer g hg
    rw [Query.run, Query.run, heq]
    cases ho : answer g with
    | none => exact ⟨rfl, fun a ha => by cases ha⟩
    | some o => exact ih o (hinside o ho)

namespace Rule

variable {hi : Nat}

/-- One rule after the other is confined if both are. -/
theorem confined_bind {r r' : Rule α} {f f' : α → Rule β} (h : r.Confined w₀ hi r')
    (hf : ∀ a, (f a).Confined w₀ hi (f' a)) : (r >>= f).Confined w₀ hi (r' >>= f') := by
  intro lo hw
  refine (h lo hw).bind ?_
  intro o ho
  cases o with
  | error e => exact .done ho
  | ok found => exact hf found.1 found.2 ho

theorem confined_pure (a : α) : (pure a : Rule α).Confined w₀ hi (pure a) :=
  fun _ hw => .done hw

theorem confined_fail {e : SyntaxError} (he : ∀ l, e ≠ .leftover l) :
    (fail e : Rule α).Confined w₀ hi (fail e) :=
  fun _ _ => .done he

/-- The second alternative starts where the first one did. -/
theorem confined_orElse {r r' s s' : Rule α} (hr : r.Confined w₀ hi r')
    (hs : s.Confined w₀ hi s') : (orElse r s).Confined w₀ hi (orElse r' s') := by
  intro lo hw
  refine (hr lo hw).bind ?_
  intro o ho
  cases o with
  | error e => exact hs lo hw -- The second rule starts where the first one did.
  | ok found => exact .done ho

/-- Where a rule starts is inside of the window. -/
theorem confined_here_bind {f f' : Nat → Rule β}
    (hf : ∀ start, w₀.lo ≤ start → (f start).Confined w₀ hi (f' start)) :
    (here >>= f).Confined w₀ hi (here >>= f') :=
  fun lo hw => hf lo hw.start lo hw

/-- What is left to a rule is inside of the window. -/
theorem confined_window_bind {f f' : Window → Rule β}
    (hf : ∀ lo, w₀.Holds lo hi → (f ⟨lo, hi⟩).Confined w₀ hi (f' ⟨lo, hi⟩)) :
    (window >>= f).Confined w₀ hi (window >>= f') :=
  fun lo hw => hf lo hw lo hw

theorem confined_jump {k : Nat} (hlo : w₀.lo ≤ k) (hhi : k ≤ hi) :
    (jump k).Confined w₀ hi (jump k) :=
  fun _ hw => .done ⟨hlo, hhi, hw.stop⟩

theorem confined_level (l : Level) : (level l).Confined w₀ hi (level l) :=
  fun _ hw => .ask hw fun _ ho => .done ho

/-- The rounds are counted by the window, which is the same. -/
theorem confined_sized {r r' : Nat → Rule α}
    (h : ∀ rounds, (r rounds).Confined w₀ hi (r' rounds)) :
    (sized r).Confined w₀ hi (sized r') :=
  fun lo hw => h _ lo hw

end Rule

namespace Grammar

open Rule

section

variable {L L' : Layout} {hi : Nat} (h : L.SameInside L' w₀)

include h

/-! ## Single tokens -/

/-- The lexemes of the window are the same in both layouts. -/
theorem get?_inside {lo : Nat} (hw : w₀.Holds lo hi) :
    Window.get? ⟨lo, hi⟩ L'.lexemes 0 = Window.get? ⟨lo, hi⟩ L.lexemes 0 := by
  rw [Window.get?, Window.get?]
  split
  · rename_i hlength
    have hlt : lo < hi := Nat.lt_of_sub_pos hlength
    exact h.lexeme lo hw.start (Nat.lt_of_lt_of_le hlt hw.stop)
  · rfl

theorem confined_first : (first L).Confined w₀ hi (first L') := by
  intro lo hw
  rw [first, first, Window.first, Window.first, get?_inside h hw]
  cases Window.get? ⟨lo, hi⟩ L.lexemes 0 with
  | none => exact .done fun l hl => by cases hl
  | some l => exact .done hw

theorem confined_peek? : (peek? L).Confined w₀ hi (peek? L') := by
  intro lo hw
  rw [peek?, peek?, get?_inside h hw]
  exact .done hw

omit h in
theorem confined_advance : advance.Confined w₀ hi advance := by
  intro lo hw
  exact .done ⟨Nat.le_min.2 ⟨Nat.le_succ_of_le hw.start, Nat.le_trans hw.start hw.valid⟩,
    Nat.min_le_right _ _, hw.stop⟩

theorem confined_expect (x : Expected) : (expect L x).Confined w₀ hi (expect L' x) := by
  refine confined_bind (confined_first h) fun l => ?_
  split
  · exact confined_bind confined_advance fun _ => confined_pure l
  · exact confined_fail (by simp)

theorem confined_accept (x : Expected) : (accept L x).Confined w₀ hi (accept L' x) := by
  refine confined_bind (confined_first h) fun l => ?_
  split
  · exact confined_bind confined_advance fun _ => confined_pure true
  · exact confined_pure false

theorem confined_nextIs (x : Expected) : (nextIs L x).Confined w₀ hi (nextIs L' x) := by
  refine confined_bind (confined_peek? h) fun l? => ?_
  cases l? with
  | none => exact confined_pure false
  | some l => exact confined_pure _

/-- Line ends are passed over up to the end of the window, not farther. -/
theorem newlineRun_inside {n lo : Nat} (hlo : w₀.lo ≤ lo) (hn : lo + n ≤ w₀.hi) :
    L'.newlineRun n lo = L.newlineRun n lo ∧ lo ≤ L.newlineRun n lo ∧
      L.newlineRun n lo ≤ lo + n := by
  induction n generalizing lo with
  | zero => exact ⟨rfl, Nat.le_refl _, Nat.le_refl _⟩
  | succ n ih =>
    have hnext : w₀.lo ≤ lo + 1 := Nat.le_succ_of_le hlo
    obtain ⟨heq, hstart, hstop⟩ := ih hnext (by omega)
    rw [Layout.newlineRun, Layout.newlineRun, h.lexeme lo hlo (by omega)]
    cases L.lexemes[lo]? with
    | none => exact ⟨rfl, Nat.le_refl _, Nat.le_add_right _ _⟩
    | some l =>
      dsimp only
      split
      · exact ⟨heq, by omega, by omega⟩
      · exact ⟨rfl, Nat.le_refl _, Nat.le_add_right _ _⟩

theorem confined_skipNewlines : (skipNewlines L).Confined w₀ hi (skipNewlines L') := by
  refine confined_window_bind fun lo hw => ?_
  have hstop : lo + Window.length ⟨lo, hi⟩ = hi := Nat.add_sub_cancel' hw.valid
  obtain ⟨heq, hlo, hhi⟩ := newlineRun_inside h hw.start (Nat.le_trans (Nat.le_of_eq hstop) hw.stop)
  rw [heq]
  exact confined_jump (Nat.le_trans hw.start hlo) (Nat.le_trans hhi (Nat.le_of_eq hstop))

/-- Only the first and the last lexeme of what was read are looked at. -/
theorem confined_spanFrom {start : Nat} (hstart : w₀.lo ≤ start) :
    (spanFrom L start).Confined w₀ hi (spanFrom L' start) := by
  intro stop hw
  have hspan : L'.spanOf start stop = L.spanOf start stop := by
    rw [Layout.spanOf, Layout.spanOf]
    split
    · rfl
    · -- Something was read, so the lexeme before `stop` is inside of the window.
      have hhi := hw.valid
      have hhi₀ := hw.stop
      rw [h.lexeme start hstart (by omega), h.lexeme (stop - 1) (by omega) (by omega)]
  show Query.Confined w₀ _ (.done (Except.ok (L.spanOf start stop, stop)))
    (.done (Except.ok (L'.spanOf start stop, stop)))
  rw [hspan]
  exact .done hw

/-- What ends with the stretch of source that was read. -/
theorem confined_spanned {start : Nat} (hstart : w₀.lo ≤ start) (make : Span → α) :
    Rule.Confined w₀ hi (do return make (← spanFrom L start))
      (do return make (← spanFrom L' start)) :=
  confined_bind (confined_spanFrom h hstart) fun span => confined_pure (make span)

theorem confined_name : (name L).Confined w₀ hi (name L') := by
  refine confined_bind (confined_first h) fun l => ?_
  cases l.token with
  | ident text => exact confined_bind confined_advance fun _ => confined_pure _
  | _ => exact confined_fail (by simp)

/-! ## Sequences -/

/-- By induction on the rounds: each one reads an element of the window. -/
theorem confined_elements {close separator : Punct} {element element' : Rule α}
    (helement : element.Confined w₀ hi element') (rounds : Nat) :
    (elements L close separator element rounds).Confined w₀ hi
      (elements L' close separator element' rounds) := by
  induction rounds with
  | zero => exact confined_fail (by simp)
  | succ rounds ih =>
    refine confined_bind (confined_accept h _) fun closed => ?_
    cases closed with
    | true => exact confined_pure []
    | false =>
      refine confined_bind helement fun x => ?_
      refine confined_bind (confined_accept h _) fun _ => ?_
      exact confined_bind ih fun xs => confined_pure (x :: xs)

theorem confined_sequence {opening close separator : Punct} {element element' : Rule α}
    (helement : element.Confined w₀ hi element') :
    (sequence L opening close separator element).Confined w₀ hi
      (sequence L' opening close separator element') := by
  refine confined_bind (confined_expect h _) fun _ => ?_
  exact confined_sized (confined_elements h helement)

/-- By induction on the rounds: each one reads a statement of the window. -/
theorem confined_statements (rounds : Nat) :
    (statements L rounds).Confined w₀ hi (statements L' rounds) := by
  induction rounds with
  | zero => exact confined_fail (by simp)
  | succ rounds ih =>
    refine confined_bind (confined_skipNewlines h) fun _ => ?_
    refine confined_bind (confined_accept h _) fun closed => ?_
    cases closed with
    | true => exact confined_pure []
    | false =>
      refine confined_bind (confined_level _) fun s => ?_
      exact confined_bind ih fun rest => confined_pure (s :: rest)

theorem confined_body : (body L).Confined w₀ hi (body L') := by
  refine confined_bind (confined_expect h _) fun _ => ?_
  exact confined_sized (confined_statements h)

/-! ## Expressions -/

theorem confined_literal : (literal L).Confined w₀ hi (literal L') := by
  refine confined_bind (confined_first h) fun l => ?_
  cases l.token with
  | int _ | bool _ | char _ | str _ =>
    exact confined_bind confined_advance fun _ => confined_pure _
  | _ => exact confined_fail (by simp)

theorem confined_variableName : (variableName L).Confined w₀ hi (variableName L') :=
  confined_bind (confined_name h) fun _ => confined_pure _

theorem confined_element : (element L).Confined w₀ hi (element L') := by
  refine confined_here_bind fun start hstart => ?_
  refine confined_bind (confined_name h) fun base => ?_
  refine confined_bind (confined_expect h _) fun _ => ?_
  refine confined_bind (confined_level _) fun position => ?_
  refine confined_bind (confined_expect h _) fun _ => ?_
  exact confined_spanned h hstart fun span => (base, position, span)

theorem confined_index : (index L).Confined w₀ hi (index L') :=
  confined_bind (confined_element h) fun _ => confined_pure _

theorem confined_short : (short L).Confined w₀ hi (short L') := by
  refine confined_bind (confined_first h) fun l => ?_
  cases l.token with
  | int _ | bool _ | char _ | str _ => exact confined_literal h
  | ident _ => exact confined_orElse (confined_index h) (confined_variableName h)
  | _ => exact confined_fail (by simp)

theorem confined_sign (p : Punct) (make : Span → Expr → Expr) :
    Rule.Confined w₀ hi
      (do
        let start ← here
        let _ ← expect L (.symbol p)
        let e ← level .expr
        return make (← spanFrom L start) e)
      (do
        let start ← here
        let _ ← expect L' (.symbol p)
        let e ← level .expr
        return make (← spanFrom L' start) e) := by
  refine confined_here_bind fun start hstart => ?_
  refine confined_bind (confined_expect h _) fun _ => ?_
  refine confined_bind (confined_level _) fun e => ?_
  exact confined_spanned h hstart fun span => make span e

theorem confined_neg : (neg L).Confined w₀ hi (neg L') := confined_sign h .minus .neg

theorem confined_not : (not L).Confined w₀ hi (not L') := confined_sign h .bang .not

/-- An expression that fills an inner window is asked for there, and looked behind there. -/
theorem confined_wholeIn {p q : Nat} (hinner : w₀.Holds p q) (form : Form) :
    (wholeIn L ⟨p, q⟩ form).Confined w₀ hi (wholeIn L' ⟨p, q⟩ form) := by
  intro lo hw
  refine .ask hinner fun o ho => ?_
  cases o with
  | error e => exact .done ho
  | ok found =>
    -- The answer stopped inside of the inner window, so looking behind it is safe.
    simp only [Query.bind]
    rw [get?_inside h ho]
    cases Window.get? ⟨found.2, q⟩ L.lexemes 0 with
    | none => exact .done hw
    | some l => exact .done fun l' hl => by cases hl

/-- The cut is inside of the window, so both operands are. -/
theorem confined_binary (hL : L.Sound) (hw₀ : w₀.Within L.lexemes.size) (op : BinOp) :
    (binary L op).Confined w₀ hi (binary L' op) := by
  refine confined_window_bind fun lo hw => ?_
  rw [h.find _ _ _ hw]
  cases hfind : L.find? op.token ⟨lo, hi⟩ with
  | none => exact confined_fail (by simp)
  | some p =>
    obtain ⟨hlo, hhi, -⟩ := hL.find ⟨hw.valid, Nat.le_trans hw.stop hw₀.2⟩ hfind
    have hinner : w₀.Holds lo p := ⟨hw.start, hlo, Nat.le_trans (Nat.le_of_lt hhi) hw.stop⟩
    refine confined_bind (confined_wholeIn h hinner _) fun left => ?_
    refine confined_bind (confined_jump (Nat.le_succ_of_le (Nat.le_trans hw.start hlo)) hhi)
      fun _ => ?_
    refine confined_bind (confined_level _) fun right => ?_
    exact confined_spanned h hw.start fun span => Expr.binary span op left right

/-- The closing parenthesis is found at the same place. -/
theorem confined_parens (hL : L.Sound) (hw₀ : w₀.Within L.lexemes.size) :
    (parens L).Confined w₀ hi (parens L') := by
  refine confined_here_bind fun start hstart => ?_
  refine confined_bind (confined_expect h _) fun _ => ?_
  refine confined_window_bind fun lo hw => ?_
  rw [h.closing _ _ hw]
  cases hclosing : L.closing? ⟨lo, hi⟩ with
  | none => exact confined_fail (by simp)
  | some p =>
    obtain ⟨hlo, hhi⟩ := hL.closing ⟨hw.valid, Nat.le_trans hw.stop hw₀.2⟩ hclosing
    have hinner : w₀.Holds lo p := ⟨hw.start, hlo, Nat.le_trans (Nat.le_of_lt hhi) hw.stop⟩
    refine confined_bind (confined_wholeIn h hinner _) fun inner => ?_
    refine confined_bind (confined_jump (Nat.le_trans hw.start hlo) (Nat.le_of_lt hhi))
      fun _ => ?_
    refine confined_bind (confined_expect h _) fun _ => ?_
    exact confined_spanned h hstart fun span => Expr.parens span inner

/-- Alternatives are confined if each of them is. -/
theorem confined_firstOf (form : Form) (rules : List (Layout → Rule Expr))
    (hrules : ∀ r ∈ rules, (r L).Confined w₀ hi (r L')) :
    (firstOf L form (rules.map (· L))).Confined w₀ hi (firstOf L' form (rules.map (· L'))) := by
  refine confined_bind (confined_first h) fun l => ?_
  induction rules with
  | nil => exact confined_fail (by simp)
  | cons r rules ih =>
    obtain ⟨hr, hrest⟩ := List.forall_mem_cons.1 hrules
    exact confined_orElse hr (ih hrest)

theorem confined_math (hL : L.Sound) (hw₀ : w₀.Within L.lexemes.size) :
    (math L).Confined w₀ hi (math L') := by
  have hop : ∀ op, (binary L op).Confined w₀ hi (binary L' op) := confined_binary h hL hw₀
  apply confined_firstOf h .math [neg, not, (binary · .range), (binary · .sub), (binary · .add),
    (binary · .mul), (binary · .div), parens]
  simp only [List.forall_mem_cons]
  exact ⟨confined_neg h, confined_not h, hop _, hop _, hop _, hop _, hop _,
    confined_parens h hL hw₀, by simp⟩

theorem confined_comparison (hL : L.Sound) (hw₀ : w₀.Within L.lexemes.size) :
    (comparison L).Confined w₀ hi (comparison L') := by
  have hop : ∀ op, (binary L op).Confined w₀ hi (binary L' op) := confined_binary h hL hw₀
  apply confined_firstOf h .comparison [(binary · .and), (binary · .or), (binary · .less),
    (binary · .greater)]
  simp only [List.forall_mem_cons]
  exact ⟨hop _, hop _, hop _, hop _, by simp⟩

/-! ## Statements -/

theorem confined_assignment : (assignment L).Confined w₀ hi (assignment L') := by
  refine confined_bind (confined_name h) fun n => ?_
  refine confined_bind (confined_expect h _) fun _ => ?_
  exact confined_bind (confined_level _) fun value => confined_pure (n.text, value)

theorem confined_assign : (assign L).Confined w₀ hi (assign L') := by
  refine confined_here_bind fun start hstart => ?_
  refine confined_bind (confined_assignment h) fun found => ?_
  exact confined_spanned h hstart _

theorem confined_declaration {start : Nat} (hstart : w₀.lo ≤ start) (mutable : Bool) :
    (binding.declaration L start mutable).Confined w₀ hi
      (binding.declaration L' start mutable) := by
  refine confined_bind confined_advance fun _ => ?_
  refine confined_bind (confined_assignment h) fun found => ?_
  exact confined_spanned h hstart _

theorem confined_binding : (binding L).Confined w₀ hi (binding L') := by
  refine confined_here_bind fun start hstart => ?_
  refine confined_bind (confined_first h) fun l => ?_
  cases l.token with
  | keyword k =>
    cases k with
    | varKw => exact confined_declaration h hstart true
    | valKw => exact confined_declaration h hstart false
    | _ => exact confined_fail (by simp)
  | _ => exact confined_fail (by simp)

theorem confined_call : (call L).Confined w₀ hi (call L') := by
  refine confined_here_bind fun start hstart => ?_
  refine confined_bind (confined_name h) fun n => ?_
  refine confined_bind (confined_sequence h (confined_level _)) fun args => ?_
  exact confined_spanned h hstart _

theorem confined_store : (store L).Confined w₀ hi (store L') := by
  refine confined_here_bind fun start hstart => ?_
  refine confined_bind (confined_element h) fun found => ?_
  refine confined_bind (confined_expect h _) fun _ => ?_
  refine confined_bind (confined_level _) fun value => ?_
  exact confined_spanned h hstart _

theorem confined_otherwise : (otherwise L).Confined w₀ hi (otherwise L') := by
  refine confined_orElse ?_ (confined_body h)
  exact confined_bind (confined_level _) fun e => confined_pure [e]

theorem confined_branch : (branch L).Confined w₀ hi (branch L') := by
  refine confined_here_bind fun start hstart => ?_
  refine confined_bind (confined_expect h _) fun _ => ?_
  refine confined_bind (confined_expect h _) fun _ => ?_
  refine confined_bind (confined_level _) fun cond => ?_
  refine confined_bind (confined_expect h _) fun _ => ?_
  refine confined_bind (confined_body h) fun thenBody => ?_
  refine confined_bind (confined_nextIs h _) fun follows => ?_
  cases follows with
  | true =>
    refine confined_bind confined_advance fun _ => ?_
    refine confined_bind (confined_otherwise h) fun elseBody => ?_
    exact confined_spanned h hstart _
  | false => exact confined_spanned h hstart _

theorem confined_forIn : (forIn L).Confined w₀ hi (forIn L') := by
  refine confined_here_bind fun start hstart => ?_
  refine confined_bind (confined_expect h _) fun _ => ?_
  refine confined_bind (confined_expect h _) fun _ => ?_
  refine confined_bind (confined_name h) fun n => ?_
  refine confined_bind (confined_expect h _) fun _ => ?_
  refine confined_bind (confined_level _) fun iterable => ?_
  refine confined_bind (confined_expect h _) fun _ => ?_
  refine confined_bind (confined_body h) fun loopBody => ?_
  exact confined_spanned h hstart _

theorem confined_loop : (loop L).Confined w₀ hi (loop L') := by
  refine confined_here_bind fun start hstart => ?_
  refine confined_bind (confined_expect h _) fun _ => ?_
  refine confined_bind (confined_expect h _) fun _ => ?_
  refine confined_bind (confined_level _) fun cond => ?_
  refine confined_bind (confined_expect h _) fun _ => ?_
  refine confined_bind (confined_body h) fun loopBody => ?_
  exact confined_spanned h hstart _

theorem confined_ret : (ret L).Confined w₀ hi (ret L') := by
  refine confined_here_bind fun start hstart => ?_
  refine confined_bind (confined_expect h _) fun _ => ?_
  have hvalue : Rule.Confined w₀ hi (orElse (do return some (← level .expr)) (return none))
      (orElse (do return some (← level .expr)) (return none)) := by
    refine confined_orElse ?_ (confined_pure none)
    exact confined_bind (confined_level _) fun e => confined_pure (some e)
  refine confined_bind hvalue fun value? => ?_
  cases value? with
  | none => exact confined_spanned h hstart _
  | some value => exact confined_spanned h hstart _

theorem confined_control : (control L).Confined w₀ hi (control L') := by
  refine confined_bind (confined_first h) fun l => ?_
  cases l.token with
  | keyword k =>
    cases k with
    | ifKw => exact confined_branch h
    | forKw => exact confined_forIn h
    | whileKw => exact confined_loop h
    | returnKw => exact confined_ret h
    | _ => exact confined_fail (by simp)
  | _ => exact confined_fail (by simp)

theorem confined_top : (top L).Confined w₀ hi (top L') := by
  refine confined_bind (confined_first h) fun l => ?_
  cases l.token with
  | ident _ =>
    apply confined_firstOf h .top [assign, call, store]
    simp only [List.forall_mem_cons]
    exact ⟨confined_assign h, confined_call h, confined_store h, by simp⟩
  | keyword k =>
    cases k with
    | ifKw | forKw | whileKw | returnKw => exact confined_control h
    | varKw | valKw => exact confined_binding h
    | _ => exact confined_fail (by simp)
  | _ => exact confined_fail (by simp)

/-! ## Levels -/

omit h in
/-- The longer of two readings stops inside of the window as they do. -/
theorem longer_inside {best : Option (Expr × Nat)} {o : Outcome Expr}
    (hbest : ∀ found, best = some found → w₀.Holds found.2 hi) (ho : Outcome.Inside w₀ hi o) :
    ∀ found, longer best o = some found → w₀.Holds found.2 hi := by
  cases o with
  | error e => exact hbest
  | ok new =>
    cases best with
    | none => rintro _ ⟨⟩; exact ho
    | some b =>
      simp only [longer]
      split
      · rintro _ ⟨⟩; exact ho
      · exact hbest

omit h in
/-- The levels are tried on one window, and the longest reading ends inside of it. -/
theorem confined_longest (levels : List Level) {best : Option (Expr × Nat)} {lo : Nat}
    (hw : w₀.Holds lo hi) (hbest : ∀ found, best = some found → w₀.Holds found.2 hi) :
    (longest levels best ⟨lo, hi⟩).Confined w₀
      (fun found? => ∀ found, found? = some found → w₀.Holds found.2 hi)
      (longest levels best ⟨lo, hi⟩) := by
  induction levels generalizing best with
  | nil => exact .done hbest
  | cons l levels ih => exact .ask hw fun o ho => ih (longer_inside hbest ho)

theorem confined_expr : (expr L).Confined w₀ hi (expr L') := by
  refine confined_bind (confined_first h) fun l lo hw => ?_
  refine (confined_longest _ hw (by simp)).bind fun found? hfound => ?_
  cases found? with
  | none => exact .done fun l' hl => by cases hl
  | some found => exact .done (hfound found rfl)

/-- The rule of every level is confined to the window that it is asked for. -/
theorem confined_ofLevel (hL : L.Sound) (hw₀ : w₀.Within L.lexemes.size) (l : Level) :
    (ofLevel L l).Confined w₀ hi (ofLevel L' l) := by
  cases l with
  | expr => exact confined_expr h
  | top => exact confined_top h
  | math => exact confined_math h hL hw₀
  | comparison => exact confined_comparison h hL hw₀
  | short => exact confined_short h

/-! ## Declarations -/

/-- By induction on how deep types may be nested. -/
theorem confined_typeWithin (depth : Nat) :
    (typeWithin L depth).Confined w₀ hi (typeWithin L' depth) := by
  induction depth with
  | zero => exact confined_fail (by simp)
  | succ depth ih =>
    refine confined_here_bind fun start hstart => ?_
    refine confined_bind (confined_name h) fun n => ?_
    refine confined_bind (confined_nextIs h _) fun follows => ?_
    cases follows with
    | true =>
      refine confined_bind (confined_sequence h ih) fun args => ?_
      exact confined_spanned h hstart _
    | false => exact confined_pure _

theorem confined_type : (type L).Confined w₀ hi (type L') :=
  confined_sized (confined_typeWithin h)

theorem confined_param : (param L).Confined w₀ hi (param L') := by
  refine confined_here_bind fun start hstart => ?_
  refine confined_bind (confined_name h) fun n => ?_
  refine confined_bind (confined_expect h _) fun _ => ?_
  refine confined_bind (confined_type h) fun t => ?_
  exact confined_spanned h hstart _

theorem confined_resultType : (resultType L).Confined w₀ hi (resultType L') := by
  refine confined_bind (confined_nextIs h _) fun follows => ?_
  cases follows with
  | true =>
    refine confined_bind confined_advance fun _ => ?_
    exact confined_bind (confined_type h) fun t => confined_pure (some t)
  | false => exact confined_pure none

theorem confined_function : (function L).Confined w₀ hi (function L') := by
  refine confined_here_bind fun start hstart => ?_
  refine confined_bind (confined_expect h _) fun _ => ?_
  refine confined_bind (confined_name h) fun n => ?_
  refine confined_bind (confined_sequence h (confined_param h)) fun params => ?_
  refine confined_bind (confined_resultType h) fun result => ?_
  refine confined_bind (confined_body h) fun statements => ?_
  exact confined_spanned h hstart _

/-- By induction on the rounds: each one reads a function of the window. -/
theorem confined_functions (rounds : Nat) :
    (functions L rounds).Confined w₀ hi (functions L' rounds) := by
  induction rounds with
  | zero => exact confined_fail (by simp)
  | succ rounds ih =>
    refine confined_bind (confined_skipNewlines h) fun _ => ?_
    refine confined_bind (confined_peek? h) fun next? => ?_
    cases next? with
    | none => exact confined_pure []
    | some _ =>
      refine confined_bind (confined_function h) fun f => ?_
      exact confined_bind ih fun fs => confined_pure (f :: fs)

theorem confined_program : (program L).Confined w₀ hi (program L') := by
  refine confined_here_bind fun start hstart => ?_
  refine confined_bind (confined_sized (confined_functions h)) fun fs => ?_
  exact confined_spanned h hstart _

end

end Grammar

/-! ## Outcomes -/

section

variable {L L' : Layout} (h : L.SameInside L' w₀) (hL : L.Sound) (hw₀ : w₀.Within L.lexemes.size)

include h hL hw₀

/-- Every production looks at its window alone. -/
theorem Production.confined_rule (p : Production) {hi : Nat} :
    (p.rule L).Confined w₀ hi (p.rule L') := by
  have hwrap : ∀ {α : Type} {r r' : Rule α} (make : α → Fragment), r.Confined w₀ hi r' →
      Rule.Confined w₀ hi (do return make (← r)) (do return make (← r')) :=
    fun make hr => Rule.confined_bind hr fun a => Rule.confined_pure (make a)
  cases p with
  | program => exact hwrap _ (Grammar.confined_program h)
  | function => exact hwrap _ (Grammar.confined_function h)
  | param => exact hwrap _ (Grammar.confined_param h)
  | type => exact hwrap _ (Grammar.confined_type h)
  | body => exact hwrap _ (Grammar.confined_body h)
  | expr | top | math | comparison | short => exact hwrap _ (Rule.confined_level _)
  | control => exact hwrap _ (Grammar.confined_control h)
  | binding => exact hwrap _ (Grammar.confined_binding h)
  | assign => exact hwrap _ (Grammar.confined_assign h)
  | call => exact hwrap _ (Grammar.confined_call h)
  | store => exact hwrap _ (Grammar.confined_store h)
  | branch => exact hwrap _ (Grammar.confined_branch h)
  | forIn => exact hwrap _ (Grammar.confined_forIn h)
  | loop => exact hwrap _ (Grammar.confined_loop h)
  | ret => exact hwrap _ (Grammar.confined_ret h)
  | neg => exact hwrap _ (Grammar.confined_neg h)
  | not => exact hwrap _ (Grammar.confined_not h)
  | parens => exact hwrap _ (Grammar.confined_parens h hL hw₀)
  | literal => exact hwrap _ (Grammar.confined_literal h)
  | variableName => exact hwrap _ (Grammar.confined_variableName h)
  | index => exact hwrap _ (Grammar.confined_index h)
  | operation op => exact hwrap _ (Grammar.confined_binary h hL hw₀ op)

/-- A goal inside of the window has the same outcome on either layout, and it stops inside. -/
theorem Goal.solve_inside (depth : Nat) (g : Goal) (hg : w₀.Holds g.window.lo g.window.hi) :
    g.solve L' depth = g.solve L depth ∧
      ∀ o, g.solve L depth = some o → Outcome.Inside w₀ g.window.hi o := by
  -- A rule asks inside of the window only, one level of depth less.
  induction depth generalizing g with
  | zero => exact ⟨rfl, fun o ho => by cases ho⟩
  | succ depth ih => exact (Grammar.confined_ofLevel h hL hw₀ g.level _ hg).run ih

/-- A rule that looks at its window alone has the same outcome on either layout. -/
theorem Rule.Confined.outcome?_eq {r r' : Rule α} {lo hi : Nat} (hr : r.Confined w₀ hi r')
    (hw : w₀.Holds lo hi) (depth : Nat) :
    r'.outcome? L' depth ⟨lo, hi⟩ = r.outcome? L depth ⟨lo, hi⟩ ∧
      ∀ o, r.outcome? L depth ⟨lo, hi⟩ = some o → Outcome.Inside w₀ hi o :=
  (hr lo hw).run (Goal.solve_inside h hL hw₀ depth)

end

end Scriptlet
