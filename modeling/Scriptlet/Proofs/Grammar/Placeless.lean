import Mathlib.Data.List.Forall2
import Scriptlet.Pipeline
import Scriptlet.Proofs.Grammar.Accounts
import Scriptlet.Proofs.Grammar.Printable
import Scriptlet.Proofs.Token.LineEnds

/-!
# Reading looks at tokens alone

Lexemes carry their place and their text besides their token.  The rules copy places into the trees
that they build and into errors, and never look at them otherwise.  So lexemes with the same tokens
are read as the same program, up to spans, or both are refused: `Program.spanless_ofLexemes`.  In
particular it does not matter how lines end, where that does not change the tokens:
`Program.ofSource_unifyLineEnds`.

The argument is about the questions that a rule asks, not about their answers: with the lexemes of
either side a rule asks for the same goals, and from answers that differ in spans alone it goes on
alike (`Query.Same`).
-/

namespace Scriptlet

variable {α β γ δ : Type}

/-! ## The judgement -/

/-- Both are results that end at the same lexeme and look the same under `f`, or both are errors. -/
inductive Outcome.Same (f : α → γ) : Outcome α → Outcome α → Prop
  | ok {a b : α} {k : Nat} : f a = f b → Same f (.ok (a, k)) (.ok (b, k))
  | error {e e' : SyntaxError} : Same f (.error e) (.error e')

/-- Both computations ask the same goals, go on alike from answers that differ in spans alone, and
end with results as `R` says. -/
inductive Query.Same (R : α → α → Prop) : Query α → Query α → Prop
  | done {a b : α} : R a b → Same R (.done a) (.done b)
  | ask {goal : Goal} {resume resume' : Outcome Expr → Query α} :
      (∀ o o', Outcome.Same Expr.spanless o o' → Same R (resume o) (resume' o')) →
      Same R (.ask goal resume) (.ask goal resume')

/-- On every window both rules go on alike, and their results look the same under `f`. -/
def Rule.Same (f : α → γ) (r r' : Rule α) : Prop := ∀ w, (r w).Same (Outcome.Same f) (r' w)

/-- The same tokens, and the same places found by searches. -/
structure Layout.SameTokens (L L' : Layout) : Prop where
  token : ∀ i : Nat, L.lexemes[i]?.map Lexeme.token = L'.lexemes[i]?.map Lexeme.token
  closing? : L.closing? = L'.closing?
  find? : L.find? = L'.find?

/-- Computations that go on alike are followed by computations that go on alike. -/
theorem Query.Same.bind {R : α → α → Prop} {S : β → β → Prop} {q q' : Query α}
    {f f' : α → Query β} (h : q.Same R q') (hf : ∀ a b, R a b → (f a).Same S (f' b)) :
    (q.bind f).Same S (q'.bind f') := by
  induction h with
  | done hR => exact hf _ _ hR
  | ask _ ih => exact .ask ih

/-- Computations that go on alike have results alike, if their questions are answered alike. -/
theorem Query.Same.run {R : α → α → Prop} {q q' : Query α}
    {answer answer' : Goal → Option (Outcome Expr)} (h : q.Same R q')
    (hanswer : ∀ g, Option.Rel (Outcome.Same Expr.spanless) (answer g) (answer' g)) :
    Option.Rel R (q.run answer) (q'.run answer') := by
  induction h with
  | done hR => exact .some hR
  | @ask goal resume resume' _ ih =>
    have hgoal := hanswer goal
    rw [Query.run, Query.run]
    generalize answer goal = o at hgoal
    generalize answer' goal = o' at hgoal
    cases hgoal with
    | none => exact .none
    | some hsame => exact ih _ _ hsame

/-- Options that look the same under `f` are both empty, or what they hold looks the same. -/
theorem rel_of_map_eq {f : α → γ} {o o' : Option α} (h : o.map f = o'.map f) :
    Option.Rel (fun a b => f a = f b) o o' := by
  cases o with
  | none =>
    cases o' with
    | none => exact .none
    | some b => cases h
  | some a =>
    cases o' with
    | none => cases h
    | some b => exact .some (Option.some.inj h)

/-- A reading without the places in it. -/
def placelessReading (found : Expr × Nat) : Expr × Nat := (found.1.spanless, found.2)

namespace Rule

variable {f : α → γ} {g : β → δ} {r r' s s' : Rule α}

/-- What follows has to go on alike only from results that look the same. -/
theorem same_bind {k k' : α → Rule β} (h : Same f r r')
    (hk : ∀ a b, f a = f b → Same g (k a) (k' b)) : Same g (r >>= k) (r' >>= k') := by
  intro w
  refine (h w).bind ?_
  intro o o' ho
  cases ho with
  | ok hab => exact hk _ _ hab _
  | error => exact .done .error

theorem same_pure {a b : α} (h : f a = f b) : Same f (pure a) (pure b) := fun _ => .done (.ok h)

theorem same_fail {e e' : SyntaxError} : Same f (fail e) (fail e') := fun _ => .done .error

/-- Both first rules read or both fail, so both sides go on with the same rule. -/
theorem same_orElse (hr : Same f r r') (hs : Same f s s') :
    Same f (orElse r s) (orElse r' s') := by
  intro w
  refine (hr w).bind ?_
  intro o o' ho
  cases ho with
  | ok hab => exact .done (.ok hab)
  | error => exact hs w

theorem same_here : Same id here here := fun _ => .done (.ok rfl)

theorem same_window : Same id window window := fun _ => .done (.ok rfl)

theorem same_jump (lo : Nat) : Same id (jump lo) (jump lo) := fun _ => .done (.ok rfl)

/-- An expression of a level is one question, and its answers differ in spans alone. -/
theorem same_level (l : Level) : Same Expr.spanless (level l) (level l) :=
  fun _ => .ask fun _ _ ho => .done ho

theorem same_exprIn (inner : Window) : Same placelessReading (exprIn inner) (exprIn inner) := by
  intro w
  refine .ask fun o o' ho => ?_
  cases ho with
  | ok he => exact .done (.ok (Prod.ext he rfl))
  | error => exact .done .error

theorem same_sized {r r' : Nat → Rule α} (h : ∀ rounds, Same f (r rounds) (r' rounds)) :
    Same f (sized r) (sized r') := fun w => h _ w

end Rule

namespace Grammar

open Rule

/-- The parts of an element without their places. -/
def placelessElement (found : Name × Expr × Span) : Name × Expr :=
  (found.1.spanless, found.2.1.spanless)

section

variable {L L' : Layout} (h : L.SameTokens L')

include h

/-! ## Single tokens -/

/-- The lexeme at a place of a window is missing on both sides, or has the same token on both. -/
theorem get?_same (w : Window) (i : Nat) :
    (w.get? L.lexemes i).map Lexeme.token = (w.get? L'.lexemes i).map Lexeme.token := by
  rw [Window.get?, Window.get?]
  split
  · exact h.token _
  · rfl

theorem same_first : Same Lexeme.token (first L) (first L') := by
  intro w
  have hget := rel_of_map_eq (get?_same h w 0)
  rw [first, first, Window.first, Window.first]
  generalize w.get? L.lexemes 0 = o at hget
  generalize w.get? L'.lexemes 0 = o' at hget
  cases hget with
  | none => exact .done .error
  | some hl => exact .done (.ok hl)

theorem same_peek? : Same (Option.map Lexeme.token) (peek? L) (peek? L') :=
  fun w => .done (.ok (get?_same h w 0))

omit h in
theorem same_advance : Same id advance advance := fun _ => .done (.ok rfl)

/-- A token that is waited for comes on both sides or on none. -/
theorem same_expect (x : Expected) : Same Lexeme.token (expect L x) (expect L' x) := by
  refine same_bind (same_first h) fun l l' hl => ?_
  rw [hl]
  split
  · refine same_bind same_advance fun _ _ _ => ?_
    exact same_pure hl
  · exact same_fail

/-- A symbol is read on both sides or left standing on both. -/
theorem same_accept (x : Expected) : Same id (accept L x) (accept L' x) := by
  refine same_bind (same_first h) fun l l' hl => ?_
  rw [hl]
  split
  · refine same_bind same_advance fun _ _ _ => ?_
    exact same_pure rfl
  · exact same_pure rfl

theorem same_nextIs (x : Expected) : Same id (nextIs L x) (nextIs L' x) := by
  refine same_bind (same_peek? h) fun o o' ho => ?_
  cases rel_of_map_eq ho with
  | none => exact same_pure rfl
  | some hl => exact same_pure (by rw [hl])

/-- As many line ends are passed over. -/
theorem newlineRun_same (n lo : Nat) : L.newlineRun n lo = L'.newlineRun n lo := by
  induction n generalizing lo with
  | zero => rfl
  | succ n ih =>
    have htoken := rel_of_map_eq (h.token lo)
    rw [Layout.newlineRun, Layout.newlineRun]
    generalize L.lexemes[lo]? = o at htoken
    generalize L'.lexemes[lo]? = o' at htoken
    cases htoken with
    | none => rfl
    | some hl => simp only [hl, ih]

theorem same_skipNewlines : Same id (skipNewlines L) (skipNewlines L') := by
  refine same_bind same_window fun w _ hw => ?_
  obtain rfl := hw
  rw [newlineRun_same h]
  exact same_jump _

omit h in
/-- Places do not count. -/
theorem same_spanFrom (start start' : Nat) :
    Same (fun _ : Span => ()) (spanFrom L start) (spanFrom L' start') :=
  same_bind same_here fun _ _ _ => same_pure rfl

theorem same_name : Same Name.text (name L) (name L') := by
  refine same_bind (same_first h) fun l l' hl => ?_
  rw [hl]
  cases l'.token with
  | ident text =>
    refine same_bind same_advance fun _ _ _ => ?_
    exact same_pure rfl
  | _ => exact same_fail

/-! ## Sequences -/

/-- The elements of a list look the same one by one, and the list ends at the same token. -/
theorem same_elements {f : α → γ} {close separator : Punct} {element element' : Rule α}
    (helement : Same f element element') (rounds : Nat) :
    Same (List.map f) (elements L close separator element rounds)
      (elements L' close separator element' rounds) := by
  induction rounds with
  | zero => exact same_fail
  | succ rounds ih =>
    refine same_bind (same_accept h _) fun closed _ hclosed => ?_
    obtain rfl : closed = _ := hclosed
    cases closed with
    | true => exact same_pure rfl
    | false =>
      refine same_bind helement fun x x' hx => ?_
      refine same_bind (same_accept h _) fun _ _ _ => ?_
      refine same_bind ih fun xs xs' hxs => ?_
      exact same_pure (by rw [List.map_cons, List.map_cons, hx, hxs])

theorem same_sequence {f : α → γ} {opening close separator : Punct} {element element' : Rule α}
    (helement : Same f element element') :
    Same (List.map f) (sequence L opening close separator element)
      (sequence L' opening close separator element') := by
  refine same_bind (same_expect h _) fun _ _ _ => ?_
  exact same_sized fun rounds => same_elements h helement rounds

/-- The statements of a body look the same one by one. -/
theorem same_statements (rounds : Nat) :
    Same (List.map Expr.spanless) (statements L rounds) (statements L' rounds) := by
  induction rounds with
  | zero => exact same_fail
  | succ rounds ih =>
    refine same_bind (same_skipNewlines h) fun _ _ _ => ?_
    refine same_bind (same_accept h _) fun closed _ hclosed => ?_
    obtain rfl : closed = _ := hclosed
    cases closed with
    | true => exact same_pure rfl
    | false =>
      refine same_bind (same_level _) fun s s' hs => ?_
      refine same_bind ih fun rest rest' hrest => ?_
      exact same_pure (by rw [List.map_cons, List.map_cons, hs, hrest])

theorem same_body : Same (List.map Expr.spanless) (body L) (body L') := by
  refine same_bind (same_expect h _) fun _ _ _ => ?_
  exact same_sized (same_statements h)

/-! ## Expressions -/

theorem same_literal : Same Expr.spanless (literal L) (literal L') := by
  refine same_bind (same_first h) fun l l' hl => ?_
  rw [hl]
  cases l'.token with
  | int _ | bool _ | char _ | str _ => exact same_bind same_advance fun _ _ _ => same_pure rfl
  | _ => exact same_fail

theorem same_variableName : Same Expr.spanless (variableName L) (variableName L') := by
  refine same_bind (same_name h) fun n n' hn => ?_
  exact same_pure (by rw [Expr.spanless, Expr.spanless, hn])

theorem same_element : Same placelessElement (element L) (element L') := by
  refine same_bind same_here fun _ _ _ => ?_
  refine same_bind (same_name h) fun base base' hbase => ?_
  refine same_bind (same_expect h _) fun _ _ _ => ?_
  refine same_bind (same_level _) fun position position' hposition => ?_
  refine same_bind (same_expect h _) fun _ _ _ => ?_
  refine same_bind (same_spanFrom _ _) fun _ _ _ => ?_
  exact same_pure (by simp only [placelessElement, Name.spanless, hbase, hposition])

theorem same_index : Same Expr.spanless (index L) (index L') := by
  refine same_bind (same_element h) fun found found' hfound => ?_
  obtain ⟨hbase, hposition⟩ := Prod.mk.inj hfound
  exact same_pure (by rw [Expr.spanless, Expr.spanless, hbase, hposition])

theorem same_short : Same Expr.spanless (short L) (short L') := by
  refine same_bind (same_first h) fun l l' hl => ?_
  rw [hl]
  cases l'.token with
  | int _ | bool _ | char _ | str _ => exact same_literal h
  | ident _ => exact same_orElse (same_index h) (same_variableName h)
  | _ => exact same_fail

/-- The rules for the two signs differ in the token and in the node that they make. -/
theorem same_sign {p : Punct} {make : Span → Expr → Expr}
    (hmake : ∀ span span' e e', e.spanless = e'.spanless →
      (make span e).spanless = (make span' e').spanless) :
    Same Expr.spanless
      (do
        let start ← here
        let _ ← expect L (.symbol p)
        let e ← level .expr
        return make (← spanFrom L start) e)
      (do
        let start ← here
        let _ ← expect L' (.symbol p)
        let e ← level .expr
        return make (← spanFrom L' start) e) := by
  refine same_bind same_here fun _ _ _ => ?_
  refine same_bind (same_expect h _) fun _ _ _ => ?_
  refine same_bind (same_level _) fun e e' he => ?_
  refine same_bind (same_spanFrom _ _) fun span span' _ => ?_
  exact same_pure (hmake span span' e e' he)

theorem same_neg : Same Expr.spanless (neg L) (neg L') :=
  same_sign h fun _ _ _ _ he => by rw [Expr.spanless, Expr.spanless, he]

theorem same_not : Same Expr.spanless (not L) (not L') :=
  same_sign h fun _ _ _ _ he => by rw [Expr.spanless, Expr.spanless, he]

/-- A lexeme is left over on both sides or on none. -/
theorem same_wholeIn (inner : Window) (form : Form) :
    Same Expr.spanless (wholeIn L inner form) (wholeIn L' inner form) := by
  refine same_bind (same_exprIn inner) fun ⟨e, rest⟩ ⟨e', rest'⟩ hfound => ?_
  obtain ⟨he, rfl⟩ := Prod.mk.inj hfound
  have hget := rel_of_map_eq (get?_same h ⟨rest, inner.hi⟩ 0)
  dsimp only
  generalize Window.get? ⟨rest, inner.hi⟩ L.lexemes 0 = o at hget
  generalize Window.get? ⟨rest, inner.hi⟩ L'.lexemes 0 = o' at hget
  cases hget with
  | none => exact same_pure he
  | some _ => exact same_fail

/-- The window is cut at the same lexeme. -/
theorem same_binary (op : BinOp) : Same Expr.spanless (binary L op) (binary L' op) := by
  refine same_bind same_window fun w _ hw => ?_
  obtain rfl : w = _ := hw
  rw [h.find?]
  cases L'.find? op.token w with
  | none => exact same_fail
  | some p =>
    refine same_bind (same_wholeIn h _ _) fun left left' hleft => ?_
    refine same_bind (same_jump _) fun _ _ _ => ?_
    refine same_bind (same_level _) fun right right' hright => ?_
    refine same_bind (same_spanFrom _ _) fun _ _ _ => ?_
    exact same_pure (by rw [Expr.spanless, Expr.spanless, hleft, hright])

/-- The closing parenthesis is found at the same lexeme. -/
theorem same_parens : Same Expr.spanless (parens L) (parens L') := by
  refine same_bind same_here fun _ _ _ => ?_
  refine same_bind (same_expect h _) fun _ _ _ => ?_
  refine same_bind same_window fun w _ hw => ?_
  obtain rfl : w = _ := hw
  rw [h.closing?]
  cases L'.closing? w with
  | none => exact same_fail
  | some p =>
    refine same_bind (same_wholeIn h _ _) fun inner inner' hinner => ?_
    refine same_bind (same_jump _) fun _ _ _ => ?_
    refine same_bind (same_expect h _) fun _ _ _ => ?_
    refine same_bind (same_spanFrom _ _) fun _ _ _ => ?_
    exact same_pure (by rw [Expr.spanless, Expr.spanless, hinner])

/-- Of two lists of rules the same one is the first to read. -/
theorem same_firstOf (form : Form) {rules rules' : List (Rule Expr)}
    (hrules : List.Forall₂ (Same Expr.spanless) rules rules') :
    Same Expr.spanless (firstOf L form rules) (firstOf L' form rules') := by
  refine same_bind (same_first h) fun l l' _ => ?_
  induction hrules with
  | nil => exact same_fail
  | cons hr _ ih => exact same_orElse hr ih

theorem same_math : Same Expr.spanless (math L) (math L') := by
  apply same_firstOf h
  exact .cons (same_neg h) (.cons (same_not h) (.cons (same_binary h _) (.cons (same_binary h _)
    (.cons (same_binary h _) (.cons (same_binary h _) (.cons (same_binary h _)
      (.cons (same_parens h) .nil)))))))

theorem same_comparison : Same Expr.spanless (comparison L) (comparison L') := by
  apply same_firstOf h
  exact .cons (same_binary h _) (.cons (same_binary h _) (.cons (same_binary h _)
    (.cons (same_binary h _) .nil)))

/-! ## Statements -/

theorem same_assignment :
    Same (fun found : String × Expr => (found.1, found.2.spanless)) (assignment L)
      (assignment L') := by
  refine same_bind (same_name h) fun n n' hn => ?_
  refine same_bind (same_expect h _) fun _ _ _ => ?_
  refine same_bind (same_level _) fun value value' hvalue => ?_
  exact same_pure (by rw [hn, hvalue])

theorem same_assign : Same Expr.spanless (assign L) (assign L') := by
  refine same_bind same_here fun _ _ _ => ?_
  refine same_bind (same_assignment h) fun ⟨n, value⟩ ⟨n', value'⟩ hfound => ?_
  obtain ⟨rfl, hvalue⟩ := Prod.mk.inj hfound
  refine same_bind (same_spanFrom _ _) fun _ _ _ => ?_
  exact same_pure (by rw [Expr.spanless, Expr.spanless, hvalue])

theorem same_declaration (start start' : Nat) (mutable : Bool) :
    Same Expr.spanless (binding.declaration L start mutable)
      (binding.declaration L' start' mutable) := by
  refine same_bind same_advance fun _ _ _ => ?_
  refine same_bind (same_assignment h) fun ⟨n, value⟩ ⟨n', value'⟩ hfound => ?_
  obtain ⟨rfl, hvalue⟩ := Prod.mk.inj hfound
  refine same_bind (same_spanFrom _ _) fun _ _ _ => ?_
  exact same_pure (by rw [Expr.spanless, Expr.spanless, hvalue])

theorem same_binding : Same Expr.spanless (binding L) (binding L') := by
  refine same_bind same_here fun _ _ _ => ?_
  refine same_bind (same_first h) fun l l' hl => ?_
  rw [hl]
  cases l'.token with
  | keyword k =>
    cases k with
    | varKw => exact same_declaration h _ _ true
    | valKw => exact same_declaration h _ _ false
    | _ => exact same_fail
  | _ => exact same_fail

theorem same_call : Same Expr.spanless (call L) (call L') := by
  refine same_bind same_here fun _ _ _ => ?_
  refine same_bind (same_name h) fun n n' hn => ?_
  refine same_bind (same_sequence h (same_level _)) fun args args' hargs => ?_
  refine same_bind (same_spanFrom _ _) fun _ _ _ => ?_
  exact same_pure (by simp only [Expr.spanless, Expr.spanlessAll_eq, hn, hargs])

theorem same_store : Same Expr.spanless (store L) (store L') := by
  refine same_bind same_here fun _ _ _ => ?_
  refine same_bind (same_element h) fun ⟨base, position, _⟩ ⟨base', position', _⟩ hfound => ?_
  obtain ⟨hbase, hposition⟩ := Prod.mk.inj hfound
  refine same_bind (same_expect h _) fun _ _ _ => ?_
  refine same_bind (same_level _) fun value value' hvalue => ?_
  refine same_bind (same_spanFrom _ _) fun _ _ _ => ?_
  exact same_pure (by rw [Expr.spanless, Expr.spanless, hbase, hposition, hvalue])

theorem same_otherwise : Same (List.map Expr.spanless) (otherwise L) (otherwise L') := by
  refine same_orElse ?_ (same_body h)
  refine same_bind (same_level _) fun e e' he => ?_
  exact same_pure (by rw [List.map_singleton, List.map_singleton, he])

/-- Both sides have an `else` or none has. -/
theorem same_branch : Same Expr.spanless (branch L) (branch L') := by
  refine same_bind same_here fun _ _ _ => ?_
  refine same_bind (same_expect h _) fun _ _ _ => ?_
  refine same_bind (same_expect h _) fun _ _ _ => ?_
  refine same_bind (same_level _) fun cond cond' hcond => ?_
  refine same_bind (same_expect h _) fun _ _ _ => ?_
  refine same_bind (same_body h) fun body body' hbody => ?_
  refine same_bind (same_nextIs h _) fun follows _ hfollows => ?_
  obtain rfl : follows = _ := hfollows
  cases follows with
  | true =>
    refine same_bind same_advance fun _ _ _ => ?_
    refine same_bind (same_otherwise h) fun other other' hother => ?_
    refine same_bind (same_spanFrom _ _) fun _ _ _ => ?_
    exact same_pure (by simp only [Expr.spanless, Expr.spanlessAll_eq, hcond, hbody, hother])
  | false =>
    refine same_bind (same_spanFrom _ _) fun _ _ _ => ?_
    exact same_pure (by simp only [Expr.spanless, Expr.spanlessAll_eq, hcond, hbody])

theorem same_forIn : Same Expr.spanless (forIn L) (forIn L') := by
  refine same_bind same_here fun _ _ _ => ?_
  refine same_bind (same_expect h _) fun _ _ _ => ?_
  refine same_bind (same_expect h _) fun _ _ _ => ?_
  refine same_bind (same_name h) fun n n' hn => ?_
  refine same_bind (same_expect h _) fun _ _ _ => ?_
  refine same_bind (same_level _) fun iterable iterable' hiterable => ?_
  refine same_bind (same_expect h _) fun _ _ _ => ?_
  refine same_bind (same_body h) fun body body' hbody => ?_
  refine same_bind (same_spanFrom _ _) fun _ _ _ => ?_
  exact same_pure (by simp only [Expr.spanless, Expr.spanlessAll_eq, hn, hiterable, hbody])

theorem same_loop : Same Expr.spanless (loop L) (loop L') := by
  refine same_bind same_here fun _ _ _ => ?_
  refine same_bind (same_expect h _) fun _ _ _ => ?_
  refine same_bind (same_expect h _) fun _ _ _ => ?_
  refine same_bind (same_level _) fun cond cond' hcond => ?_
  refine same_bind (same_expect h _) fun _ _ _ => ?_
  refine same_bind (same_body h) fun body body' hbody => ?_
  refine same_bind (same_spanFrom _ _) fun _ _ _ => ?_
  exact same_pure (by simp only [Expr.spanless, Expr.spanlessAll_eq, hcond, hbody])

/-- A value is returned on both sides or on none. -/
theorem same_ret : Same Expr.spanless (ret L) (ret L') := by
  refine same_bind same_here fun _ _ _ => ?_
  refine same_bind (same_expect h _) fun _ _ _ => ?_
  have hvalue : Same (Option.map Expr.spanless)
      (orElse (do return some (← level .expr)) (return none))
      (orElse (do return some (← level .expr)) (return none)) := by
    refine same_orElse ?_ (same_pure rfl)
    refine same_bind (same_level _) fun e e' he => ?_
    exact same_pure (by rw [Option.map_some, Option.map_some, he])
  refine same_bind hvalue fun value value' hvalue => ?_
  cases rel_of_map_eq hvalue with
  | none => exact same_bind (same_spanFrom _ _) fun _ _ _ => same_pure rfl
  | some he =>
    refine same_bind (same_spanFrom _ _) fun _ _ _ => ?_
    exact same_pure (by rw [Expr.spanless, Expr.spanless, he])

theorem same_control : Same Expr.spanless (control L) (control L') := by
  refine same_bind (same_first h) fun l l' hl => ?_
  rw [hl]
  cases l'.token with
  | keyword k =>
    cases k with
    | ifKw => exact same_branch h
    | forKw => exact same_forIn h
    | whileKw => exact same_loop h
    | returnKw => exact same_ret h
    | _ => exact same_fail
  | _ => exact same_fail

/-- The next token picks the rules for a statement. -/
theorem same_top : Same Expr.spanless (top L) (top L') := by
  refine same_bind (same_first h) fun l l' hl => ?_
  rw [hl]
  cases l'.token with
  | ident _ =>
    apply same_firstOf h
    exact .cons (same_assign h) (.cons (same_call h) (.cons (same_store h) .nil))
  | keyword k =>
    cases k with
    | ifKw | forKw | whileKw | returnKw => exact same_control h
    | varKw | valKw => exact same_binding h
    | _ => exact same_fail
  | _ => exact same_fail

/-! ## Levels -/

omit h in
/-- Which of two readings is longer does not depend on places. -/
theorem longer_same {best best' : Option (Expr × Nat)} {o o' : Outcome Expr}
    (hbest : best.map placelessReading = best'.map placelessReading)
    (ho : Outcome.Same Expr.spanless o o') :
    (longer best o).map placelessReading = (longer best' o').map placelessReading := by
  cases ho with
  | error => exact hbest
  | @ok e e' k he =>
    cases rel_of_map_eq hbest with
    | none => exact congrArg some (Prod.ext he rfl)
    | some hfound =>
      simp only [longer]
      rw [(Prod.mk.inj hfound).2]
      split
      · exact congrArg some (Prod.ext he rfl)
      · exact hbest

omit h in
/-- The longest reading is picked on both sides at the same level. -/
theorem longest_same (levels : List Level) {best best' : Option (Expr × Nat)}
    (hbest : best.map placelessReading = best'.map placelessReading) (w : Window) :
    Query.Same (fun found found' => found.map placelessReading = found'.map placelessReading)
      (longest levels best w) (longest levels best' w) := by
  induction levels generalizing best best' with
  | nil => exact .done hbest
  | cons l levels ih => exact .ask fun o o' ho => ih (longer_same hbest ho)

/-- Every level is tried on both sides, and the same one reads furthest. -/
theorem same_expr : Same Expr.spanless (expr L) (expr L') := by
  refine same_bind (same_first h) fun l l' _ w => ?_
  -- Each level is asked for in turn, and the longest of the answers is kept.
  refine (longest_same _ rfl w).bind fun found found' hfound => ?_
  cases rel_of_map_eq hfound with
  | none => exact .done .error
  | @some found found' hsame =>
    obtain ⟨e, k⟩ := found
    obtain ⟨e', k'⟩ := found'
    obtain ⟨he, rfl⟩ := Prod.mk.inj hsame
    exact .done (.ok he)

/-- The rule that answers a question goes on alike. -/
theorem same_ofLevel (l : Level) : Same Expr.spanless (ofLevel L l) (ofLevel L' l) := by
  cases l with
  | expr => exact same_expr h
  | top => exact same_top h
  | math => exact same_math h
  | comparison => exact same_comparison h
  | short => exact same_short h

/-! ## Declarations -/

/-- Types are read alike however deep they are nested. -/
theorem same_typeWithin (depth : Nat) :
    Same TypeRef.spanless (typeWithin L depth) (typeWithin L' depth) := by
  induction depth with
  | zero => exact same_fail
  | succ depth ih =>
    refine same_bind same_here fun _ _ _ => ?_
    refine same_bind (same_name h) fun n n' hn => ?_
    refine same_bind (same_nextIs h _) fun follows _ hfollows => ?_
    obtain rfl : follows = _ := hfollows
    cases follows with
    | true =>
      refine same_bind (same_sequence h ih) fun args args' hargs => ?_
      refine same_bind (same_spanFrom _ _) fun _ _ _ => ?_
      exact same_pure (by simp only [TypeRef.spanless, TypeRef.spanlessAll_eq, hn, hargs])
    | false => exact same_pure (by rw [TypeRef.spanless, TypeRef.spanless, hn])

theorem same_type : Same TypeRef.spanless (type L) (type L') := same_sized (same_typeWithin h)

theorem same_param : Same Param.spanless (param L) (param L') := by
  refine same_bind same_here fun _ _ _ => ?_
  refine same_bind (same_name h) fun n n' hn => ?_
  refine same_bind (same_expect h _) fun _ _ _ => ?_
  refine same_bind (same_type h) fun t t' ht => ?_
  refine same_bind (same_spanFrom _ _) fun _ _ _ => ?_
  exact same_pure (by simp only [Param.spanless, hn, ht])

theorem same_resultType : Same (Option.map TypeRef.spanless) (resultType L) (resultType L') := by
  refine same_bind (same_nextIs h _) fun follows _ hfollows => ?_
  obtain rfl : follows = _ := hfollows
  cases follows with
  | true =>
    refine same_bind same_advance fun _ _ _ => ?_
    refine same_bind (same_type h) fun t t' ht => ?_
    exact same_pure (by rw [Option.map_some, Option.map_some, ht])
  | false => exact same_pure rfl

/-- Functions look the same: name, parameters, result type and body. -/
theorem same_function : Same Fun.spanless (function L) (function L') := by
  refine same_bind same_here fun _ _ _ => ?_
  refine same_bind (same_expect h _) fun _ _ _ => ?_
  refine same_bind (same_name h) fun n n' hn => ?_
  refine same_bind (same_sequence h (same_param h)) fun params params' hparams => ?_
  refine same_bind (same_resultType h) fun result result' hresult => ?_
  refine same_bind (same_body h) fun body body' hbody => ?_
  refine same_bind (same_spanFrom _ _) fun _ _ _ => ?_
  exact same_pure (by
    simp only [Fun.spanless, Expr.spanlessAll_eq, hn, hparams, hresult, hbody])

theorem same_functions (rounds : Nat) :
    Same (List.map Fun.spanless) (functions L rounds) (functions L' rounds) := by
  induction rounds with
  | zero => exact same_fail
  | succ rounds ih =>
    refine same_bind (same_skipNewlines h) fun _ _ _ => ?_
    refine same_bind (same_peek? h) fun next next' hnext => ?_
    cases rel_of_map_eq hnext with
    | none => exact same_pure rfl
    | some _ =>
      refine same_bind (same_function h) fun f f' hf => ?_
      refine same_bind ih fun fs fs' hfs => ?_
      exact same_pure (by rw [List.map_cons, List.map_cons, hf, hfs])

/-- Programs look the same, function by function. -/
theorem same_program : Same Program.spanless (program L) (program L') := by
  refine same_bind same_here fun _ _ _ => ?_
  refine same_bind (same_sized (same_functions h)) fun fs fs' hfs => ?_
  refine same_bind (same_spanFrom _ _) fun _ _ _ => ?_
  exact same_pure (by simp only [Program.spanless, hfs])

end

end Grammar

/-! ## Whole sources -/

section

variable {L L' : Layout} {lexemes lexemes' : List Lexeme}

/-- Questions have answers that differ in spans alone, at every depth. -/
theorem Goal.same_solve (h : L.SameTokens L') (depth : Nat) (g : Goal) :
    Option.Rel (Outcome.Same Expr.spanless) (g.solve L depth) (g.solve L' depth) := by
  induction depth generalizing g with
  | zero => exact .none
  | succ depth ih => exact (Grammar.same_ofLevel h g.level g.window).run ih

/-- Searches look at tokens alone, so lexemes with the same tokens have the same searches. -/
theorem Layout.sameTokens_indexed (h : lexemes.map Lexeme.token = lexemes'.map Lexeme.token) :
    (indexed lexemes).SameTokens (indexed lexemes') where
  token i := by
    have hget := congrArg (fun tokens => tokens[i]?) h
    simpa [indexed] using hget
  closing? := by simp only [indexed, h]
  find? := by simp only [indexed, h]

end

namespace Program

/-- Lexemes with the same tokens are read as the same program, up to spans, or both are refused. -/
theorem spanless_ofLexemes {lexemes lexemes' : List Lexeme}
    (h : lexemes.map Lexeme.token = lexemes'.map Lexeme.token) :
    (ofLexemes lexemes).toOption.map spanless = (ofLexemes lexemes').toOption.map spanless := by
  have hlayout := Layout.sameTokens_indexed h
  have hlength : lexemes.length = lexemes'.length := by
    simpa using congrArg List.length h
  obtain ⟨o, ho, -⟩ :=
    (spec_whole lexemes).exists_outcome (Layout.sound_indexed lexemes) (Nat.le_refl _)
  obtain ⟨o', ho', -⟩ :=
    (spec_whole lexemes').exists_outcome (Layout.sound_indexed lexemes') (Nat.le_refl _)
  have hsame : Outcome.Same spanless o o' := by
    have hwindow : wholeWindow lexemes' = wholeWindow lexemes := by
      rw [wholeWindow, wholeWindow, hlength]
    have hrel := (Grammar.same_program hlayout (wholeWindow lexemes)).run
      (Goal.same_solve hlayout (wholeWindow lexemes).enoughDepth)
    rw [← wholeWindow, Rule.outcome?] at ho ho'
    rw [hwindow] at ho'
    rw [ho, ho'] at hrel
    cases hrel with
    | some hsame => exact hsame
  rw [ofLexemes, ofLexemes, splitLexemes_eq ho, splitLexemes_eq ho']
  cases hsame with
  | error => rfl
  | @ok p p' k hp =>
    show (complete (p, lexemes.drop k)).toOption.map spanless =
      (complete (p', lexemes'.drop k)).toOption.map spanless
    by_cases hk : lexemes.length ≤ k
    · rw [List.drop_eq_nil_of_le hk, List.drop_eq_nil_of_le (hlength ▸ hk)]
      exact congrArg some hp
    · -- Something is left over on both sides.
      obtain ⟨l, rest, hrest⟩ := List.exists_cons_of_ne_nil (mt List.drop_eq_nil_iff.1 hk)
      obtain ⟨l', rest', hrest'⟩ :=
        List.exists_cons_of_ne_nil (mt List.drop_eq_nil_iff.1 (hlength ▸ hk))
      rw [hrest, hrest']
      rfl

/-! ## Line ends -/

/-- How lines end does not matter in a text without quotes, if no line comment goes on behind a line
end: the text with unified line ends has the same tokens, so it is the same program up to spans, or
neither is a program. -/
theorem ofSource_unifyLineEnds (source : String)
    (hquotes : '\'' ∉ source.toList ∧ '"' ∉ source.toList)
    (hends : ∀ l ∈ Scan.lexemes source, l.token = .newline → Text.lineEnds l.text.toList = 1) :
    let unified := String.ofList (Text.unifyLineEnds source.toList)
    (Scan.lexemes unified).map Lexeme.token = (Scan.lexemes source).map Lexeme.token ∧
      (ofSource unified).toOption.map spanless = (ofSource source).toOption.map spanless := by
  intro unified
  have htokens : (Scan.lexemes unified).map Lexeme.token =
      (Scan.lexemes source).map Lexeme.token := by
    rw [Scan.lexemes, String.toList_ofList]
    exact Scan.tokens_unifyLineEnds hquotes 0 0 hends
  exact ⟨htokens, spanless_ofLexemes htokens⟩

/-- Lines that end in each of the three ways, and comments that end with them. -/
def mixedEnds : String := "fun main() \x7b\r    f() // 1\r\n    /* \r */ g() // 2\n\x7d // 3\r"

theorem ofSource_unifyLineEnds_mixedEnds :
    ('\'' ∉ mixedEnds.toList ∧ '"' ∉ mixedEnds.toList) ∧
    (∀ l ∈ Scan.lexemes mixedEnds, l.token = .newline → Text.lineEnds l.text.toList = 1) ∧
    (Scan.lexemes (String.ofList (Text.unifyLineEnds mixedEnds.toList))).map Lexeme.token =
      (Scan.lexemes mixedEnds).map Lexeme.token := by
  have hquotes : '\'' ∉ mixedEnds.toList ∧ '"' ∉ mixedEnds.toList := by decide
  have hends : ∀ l ∈ Scan.lexemes mixedEnds, l.token = .newline →
      Text.lineEnds l.text.toList = 1 := by decide +kernel
  exact ⟨hquotes, hends, (ofSource_unifyLineEnds mixedEnds hquotes hends).1⟩

/-- A comment goes on to the next line feed, though a carriage return ends its line. -/
theorem tokens_commentGoesOn :
    (Scan.lexemes "// a\rb\nc").map Lexeme.token = [.newline, .ident "c"] ∧
    (Scan.lexemes (String.ofList (Text.unifyLineEnds "// a\rb\nc".toList))).map Lexeme.token =
      [.newline, .ident "b", .newline, .ident "c"] := by
  constructor <;> decide +kernel

end Program

end Scriptlet
