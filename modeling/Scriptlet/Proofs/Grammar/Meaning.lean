import Scriptlet.Proofs.Grammar.Solve

/-!
# What a rule reads

Every question has an answer, so a rule is a function from windows to outcomes: `Rule.eval`.
`Rule.Gets` and `Rule.Fails` say which outcome it is; a result is as a predicate says.  There is one
lemma for each way to make a rule from others, and one for each rule that reads a single token.
-/

namespace Scriptlet

variable {α β : Type} {L : Layout}

/-! ## Questions with answers -/

/-- Runs a computation whose questions all have an answer. -/
def Query.eval (answer : Goal → Outcome Expr) : Query α → α
  | done a => a
  | ask g resume => (resume (answer g)).eval answer

/-- Questions asked one after the other are answered one after the other. -/
theorem Query.eval_bind (answer : Goal → Outcome Expr) (q : Query α) (f : α → Query β) :
    (q.bind f).eval answer = (f (q.eval answer)).eval answer := by
  induction q with
  | done a => rfl
  | ask g resume ih => exact ih (answer g)

/-- The outcome of a goal. -/
def Goal.answer (L : Layout) (g : Goal) : Outcome Expr :=
  (g.solve L (g.size + 1)).getD (.error .endOfInput)

/-- A goal has an answer at every depth above its size, always the same one, and it keeps the
promise. -/
theorem Goal.answer_spec (hL : L.Sound) {g : Goal} (hg : g.window.Within L.lexemes.size)
    {depth : Nat} (hdepth : g.size < depth) :
    g.solve L depth = some (g.answer L) ∧ g.Good L (g.answer L) := by
  obtain ⟨o, ho, hgood⟩ := Goal.exists_solve hL hg (Nat.lt_succ_self g.size)
  have hanswer : g.answer L = o := by rw [answer, ho, Option.getD_some]
  rw [hanswer]
  exact ⟨Goal.solve_of_le hdepth ho, hgood⟩

/-- Running a computation is giving its questions their answers. -/
theorem Query.Sat.run_eq_eval {Asks : Goal → Prop} {Answers : Goal → Outcome Expr → Prop}
    {q : Query α} {P : α → Prop} {solve : Goal → Option (Outcome Expr)}
    {answer : Goal → Outcome Expr} (h : q.Sat Asks Answers P)
    (hanswer : ∀ g, Asks g → solve g = some (answer g) ∧ Answers g (answer g)) :
    q.run solve = some (q.eval answer) := by
  induction q with
  | done a => rfl
  | ask g resume ih =>
    obtain ⟨hsolve, hgood⟩ := hanswer g h.1
    have hrest := ih (answer g) (h.2 _ hgood)
    simp only [Query.run, Option.bind_eq_bind, hsolve, Option.bind_some, hrest, Query.eval]

/-! ## Rules as functions -/

/-- The outcome of a rule on a window. -/
def Rule.eval (L : Layout) (r : Rule α) (w : Window) : Outcome α := (r w).eval (Goal.answer L)

/-- A rule that keeps to its promise has this outcome at every depth that is enough for it. -/
theorem Rule.Spec.outcome_eq {r : Rule α} {N lo hi depth : Nat} {w₀ : Window}
    {P : α → Nat → Prop} (hL : L.Sound) (h : r.Spec L N w₀ lo hi P) (hdepth : N ≤ depth) :
    r.outcome? L depth ⟨lo, hi⟩ = some (r.eval L ⟨lo, hi⟩) := by
  refine Query.Sat.run_eq_eval h ?_
  rintro g ⟨hg, hsize⟩
  exact Goal.answer_spec hL hg (by omega)

/-- The outcome of a goal is the outcome of the rule of its level. -/
theorem Goal.answer_eq (hL : L.Sound) {l : Level} {lo hi : Nat} (hlo : lo ≤ hi)
    (hhi : hi ≤ L.lexemes.size) :
    Goal.answer L ⟨l, ⟨lo, hi⟩⟩ = (Grammar.ofLevel L l).eval L ⟨lo, hi⟩ := by
  have hg : Window.Within ⟨lo, hi⟩ L.lexemes.size := ⟨hlo, hhi⟩
  obtain ⟨hsolve, -⟩ := Goal.answer_spec hL (g := ⟨l, ⟨lo, hi⟩⟩) hg (Nat.lt_succ_self _)
  have hrule := (Grammar.spec_ofLevel hL (g := ⟨l, ⟨lo, hi⟩⟩) hg).outcome_eq hL (Nat.le_refl _)
  exact Option.some.inj (hsolve.symm.trans hrule)

namespace Rule

/-- On the lexemes from `lo` up to `hi` the rule gives a result as `P` says. -/
def Gets (L : Layout) (r : Rule α) (lo hi : Nat) (P : α → Nat → Prop) : Prop :=
  ∃ a k, r.eval L ⟨lo, hi⟩ = .ok (a, k) ∧ P a k

/-- On the lexemes from `lo` up to `hi` the rule gives an error. -/
def Fails (L : Layout) (r : Rule α) (lo hi : Nat) : Prop := ∃ e, r.eval L ⟨lo, hi⟩ = .error e

variable {lo hi : Nat} {P : α → Nat → Prop}

/-- The second rule starts where the first one stops; an error of the first one is the error. -/
theorem eval_bind (r : Rule α) (f : α → Rule β) (w : Window) :
    (r >>= f).eval L w =
      match r.eval L w with
      | .ok (a, k) => (f a).eval L ⟨k, w.hi⟩
      | .error e => .error e := by
  show ((r w).bind _).eval (Goal.answer L) = _
  rw [Query.eval_bind]
  show Query.eval (Goal.answer L) (match r.eval L w with
    | .ok (a, lo) => f a ⟨lo, w.hi⟩
    | .error e => .done (.error e)) = _
  cases r.eval L w <;> rfl

/-- What is got from one rule after the other is what the second one gets behind the first one. -/
theorem gets_bind {r : Rule α} {f : α → Rule β} {Q : β → Nat → Prop} (h : r.Gets L lo hi P)
    (hf : ∀ a k, P a k → (f a).Gets L k hi Q) : (r >>= f).Gets L lo hi Q := by
  obtain ⟨a, k, heval, hP⟩ := h
  obtain ⟨b, k', heval', hQ⟩ := hf a k hP
  exact ⟨b, k', by rw [eval_bind, heval]; exact heval', hQ⟩

theorem fails_bind_left {r : Rule α} {f : α → Rule β} (h : r.Fails L lo hi) :
    (r >>= f).Fails L lo hi := by
  obtain ⟨e, heval⟩ := h
  exact ⟨e, by rw [eval_bind, heval]⟩

/-- Wherever the first rule may stop, the second one fails. -/
theorem fails_bind_right {r : Rule α} {f : α → Rule β} (h : r.Gets L lo hi P)
    (hf : ∀ a k, P a k → (f a).Fails L k hi) : (r >>= f).Fails L lo hi := by
  obtain ⟨a, k, heval, hP⟩ := h
  obtain ⟨e, heval'⟩ := hf a k hP
  exact ⟨e, by rw [eval_bind, heval]; exact heval'⟩

theorem gets_pure {a : α} (h : P a lo) : (pure a : Rule α).Gets L lo hi P := ⟨a, lo, rfl, h⟩

theorem fails_fail (e : SyntaxError) : (fail e : Rule α).Fails L lo hi := ⟨e, rfl⟩

theorem Gets.imp {r : Rule α} {Q : α → Nat → Prop} (h : r.Gets L lo hi P)
    (hPQ : ∀ a k, P a k → Q a k) : r.Gets L lo hi Q := by
  obtain ⟨a, k, heval, hP⟩ := h
  exact ⟨a, k, heval, hPQ a k hP⟩

/-- The errors of the first rule are forgotten. -/
theorem eval_orElse (r s : Rule α) (w : Window) :
    (orElse r s).eval L w =
      match r.eval L w with
      | .ok found => .ok found
      | .error _ => s.eval L w := by
  show ((r w).bind _).eval (Goal.answer L) = _
  rw [Query.eval_bind]
  show Query.eval (Goal.answer L) (match r.eval L w with
    | .ok found => .done (.ok found)
    | .error _ => s w) = _
  cases r.eval L w <;> rfl

theorem gets_orElse_left {r s : Rule α} (h : r.Gets L lo hi P) : (orElse r s).Gets L lo hi P := by
  obtain ⟨a, k, heval, hP⟩ := h
  exact ⟨a, k, by rw [eval_orElse, heval], hP⟩

theorem eval_orElse_right {r s : Rule α} (h : r.Fails L lo hi) :
    (orElse r s).eval L ⟨lo, hi⟩ = s.eval L ⟨lo, hi⟩ := by
  obtain ⟨e, heval⟩ := h
  rw [eval_orElse, heval]

/-- The second rule is tried where the first one fails. -/
theorem gets_orElse_right {r s : Rule α} (hr : r.Fails L lo hi) (hs : s.Gets L lo hi P) :
    (orElse r s).Gets L lo hi P := by
  rwa [Gets, eval_orElse_right hr]

theorem fails_orElse {r s : Rule α} (hr : r.Fails L lo hi) (hs : s.Fails L lo hi) :
    (orElse r s).Fails L lo hi := by
  rwa [Fails, eval_orElse_right hr]

theorem gets_here : here.Gets L lo hi fun a k => a = lo ∧ k = lo := ⟨lo, lo, rfl, rfl, rfl⟩

theorem gets_window : window.Gets L lo hi fun a k => a = ⟨lo, hi⟩ ∧ k = lo :=
  ⟨⟨lo, hi⟩, lo, rfl, rfl, rfl⟩

theorem gets_jump (k : Nat) : (jump k).Gets L lo hi fun _ k' => k' = k := ⟨(), k, rfl, rfl⟩

theorem gets_sized {r : Nat → Rule α} (h : (r (hi - lo + 1)).Gets L lo hi P) :
    (sized r).Gets L lo hi P := h

theorem eval_level (l : Level) (w : Window) : (level l).eval L w = Goal.answer L ⟨l, w⟩ := rfl

/-- An expression is read in another window, and the place stays as it is. -/
theorem eval_exprIn (inner w : Window) :
    (exprIn inner).eval L w =
      match (level .expr).eval L inner with
      | .ok found => .ok (found, w.lo)
      | .error e => .error e := by
  rw [eval_level]
  simp only [eval, exprIn, Query.eval]
  cases Goal.answer L ⟨.expr, inner⟩ <;> rfl

theorem gets_exprIn {p q : Nat} {Q : Expr → Nat → Prop} (h : (level .expr).Gets L p q Q) :
    (exprIn ⟨p, q⟩).Gets L lo hi fun found k => k = lo ∧ Q found.1 found.2 := by
  obtain ⟨e, k, heval, hQ⟩ := h
  exact ⟨(e, k), lo, by rw [eval_exprIn, heval], rfl, hQ⟩

theorem fails_exprIn {p q : Nat} (h : (level .expr).Fails L p q) :
    (exprIn ⟨p, q⟩).Fails L lo hi := by
  obtain ⟨e, heval⟩ := h
  exact ⟨e, by rw [eval_exprIn, heval]⟩

end Rule

end Scriptlet
