import Scriptlet.Grammar.Window

/-!
# Rules as questions

A rule never calls another level of the grammar itself.  It is a `Query`: either finished, or a
question about another level on another window together with what to do with the answer.  Who
answers the questions is left open, so one set of rules can be run by plain recursion and by
recursion that looks answers up in a table.
-/

namespace Scriptlet

/-- The levels of the expression grammar. -/
inductive Level
  /-- An expression of any level. -/
  | expr
  /-- Statements and calls. -/
  | top
  /-- Signs, ranges, arithmetic and parentheses. -/
  | math
  /-- Connectives and comparisons. -/
  | comparison
  /-- Literals, variables and elements. -/
  | short
deriving DecidableEq, Hashable

/-- A question: read an expression of this level from the start of this window. -/
structure Goal where
  /-- The level to read. -/
  level : Level
  /-- The window to read from. -/
  window : Window
deriving DecidableEq, Hashable

/-- What reading gives: a result with the position behind what was read, or an error. -/
abbrev Outcome (α : Type) := Except SyntaxError (α × Nat)

/-- A computation that may ask for the outcomes of goals. -/
inductive Query (α : Type)
  /-- Finished with a result. -/
  | done (result : α)
  /-- Asks for the outcome of `goal` and goes on with it. -/
  | ask (goal : Goal) (resume : Outcome Expr → Query α)

namespace Query

variable {α β : Type}

/-- Goes on with `f` after `q` has finished. -/
def bind : Query α → (α → Query β) → Query β
  | done a, f => f a
  | ask g resume, f => ask g fun o => (resume o).bind f

instance : Monad Query where
  pure := done
  bind := bind

/-- Runs a computation, with `answer` to answer its questions. -/
def run {m : Type → Type} [Monad m] (answer : Goal → m (Outcome Expr)) : Query α → m α
  | done a => pure a
  | ask g resume => answer g >>= fun o => (resume o).run answer

/-- Running goes along with going on. -/
theorem run_bind {m : Type → Type} [Monad m] [LawfulMonad m] (answer : Goal → m (Outcome Expr))
    (q : Query α) (f : α → Query β) :
    (q.bind f).run answer = q.run answer >>= fun a => (f a).run answer := by
  induction q with
  | done a => simp [bind, run]
  | ask g resume ih => simp only [bind, run, bind_assoc, ih]

/-- Whoever knows more answers gives the same result. -/
theorem run_mono {f g : Goal → Option (Outcome Expr)}
    (h : ∀ goal o, f goal = some o → g goal = some o) {q : Query α} {a : α}
    (hq : q.run f = some a) : q.run g = some a := by
  induction q with
  | done b => exact hq
  | ask goal resume ih =>
    simp only [run, Option.bind_eq_bind, Option.bind_eq_some_iff] at hq ⊢
    obtain ⟨o, ho, ha⟩ := hq
    exact ⟨o, h goal o ho, ih o ha⟩

end Query

/-- A rule of the grammar: from a window to an outcome, by way of questions. -/
def Rule (α : Type) := Window → Query (Outcome α)

namespace Rule

variable {α β : Type}

/-- Reads nothing. -/
protected def pure (a : α) : Rule α := fun w => .done (.ok (a, w.lo))

/-- Reads with `r`, then with `f` from where `r` stopped. -/
protected def bind (r : Rule α) (f : α → Rule β) : Rule β := fun w =>
  (r w).bind fun
    | .ok (a, lo) => f a ⟨lo, w.hi⟩
    | .error e => .done (.error e)

instance : Monad Rule where
  pure := Rule.pure
  bind := Rule.bind

/-- Reads nothing and fails. -/
def fail (e : SyntaxError) : Rule α := fun _ => .done (.error e)

/-- Reads with `r`, or with `s` from the same place if `r` fails. -/
def orElse (r s : Rule α) : Rule α := fun w =>
  (r w).bind fun
    | .ok found => .done (.ok found)
    | .error _ => s w

/-- The number of the next lexeme. -/
def here : Rule Nat := fun w => .done (.ok (w.lo, w.lo))

/-- The window that is left. -/
def window : Rule Window := fun w => .done (.ok (w, w.lo))

/-- Goes on at lexeme number `lo`. -/
def jump (lo : Nat) : Rule Unit := fun _ => .done (.ok ((), lo))

/-- Reads an expression of the given level. -/
def level (l : Level) : Rule Expr := fun w => .ask ⟨l, w⟩ .done

/-- Reads an expression of any level from the window `inner`, without moving on. -/
def exprIn (inner : Window) : Rule (Expr × Nat) := fun w =>
  .ask ⟨.expr, inner⟩ fun
    | .ok found => .done (.ok (found, w.lo))
    | .error e => .done (.error e)

/-- A rule that is given one more than the number of lexemes left, as a bound on its rounds. -/
def sized (r : Nat → Rule α) : Rule α := fun w => r (w.length + 1) w

end Rule

end Scriptlet
