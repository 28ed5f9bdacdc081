import Std.Data.HashMap
import Scriptlet.Grammar.Nesting
import Scriptlet.Grammar.Rules

/-!
# Answering questions

Two ways to answer the questions that rules ask.  `Goal.solve` answers each question by running
the rule of its level.  `Goal.solveTabled` does the same but keeps every answer, also a failure,
in a table, so that no goal is worked out twice; it is what runs.

Both stop after a given depth of questions inside questions.
-/

namespace Scriptlet

/-- The layout whose searches use the parenthesis structure worked out in advance. -/
def Layout.indexed (lexemes : List Lexeme) : Layout :=
  let nesting := Nesting.ofTokens (lexemes.map Lexeme.token)
  { lexemes := lexemes.toArray
    closing? := nesting.closing?
    find? := nesting.find? }

/-! ## Without a table -/

/-- The outcome of a goal, unless questions are nested `depth` deep. -/
def Goal.solve (L : Layout) : (depth : Nat) → Goal → Option (Outcome Expr)
  | 0, _ => none
  | depth + 1, g => (Grammar.ofLevel L g.level g.window).run (solve L depth)

/-- An outcome does not change when more depth is given. -/
theorem Goal.solve_of_le {L : Layout} {d e : Nat} (hde : d ≤ e) {g : Goal} {o : Outcome Expr}
    (h : g.solve L d = some o) : g.solve L e = some o := by
  induction d generalizing e g o with
  | zero => simp [solve] at h
  | succ d ih =>
    obtain ⟨e, rfl⟩ : ∃ e', e = e' + 1 := ⟨e - 1, by omega⟩
    exact Query.run_mono (fun _ _ hg => ih (by omega) hg) h

/-- The outcome of a rule on a window, unless questions are nested `depth` deep. -/
def Rule.outcome? {α : Type} (L : Layout) (depth : Nat) (r : Rule α) (w : Window) :
    Option (Outcome α) :=
  (r w).run (Goal.solve L depth)

/-! ## With a table -/

/-- Goals with their outcomes. -/
abbrev Table := Std.HashMap Goal (Outcome Expr)

/-- Computations that keep a table, and that stop when questions are nested too deep. -/
abbrev Tabled := StateT Table Option

/-- The outcome of a goal, looked up or worked out and kept. -/
def Goal.solveTabled (L : Layout) : (depth : Nat) → Goal → Tabled (Outcome Expr)
  | 0, _ => fun _ => none
  | depth + 1, g => do
    match (← get)[g]? with
    | some known => return known
    | none =>
      let found ← (Grammar.ofLevel L g.level g.window).run (solveTabled L depth)
      modify (·.insert g found)
      return found

/-- The outcome of a rule on a window, with a table. -/
def Rule.tabled {α : Type} (L : Layout) (depth : Nat) (r : Rule α) (w : Window) :
    Tabled (Outcome α) :=
  (r w).run (Goal.solveTabled L depth)

end Scriptlet
