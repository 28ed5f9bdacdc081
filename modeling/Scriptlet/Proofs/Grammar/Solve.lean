import Scriptlet.Grammar.Read
import Scriptlet.Proofs.Grammar.Yield

/-!
# Questions are answered

Every goal asks smaller goals only, so a depth above its size answers it; the answer is good.  A
table of answers changes nothing: what `Goal.solveTabled` gives is what `Goal.solve` gives.
-/

namespace Scriptlet

variable {α : Type} {L : Layout}

/-! ## Depth -/

theorem Window.lt_enoughDepth (w : Window) : 2 * (w.hi - w.lo) + 1 < w.enoughDepth := by
  rw [enoughDepth, length]
  omega

/-- No goal inside of a window needs more than enough depth. -/
theorem Goal.size_lt_enoughDepth {w : Window} {lo hi : Nat} (hw : w.Holds lo hi) (l : Level) :
    Goal.size ⟨l, ⟨lo, hi⟩⟩ < w.enoughDepth := by
  have hsize := Goal.size_le l lo hi
  have hdepth := w.lt_enoughDepth
  have hstart := hw.start
  have hstop := hw.stop
  omega

/-! ## Without a table -/

/-- A depth above the size of a goal answers it, and the answer is good. -/
theorem Goal.exists_solve (hL : L.Sound) {g : Goal} (hg : g.window.Within L.lexemes.size)
    {depth : Nat} (hdepth : g.size < depth) : ∃ o, g.solve L depth = some o ∧ g.Good L o := by
  induction depth generalizing g with
  | zero => omega
  | succ depth ih =>
    refine Query.Sat.run_some (Grammar.spec_ofLevel hL hg) ?_
    rintro g' ⟨hg', hsize⟩
    exact ih hg' (by omega)

/-- A goal has one outcome. -/
theorem Goal.solve_unique {g : Goal} {d e : Nat} {o o' : Outcome Expr}
    (h : g.solve L d = some o) (h' : g.solve L e = some o') : o = o' := by
  have hmax := Goal.solve_of_le (Nat.le_max_left d e) h
  have hmax' := Goal.solve_of_le (Nat.le_max_right d e) h'
  exact Option.some.inj (hmax.symm.trans hmax')

/-- A rule that keeps to its promise has an outcome as promised. -/
theorem Rule.Spec.exists_outcome {r : Rule α} {N lo hi depth : Nat} {w₀ : Window}
    {P : α → Nat → Prop} (hL : L.Sound) (h : r.Spec L N w₀ lo hi P) (hdepth : N ≤ depth) :
    ∃ o, r.outcome? L depth ⟨lo, hi⟩ = some o ∧ Outcome.Meets L w₀ P o := by
  refine Query.Sat.run_some h ?_
  rintro g ⟨hg, hsize⟩
  exact Goal.exists_solve hL hg (by omega)

/-! ## With a table -/

/-- Every outcome in the table is the outcome of its goal. -/
def Table.Correct (L : Layout) (T : Table) : Prop :=
  ∀ (g : Goal) (o : Outcome Expr), T[g]? = some o → ∃ depth, g.solve L depth = some o

theorem Table.correct_empty : Table.Correct L ∅ := by
  intro g o h
  simp at h

theorem Table.Correct.insert {T : Table} (hT : T.Correct L) {g : Goal} {o : Outcome Expr}
    {depth : Nat} (ho : g.solve L depth = some o) : Table.Correct L (T.insert g o) := by
  intro g' o' h
  rw [Std.HashMap.getElem?_insert] at h
  split at h
  · rename_i heq
    obtain rfl : g = g' := by simpa using heq
    obtain rfl : o = o' := Option.some.inj h
    exact ⟨depth, ho⟩
  · exact hT g' o' h

/-- `f` answers as `h` does, whatever correct table it is given, and leaves a correct table. -/
def Goal.Agree (L : Layout) (f : Goal → Option (Outcome Expr))
    (h : Goal → Tabled (Outcome Expr)) : Prop :=
  ∀ g o T, f g = some o → Table.Correct L T → ∃ T', h g T = some (o, T') ∧ T'.Correct L

/-- Computations whose questions are answered alike give the same result. -/
theorem Query.run_of_agree {f : Goal → Option (Outcome Expr)} {h : Goal → Tabled (Outcome Expr)}
    (hfh : Goal.Agree L f h) {q : Query α} {a : α} {T : Table} (hq : q.run f = some a)
    (hT : T.Correct L) : ∃ T', q.run h T = some (a, T') ∧ T'.Correct L := by
  induction q generalizing T with
  | done b =>
    obtain rfl : b = a := Option.some.inj hq
    exact ⟨T, rfl, hT⟩
  | ask g resume ih =>
    simp only [run, Option.bind_eq_bind, Option.bind_eq_some_iff] at hq
    obtain ⟨o, ho, hrest⟩ := hq
    obtain ⟨T₁, hT₁, hcorrect⟩ := hfh g o T ho hT
    obtain ⟨T₂, hT₂, hcorrect₂⟩ := ih o hrest hcorrect
    refine ⟨T₂, ?_, hcorrect₂⟩
    show (h g T).bind _ = _
    rw [hT₁]
    exact hT₂

theorem Tabled.get_bind (f : Table → Tabled α) (T : Table) : (get >>= f) T = f T T := rfl

/-- Looking answers up does not change them. -/
theorem Goal.agree_solveTabled (depth : Nat) :
    Goal.Agree L (Goal.solve L depth) (Goal.solveTabled L depth) := by
  induction depth with
  | zero =>
    intro g o T h
    cases h
  | succ depth ih =>
    intro g o T h hT
    cases hknown : T[g]? with
    | some known =>
      -- The table may have been filled at another depth, but a goal has one outcome only.
      obtain ⟨d, hd⟩ := hT g known hknown
      obtain rfl : known = o := Goal.solve_unique hd h
      refine ⟨T, ?_, hT⟩
      rw [Goal.solveTabled, Tabled.get_bind, hknown]
      rfl
    | none =>
      -- The goal is worked out as without a table, and its outcome is kept.
      obtain ⟨T', hrun, hT'⟩ := Query.run_of_agree ih h hT
      refine ⟨T'.insert g o, ?_, hT'.insert h⟩
      rw [Goal.solveTabled, Tabled.get_bind, hknown]
      show ((Grammar.ofLevel L g.level g.window).run (Goal.solveTabled L depth) T).bind _ = _
      rw [hrun]
      rfl

/-- A rule gives the same outcome with a table. -/
theorem Rule.tabled_eq {r : Rule α} {depth : Nat} {w : Window} {o : Outcome α}
    (h : r.outcome? L depth w = some o) : (r.tabled L depth w).run' ∅ = some o := by
  obtain ⟨T, hrun, -⟩ := Query.run_of_agree (Goal.agree_solveTabled depth) h Table.correct_empty
  show (((r w).run (Goal.solveTabled L depth) ∅).map Prod.fst : Option (Outcome α)) = some o
  rw [hrun]
  rfl

end Scriptlet
