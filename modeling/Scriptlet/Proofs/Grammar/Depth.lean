import Scriptlet.Proofs.Grammar.Accounts

/-!
# Reading with a bound on the depth

How deep questions may be nested decides whether a program is read at all, not what is read:
`Program.ofLexemes_of_some`.  With a table this takes an argument.  An answer that is looked up may
have been worked out at another depth, so what is found with a table and a bound is found without a
table at some depth, not at the same one.
-/

namespace Scriptlet

variable {L : Layout} {α : Type}

/-- What `h` answers, given a correct table, is the outcome of the goal at some depth, and the table
stays correct. -/
def Goal.Backed (L : Layout) (h : Goal → Tabled (Outcome Expr)) : Prop :=
  ∀ g o T T', Table.Correct L T → h g T = some (o, T') →
    T'.Correct L ∧ ∃ d, g.solve L d = some o

theorem Query.run_of_backed {h : Goal → Tabled (Outcome Expr)} (hh : Goal.Backed L h) {q : Query α}
    {a : α} {T T' : Table} (hT : T.Correct L) (hq : q.run h T = some (a, T')) :
    T'.Correct L ∧ ∃ d, q.run (Goal.solve L d) = some a := by
  induction q generalizing T with
  | done b =>
    obtain ⟨rfl, rfl⟩ := Prod.mk.inj (Option.some.inj hq)
    exact ⟨hT, 0, rfl⟩
  | ask g resume ih =>
    have hask : (h g T).bind (fun found => (resume found.1).run h found.2) = some (a, T') := hq
    obtain ⟨⟨o, T₁⟩, ho, hrest⟩ := Option.bind_eq_some_iff.1 hask
    obtain ⟨hT₁, d, hd⟩ := hh g o T T₁ hT ho
    obtain ⟨hT', e, he⟩ := ih o hT₁ hrest
    -- The larger depth of the two is enough for both.
    refine ⟨hT', max d e, ?_⟩
    rw [run, Goal.solve_of_le (Nat.le_max_left d e) hd]
    exact Query.run_mono (fun _ _ => Goal.solve_of_le (Nat.le_max_right d e)) he

theorem Goal.backed_solveTabled (depth : Nat) : Goal.Backed L (Goal.solveTabled L depth) := by
  induction depth with
  | zero =>
    intro g o T T' hT h
    cases h
  | succ depth ih =>
    intro g o T T' hT h
    rw [Goal.solveTabled, Tabled.get_bind] at h
    cases hknown : T[g]? with
    | some known =>
      rw [hknown] at h
      obtain ⟨rfl, rfl⟩ := Prod.mk.inj (Option.some.inj h)
      exact ⟨hT, hT g _ hknown⟩
    | none =>
      rw [hknown] at h
      have hfound : ((Grammar.ofLevel L g.level g.window).run (Goal.solveTabled L depth) T).bind
          (fun found => some (found.1, found.2.insert g found.1)) = some (o, T') := h
      obtain ⟨⟨o', T₁⟩, ho, hinsert⟩ := Option.bind_eq_some_iff.1 hfound
      obtain ⟨rfl, rfl⟩ := Prod.mk.inj (Option.some.inj hinsert)
      obtain ⟨hT₁, d, hd⟩ := Query.run_of_backed ih hT ho
      have hsolve : g.solve L (d + 1) = some o' := hd
      exact ⟨hT₁.insert hsolve, d + 1, hsolve⟩

theorem Rule.outcome?_of_tabled {r : Rule α} {depth : Nat} {w : Window} {o : Outcome α}
    (h : (r.tabled L depth w).run' ∅ = some o) : ∃ d, r.outcome? L d w = some o := by
  have hrun : ((r w).run (Goal.solveTabled L depth) ∅).map Prod.fst = some o := h
  obtain ⟨⟨o', T⟩, ho, rfl⟩ := Option.map_eq_some_iff.1 hrun
  exact (Query.run_of_backed (Goal.backed_solveTabled depth) Table.correct_empty ho).2

theorem Rule.outcome?_of_le {r : Rule α} {d e : Nat} {w : Window} {o : Outcome α} (hde : d ≤ e)
    (h : r.outcome? L d w = some o) : r.outcome? L e w = some o :=
  Query.run_mono (fun _ _ => Goal.solve_of_le hde) h

namespace Program

/-- Where the depth is not exceeded, it does not matter. -/
theorem splitLexemes_of_some {depth : Nat} {lexemes : List Lexeme}
    {r : Except SyntaxError (Program × List Lexeme)} (h : splitLexemes? depth lexemes = some r) :
    splitLexemes lexemes = r := by
  obtain ⟨o, htabled, rfl⟩ := Option.map_eq_some_iff.1 h
  obtain ⟨d, hd⟩ := Rule.outcome?_of_tabled htabled
  obtain ⟨o', ho', -⟩ :=
    (spec_whole lexemes).exists_outcome (Layout.sound_indexed lexemes) (Nat.le_refl _)
  -- Both outcomes are the one at the larger depth.
  have hd' := Rule.outcome?_of_le (Nat.le_max_left d (wholeWindow lexemes).enoughDepth) hd
  have ho'' := Rule.outcome?_of_le (Nat.le_max_right d (wholeWindow lexemes).enoughDepth) ho'
  obtain rfl : o = o' := Option.some.inj (hd'.symm.trans ho'')
  exact splitLexemes_eq ho'

theorem ofLexemes_of_some {depth : Nat} {lexemes : List Lexeme} {r : Except SyntaxError Program}
    (h : ofLexemes? depth lexemes = some r) : ofLexemes lexemes = r := by
  obtain ⟨split, hsplit, rfl⟩ := Option.map_eq_some_iff.1 h
  rw [ofLexemes, splitLexemes_of_some hsplit]

/-- What the rule for programs reads at some depth is read at every larger one. -/
theorem ofLexemes?_of_outcome {d depth : Nat} (hd : d ≤ depth) {lexemes : List Lexeme}
    {o : Outcome Program}
    (ho : (Grammar.program (Layout.indexed lexemes)).outcome? (Layout.indexed lexemes) d
      (wholeWindow lexemes) = some o) :
    ofLexemes? depth lexemes =
      some ((o.map fun found => (found.1, lexemes.drop found.2)) >>= complete) := by
  have htabled := Rule.tabled_eq (Rule.outcome?_of_le hd ho)
  rw [wholeWindow] at htabled
  rw [ofLexemes?, splitLexemes?, htabled]
  rfl

/-- A program that prints one line, as it is read from a source. -/
def printsLine : Program where
  span := ⟨0, 21⟩
  functions := [⟨⟨0, 21⟩, "main", [], none, [.call ⟨11, 20⟩ "println" []]⟩]

/-- Whether this is that program, read from nine lexemes.  Programs cannot be compared by evaluation,
so the parts of it are. -/
def isPrintsLine : Option (Outcome Program) → Bool
  | some (.ok (⟨span, [⟨span', name, [], none, [.call span'' name' []]⟩]⟩, k)) =>
    span = ⟨0, 21⟩ && span' = ⟨0, 21⟩ && name = "main" && span'' = ⟨11, 20⟩ && name' = "println" &&
      k = 9
  | _ => false

theorem eq_of_isPrintsLine {o : Option (Outcome Program)} (h : isPrintsLine o = true) :
    o = some (.ok (printsLine, 9)) := by
  unfold isPrintsLine at h
  split at h
  · simp only [Bool.and_eq_true, decide_eq_true_eq] at h
    obtain ⟨⟨⟨⟨⟨rfl, rfl⟩, rfl⟩, rfl⟩, rfl⟩, rfl⟩ := h
    rfl
  · cases h

theorem ofLexemes?_printsLine {depth : Nat} (hdepth : 20 ≤ depth) :
    ofLexemes? depth (Scan.lexemes "fun main(){println()}") = some (.ok printsLine) := by
  have hread : isPrintsLine
      ((Grammar.program (Layout.indexed (Scan.lexemes "fun main(){println()}"))).outcome?
        (Layout.indexed (Scan.lexemes "fun main(){println()}")) 20
        (wholeWindow (Scan.lexemes "fun main(){println()}"))) = true := by decide +kernel
  rw [ofLexemes?_of_outcome hdepth (eq_of_isPrintsLine hread)]
  rfl

theorem ofSource_printsLine : Program.ofSource "fun main(){println()}" = .ok printsLine :=
  ofLexemes_of_some (ofLexemes?_printsLine (Nat.le_refl 20))

end Program

end Scriptlet
