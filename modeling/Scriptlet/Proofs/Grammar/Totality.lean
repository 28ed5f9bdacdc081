import Scriptlet.Proofs.Grammar.Footprint
import Scriptlet.Proofs.Grammar.Rounds

/-!
# Reading ends inside of its window

Every rule has an outcome on every window of every list of lexemes.  A result leaves the window from
a later lexeme on, and an error is about the end of the input or points at a lexeme of the window.
The outcome is settled: neither what stands outside of the window, nor how much deeper questions may
be nested, nor what a table already holds makes a difference.

Three things could go wrong, and each has a module of its own.  Questions could be asked forever
(`Rule.Spec`), a rule could reach outside of its window (`Rule.Confined`), and a loop could go round
without reading anything (`Rule.Ends`).
-/

namespace Scriptlet

variable {α : Type}

/-! ## Outcomes of rules -/

/-- The rule has this outcome on the window, whatever stands outside of it, however much deeper than
need be questions may be nested, and whatever correct table is kept.  If the rule looked outside of
the window, be it past the last lexeme of all, its outcome would depend on what is there. -/
def Rule.Settles (L : Layout) (w : Window) (r : Layout → Rule α) (o : Outcome α) : Prop :=
  ∀ L', L.SameInside L' w → ∀ depth, w.enoughDepth ≤ depth → ∀ T : Table, T.Correct L' →
    ∃ T', (r L').tabled L' depth w T = some (o, T')

/-- The error is that the input ends, and has no place, or its place is that of a lexeme of the
window. -/
def SyntaxError.PlacedIn (lexemes : List Lexeme) (w : Window) (e : SyntaxError) : Prop :=
  (e = .endOfInput ∧ e.span? = none) ∨
    ∃ i l, w.lo ≤ i ∧ i < w.hi ∧ lexemes[i]? = some l ∧ e.span? = some l.span

/-- Reading stops where `Stops` says, or fails with an error that has its place in the window. -/
def Outcome.Bounded (lexemes : List Lexeme) (w : Window) (Stops : Nat → Prop) : Outcome α → Prop
  | .ok (_, k) => Stops k
  | .error e => e.PlacedIn lexemes w

/-- On the window the rule has a settled outcome, and that is bounded. -/
def Rule.Total (lexemes : List Lexeme) (w : Window) (Stops : Nat → Prop) (r : Layout → Rule α) :
    Prop :=
  ∃ o, Rule.Settles (.indexed lexemes) w r o ∧ Outcome.Bounded lexemes w Stops o

/-- Something was read, at most up to the end of the window. -/
def Window.Advances (w : Window) (k : Nat) : Prop := w.lo < k ∧ k ≤ w.hi

section

variable {lexemes : List Lexeme} {w : Window}

theorem SyntaxError.PointsInto.placedIn {e : SyntaxError} (h : e.PointsInto (.indexed lexemes) w) :
    e.PlacedIn lexemes w := by
  rcases h with rfl | ⟨i, l, hlo, hhi, hget, he⟩
  · exact .inl ⟨rfl, rfl⟩
  · refine .inr ⟨i, l, hlo, hhi, ?_, ?_⟩
    · simpa [Layout.indexed] using hget
    · rw [span?, he, Option.map_some]

theorem Outcome.Meets.bounded {o : Outcome α} {P : α → Nat → Prop} {Stops : Nat → Prop}
    (h : Outcome.Meets (.indexed lexemes) w P o) (hP : ∀ a k, P a k → Stops k) :
    Outcome.Bounded lexemes w Stops o := by
  cases o with
  | error e => exact SyntaxError.PointsInto.placedIn h
  | ok found => exact hP found.1 found.2 h

/-- A rule that looks at its window alone is settled by its outcome at enough depth. -/
theorem Rule.settles_of_confined {L : Layout} (hL : L.Sound) (hw : w.Within L.lexemes.size)
    {r : Layout → Rule α} {o : Outcome α}
    (hr : ∀ L', L.SameInside L' w → (r L).Confined w w.hi (r L'))
    (ho : (r L).outcome? L w.enoughDepth w = some o) : Rule.Settles L w r o := by
  intro L' h depth hdepth T hT
  have hsame := ((hr L' h).outcome?_eq h hL hw hw.holds w.enoughDepth).1
  have houtcome : (r L').outcome? L' depth w = some o :=
    Rule.outcome?_of_le hdepth (hsame.trans ho)
  obtain ⟨T', hrun, -⟩ := Query.run_of_agree (Goal.agree_solveTabled depth) houtcome hT
  exact ⟨T', hrun⟩

/-- A rule that keeps to its promise and looks at its window alone is total there. -/
theorem Rule.Spec.total (hw : w.Within lexemes.length) {r : Layout → Rule α}
    {P : α → Nat → Prop} {Stops : Nat → Prop}
    (h : (r (.indexed lexemes)).Spec (.indexed lexemes) w.enoughDepth w w.lo w.hi P)
    (hP : ∀ a k, P a k → Stops k)
    (hr : ∀ L', (Layout.indexed lexemes).SameInside L' w →
      (r (.indexed lexemes)).Confined w w.hi (r L')) : Rule.Total lexemes w Stops r := by
  have hL := Layout.sound_indexed lexemes
  have hsize := Layout.within_indexed.2 hw
  obtain ⟨o, ho, hmeets⟩ := h.exists_outcome hL (Nat.le_refl _)
  exact ⟨o, Rule.settles_of_confined hL hsize hr ho, hmeets.bounded hP⟩

end

/-! ## Rules of the grammar -/

namespace Grammar

open Rule

variable {lexemes : List Lexeme} {w : Window}

/-- A list of items is total on the window, and so is the loop that reads the items. -/
structure Lists (lexemes : List Lexeme) (w : Window) (opening close : Punct)
    (item : Layout → Rule α) : Prop where
  total : Rule.Total lexemes w w.Advances fun L => sequence L opening close .comma (item L)
  ends : Rule.Ends (.indexed lexemes) w
    (elements (.indexed lexemes) close .comma (item (.indexed lexemes)))
    (elementsRound (.indexed lexemes) close .comma (item (.indexed lexemes)))

/-- No rule goes on forever on this window, reaches outside of it, or stands still. -/
structure Total (lexemes : List Lexeme) (w : Window) : Prop where
  /-- Each production has a settled outcome, and that is what is read. -/
  production : ∀ p : Production, ∃ o, Rule.Settles (.indexed lexemes) w (fun L => p.rule L) o ∧
    Outcome.Bounded lexemes w (fun k => p.Stops w k) o ∧
    p.read lexemes w = o.map fun found => (found.1, ⟨found.2, w.hi⟩)
  /-- So has the rule of each operator. -/
  operator : ∀ op, Rule.Total lexemes w w.Advances fun L => binary L op
  arguments : Lists lexemes w .lparen .rparen fun _ => level .expr
  parameters : Lists lexemes w .lparen .rparen fun L => param L
  typeArguments : ∀ depth, Lists lexemes w .less .greater fun L => typeWithin L depth
  /-- Types inside of types come to an end. -/
  nesting_ends : Rule.Ends (.indexed lexemes) w (typeWithin (.indexed lexemes))
    (typeLayer (.indexed lexemes))
  /-- So do the statements of a body. -/
  statements_end : Rule.Ends (.indexed lexemes) w (statements (.indexed lexemes))
    (statementsRound (.indexed lexemes))
  /-- So do the functions of a program. -/
  functions_end : Rule.Ends (.indexed lexemes) w (functions (.indexed lexemes))
    (functionsRound (.indexed lexemes))
  /-- The tables of parentheses have an entry for each place of the window. -/
  tables : ∀ i ≤ w.hi, i < (Nesting.ofTokens (lexemes.map Lexeme.token)).depths.size ∧
    i < (Nesting.ofTokens (lexemes.map Lexeme.token)).closers.size

/-- A list of items is total if each of them is read from at least one lexeme. -/
theorem lists_of_steady (hw : w.Within lexemes.length) {opening close : Punct}
    {item : Layout → Rule α} {T : α → List Token}
    (hitem : Steady (.indexed lexemes) w.enoughDepth w w.hi T (item (.indexed lexemes)))
    (hc : ∀ L', (Layout.indexed lexemes).SameInside L' w →
      (item (.indexed lexemes)).Confined w w.hi (item L')) :
    Lists lexemes w opening close item where
  total := by
    have hread : ∀ k, w.lo < k → w.Holds k w.hi →
        (item (.indexed lexemes)).Spec (.indexed lexemes) w.enoughDepth w k w.hi fun x k' =>
          (Layout.indexed lexemes).Reads w.hi k k' (T x) :=
      fun k _ hk => (hitem k hk).imp fun _ _ h => h.2
    refine Rule.Spec.total hw (spec_sequence rfl hread hw.holds) ?_ ?_
    · exact fun _ k h => ⟨h.1, h.2.stop⟩
    · exact fun L' h => confined_sequence h (hc L' h)
  ends := ends_elements (Layout.sound_indexed lexemes) (Layout.within_indexed.2 hw) rfl hitem

theorem steady_level {L : Layout} (hw : w.Within L.lexemes.size) (l : Level) :
    Steady L w.enoughDepth w w.hi (fun e => Token.strip e.tokens) (level l) := by
  intro lo hlo
  exact spec_level hw hlo (Goal.size_lt_enoughDepth hlo l)

theorem steady_typeWithin {L : Layout} {N hi : Nat} (depth : Nat) :
    Steady L N w hi (fun t => Token.strip t.tokens) (typeWithin L depth) :=
  fun _ hlo => spec_typeWithin depth hlo

theorem steady_param {L : Layout} {N hi : Nat} :
    Steady L N w hi (fun p => Token.strip p.tokens) (param L) :=
  fun _ hlo => (spec_param hlo).imp fun p _ h => ⟨h.lt p.strip_tokens_ne_nil, h⟩

/-- What is read is the settled outcome of the production. -/
theorem read_of_settles {p : Production} {o : Outcome Fragment}
    (h : Rule.Settles (.indexed lexemes) w (fun L => p.rule L) o) :
    p.read lexemes w = o.map fun found => (found.1, ⟨found.2, w.hi⟩) := by
  obtain ⟨T, hrun⟩ := h _ (.refl _ _) _ (Nat.le_refl _) ∅ Table.correct_empty
  have hread : p.read? w.enoughDepth lexemes w =
      some (o.map fun found => (found.1, ⟨found.2, w.hi⟩)) := by
    show (((p.rule (.indexed lexemes)).tabled (.indexed lexemes) w.enoughDepth w ∅).map
      Prod.fst).map _ = _
    rw [hrun]
    rfl
  rw [Production.read, hread, Option.getD_some]

theorem total_production (hw : w.Within lexemes.length) (p : Production) :
    ∃ o, Rule.Settles (.indexed lexemes) w (fun L => p.rule L) o ∧
      Outcome.Bounded lexemes w (fun k => p.Stops w k) o ∧
      p.read lexemes w = o.map fun found => (found.1, ⟨found.2, w.hi⟩) := by
  have hL := Layout.sound_indexed lexemes
  have hsize := Layout.within_indexed.2 hw
  obtain ⟨o, hsettles, hbounded⟩ : Rule.Total lexemes w (fun k => p.Stops w k) fun L => p.rule L :=
    Rule.Spec.total hw (p.spec_rule hL hsize) (fun _ _ h => h)
      fun L' h => p.confined_rule h hL hsize
  exact ⟨o, hsettles, hbounded, read_of_settles hsettles⟩

theorem size_tables (tokens : List Token) {i : Nat} (hi : i ≤ tokens.length) :
    i < (Nesting.ofTokens tokens).depths.size ∧ i < (Nesting.ofTokens tokens).closers.size := by
  have hdepth := Nesting.getElem?_depthsFrom (d := 0) hi
  have hcloser := Nesting.getElem?_closersFrom_fst tokens.length (i := 0) (d := 0) hi
  exact ⟨(List.getElem?_eq_some_iff.1 hdepth).1, (List.getElem?_eq_some_iff.1 hcloser).1⟩

theorem total_binary (hw : w.Within lexemes.length) (op : BinOp) :
    Rule.Total lexemes w w.Advances fun L => binary L op := by
  have hL := Layout.sound_indexed lexemes
  have hsize := Layout.within_indexed.2 hw
  have hdepth := w.lt_enoughDepth
  exact Rule.Spec.total hw (spec_binary hsize hw.holds (by omega) hL op)
    (fun _ _ h => ⟨h.1, h.2.stop⟩) fun L' h => confined_binary h hL hsize op

theorem total_of_within (hw : w.Within lexemes.length) : Total lexemes w where
  production := total_production hw
  operator := total_binary hw
  arguments :=
    lists_of_steady hw (steady_level (Layout.within_indexed.2 hw) .expr)
      fun _ _ => confined_level .expr
  parameters := lists_of_steady hw steady_param fun _ h => confined_param h
  typeArguments depth :=
    lists_of_steady hw (steady_typeWithin depth) fun _ h => confined_typeWithin h depth
  nesting_ends := ends_typeWithin (Layout.sound_indexed lexemes) (Layout.within_indexed.2 hw)
  statements_end := ends_statements (Layout.sound_indexed lexemes) (Layout.within_indexed.2 hw)
  functions_end := ends_functions (Layout.sound_indexed lexemes) (Layout.within_indexed.2 hw)
  tables i hi := size_tables _ (by simpa using Nat.le_trans hi hw.2)

end Grammar

/-! ## Whole programs -/

namespace Program

/-- The rule for programs reads everything, and no rule complains about what is left over. -/
theorem ofLexemes_ne_leftover (lexemes : List Lexeme) (l : Lexeme) :
    ofLexemes lexemes ≠ .error (.leftover l) := by
  have hL := Layout.sound_indexed lexemes
  have hw : (wholeWindow lexemes).Within lexemes.length := ⟨Nat.zero_le _, Nat.le_refl _⟩
  obtain ⟨o, ho, hmeets⟩ := (spec_whole lexemes).exists_outcome hL (Nat.le_refl _)
  have hinside := ((Grammar.confined_program (.refl _ _)).outcome?_eq (.refl _ _) hL
    (Layout.within_indexed.2 hw) hw.holds _).2 o ho
  rw [ofLexemes, splitLexemes_eq ho]
  cases o with
  | error e => exact fun herr => hinside l (Except.error.inj herr)
  | ok found =>
    obtain ⟨p, k⟩ := found
    obtain ⟨rfl, -⟩ := hmeets
    show complete (p, lexemes.drop lexemes.length) ≠ _
    rw [List.drop_length]
    exact fun herr => by cases herr

end Program

namespace Grammar

/-- Every rule is total on every window of every list of lexemes.  Reading a whole program leaves
nothing over, at whatever depth it stops. -/
theorem total_within (lexemes : List Lexeme) (w : Window) (hw : w.Within lexemes.length) :
    Total lexemes w ∧ ∀ l, Program.ofLexemes lexemes ≠ .error (.leftover l) ∧
      ∀ depth, Program.ofLexemes? depth lexemes ≠ some (.error (.leftover l)) := by
  refine ⟨total_of_within hw, fun l => ?_⟩
  have hleft := Program.ofLexemes_ne_leftover lexemes l
  exact ⟨hleft, fun depth h => hleft (Program.ofLexemes_of_some h)⟩

/-- In the window that holds the parenthesis of `f(1` alone. -/
theorem total_within_unclosed :
    Window.Within ⟨1, 2⟩ Request.unclosed.length ∧ Total Request.unclosed ⟨1, 2⟩ ∧
      ∀ l, Program.ofLexemes Request.unclosed ≠ .error (.leftover l) ∧
        ∀ depth, Program.ofLexemes? depth Request.unclosed ≠ some (.error (.leftover l)) := by
  have hw : Window.Within ⟨1, 2⟩ Request.unclosed.length := by
    simp [Window.Within, Request.unclosed]
  exact ⟨hw, total_within Request.unclosed ⟨1, 2⟩ hw⟩

end Grammar

end Scriptlet
