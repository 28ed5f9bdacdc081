import Scriptlet.Grammar.Search
import Scriptlet.Proofs.Grammar.Printable
import Scriptlet.Proofs.Grammar.Tabling

/-!
# Where a search for an operator may stop

A search for an operator stops at the parenthesis that closes more than were opened.  It need not: a
search that goes on may find an operator further on, but what stands before that operator is no
expression, because the parentheses of every expression are nested.  So the rule that cuts there
fails, and it also fails when nothing is found.  The two errors may differ
(`Production.operation_unmatched`), but only the rule of an operator itself shows them: every other
rule puts an error of its own in their place, and gives the same with either search
(`Production.readOn_unbounded`).
-/

namespace Scriptlet

/-! ## Trees have nested parentheses -/

namespace Expr

open Token

theorem nested_braced {es : List Expr} (h : ∀ e ∈ es, Nested e.tokens) :
    Nested (braced (tokensOfAll es)) := by
  have hlines : Nested ((tokensOfAll es).flatMap (· ++ [.newline])) := by
    rw [Grammar.tokensOfAll_eq, List.flatMap_map]
    induction es with
    | nil => exact .nil
    | cons e es ih =>
      have hrest := ih fun e' he' => h e' (List.mem_cons_of_mem _ he')
      rw [List.flatMap_cons]
      apply Nested.append _ hrest
      exact (h e List.mem_cons_self).append (.cons rfl .nil)
  exact .cons rfl (.cons rfl (hlines.append (.cons rfl .nil)))

theorem nested_elsePart {es : List Expr} (h : ∀ e ∈ es, Nested e.tokens) :
    Nested (elsePart (tokensOfAll es)) := by
  cases es with
  | nil => exact .nil
  | cons e es => exact .cons rfl (nested_braced h)

/-- Parentheses are nested in every tree, also in one that cannot be read back. -/
theorem nested_tokens (e : Expr) : Nested e.tokens := by
  induction e using Expr.induction with
  | int | bool | char | str | var | returnUnit => exact .cons rfl .nil
  | index s base position ih =>
    exact .cons rfl (.cons rfl (ih.append (.cons (t := .symbol .rbracket) rfl .nil)))
  | neg s e ih | not s e ih | returnValue s e ih => exact .cons rfl ih
  | parens s e ih => exact .parens ih .nil
  | binary s op l r ihl ihr => exact ihl.append (.cons op.nesting_token ihr)
  | declare s mutable name value ih => exact .cons rfl (.cons rfl (.cons rfl ih))
  | assign s name value ih => exact .cons rfl (.cons rfl ih)
  | call s name args ih => exact .cons rfl (.parens (nested_arguments ih) .nil)
  | store s target base position value ihp ihv =>
    have hvalue : Nested (.symbol .rbracket :: .symbol .equals :: value.tokens) :=
      .cons rfl (.cons rfl ihv)
    exact .cons rfl (.cons rfl (ihp.append hvalue))
  | branch s cond body otherwise ihc ihb iho =>
    have htail := Nested.parens ihc ((nested_braced ihb).append (nested_elsePart iho))
    rw [tokens]
    simpa using Nested.cons (t := .keyword .ifKw) rfl htail
  | forIn s name iterable body ihi ihb =>
    have hhead : Nested (.ident name :: .keyword .inKw :: iterable.tokens) :=
      .cons rfl (.cons rfl ihi)
    exact .cons rfl (.parens hhead (nested_braced ihb))
  | loop s cond body ihc ihb => exact .cons rfl (.parens ihc (nested_braced ihb))

end Expr

namespace Search

open Token

/-- Tokens that only lay a program out close no parentheses. -/
theorem closingIn_strip (depth : Nat) (ts : List Token) :
    closingIn depth (strip ts) = none ↔ closingIn depth ts = none := by
  induction ts generalizing depth with
  | nil => rfl
  | cons t ts ih =>
    rw [strip_cons]
    cases hlayout : t.isLayout with
    | true =>
      have hnesting : t.nesting = 0 := by
        cases t with
        | symbol p => cases p <;> first | rfl | cases hlayout
        | _ => rfl
      rw [if_pos rfl, ih, closingIn, if_neg fun h => ne_rparen_of_nesting hnesting h.1, hnesting,
        Int.add_zero, Int.toNat_natCast, Option.map_eq_none_iff]
    | false =>
      rw [if_neg Bool.false_ne_true, closingIn, closingIn]
      split
      · rfl
      · rw [Option.map_eq_none_iff, Option.map_eq_none_iff, ih]

end Search

/-- Where a whole expression was read no parenthesis closes more than were opened. -/
theorem Layout.Scans.closing?_eq_none {L : Layout} (hS : L.Scans) {lo hi : Nat} {e : Expr}
    (hhi : hi ≤ L.lexemes.size) (h : L.Reads hi lo hi (Token.strip e.tokens)) :
    L.closing? ⟨lo, hi⟩ = none := by
  have hspells : L.Spells lo hi (((L.lexemes.toList.drop lo).take (hi - lo)).map Lexeme.token) :=
    ⟨h.start, hhi, rfl⟩
  have htree : Search.closingIn 0 e.tokens = none := by
    have hpass := Search.closingIn_nested e.nested_tokens 0 []
    rwa [List.append_nil] at hpass
  have hwindow : Search.closingIn 0 (Token.strip e.tokens) = none :=
    (Search.closingIn_strip 0 _).2 htree
  rw [← h.yield_eq] at hwindow
  rw [hS.closing?_spells hspells, (Search.closingIn_strip 0 _).1 hwindow, Option.map_none]

/-! ## The two searches -/

/-- The layout with another search for operators. -/
def Layout.withSearch (L : Layout) (find? : Token → Window → Option Nat) : Layout :=
  { L with find? }

@[simp] theorem Layout.lexemes_withSearch (L : Layout) (find? : Token → Window → Option Nat) :
    (L.withSearch find?).lexemes = L.lexemes := rfl

@[simp] theorem Layout.find?_withSearch (L : Layout) (find? : Token → Window → Option Nat) :
    (L.withSearch find?).find? = find? := rfl

/-- The layout with tables whose search for operators is a scan that goes on behind unmatched
closing parentheses. -/
def Layout.unbounded (lexemes : List Lexeme) : Layout :=
  (Layout.indexed lexemes).withSearch (Layout.scannedAnywhere lexemes).find?

namespace Search

open Nesting

/-- A scan that nothing stops, at depth `d + depth`. -/
theorem findAnywhereFrom_eq {lexemes : List Lexeme} {t : Token} {n i : Nat} {depth d : Int} :
    findAnywhereFrom lexemes.toArray t n i depth =
      (firstAt t d i (d + depth) ((lexemes.map Lexeme.token).drop i)).filter (· < i + n) := by
  induction n generalizing i depth with
  | zero =>
    rw [findAnywhereFrom]
    cases hfirst : firstAt t d i (d + depth) ((lexemes.map Lexeme.token).drop i) with
    | none => rfl
    | some j =>
      have hle := (firstAt_bounds hfirst).1
      simp [Option.filter, Nat.not_lt.2 hle]
  | succ n ih =>
    rw [findAnywhereFrom, List.getElem?_toArray]
    cases hget : lexemes[i]? with
    | none =>
      rw [drop_tokens_eq_nil hget]
      rfl
    | some l =>
      have hpos : i + 1 + n = i + (n + 1) := by omega
      have hdepth : d + depth = d ↔ depth = 0 := by omega
      simp only [drop_tokens hget, firstAt, hdepth]
      split
      · simp [Option.filter]
      · rw [ih, hpos, Int.add_assoc]

theorem findAnywhere?_eq {lexemes : List Lexeme} {t : Token} {w : Window} (hw : w.lo ≤ w.hi) :
    findAnywhere? lexemes.toArray t w =
      (nextAt t (lexemes.map Lexeme.token) w.lo).filter (· < w.hi) := by
  have hlen : w.lo + w.length = w.hi := by
    rw [Window.length]
    omega
  rw [findAnywhere?, findAnywhereFrom_eq (d := rise (lexemes.map Lexeme.token) w.lo), hlen, nextAt,
    Int.add_zero]

end Search

namespace Nesting

/-- What is next from `k` on is not before it, and is where it is said to be. -/
theorem nextAt_bounds {t : Token} {ts : List Token} {k p : Nat} (h : nextAt t ts k = some p) :
    k ≤ p ∧ ts[p]? = some t := by
  obtain ⟨hle, hget⟩ := firstAt_bounds h
  have hsum : k + (p - k) = p := by omega
  rw [List.getElem?_drop, hsum] at hget
  exact ⟨hle, hget⟩

end Nesting

namespace Layout

/-- The other search finds what the layout finds; or the layout finds nothing, and what the other
search finds is behind a parenthesis that closes more than were opened. -/
def SameCut (L : Layout) (find? : Token → Window → Option Nat) : Prop :=
  ∀ {t : Token} {w : Window}, t.nesting = 0 → w.Within L.lexemes.size →
    find? t w = L.find? t w ∨
      L.find? t w = none ∧ ∃ p c, find? t w = some p ∧ L.closing? ⟨w.lo, p⟩ = some c

theorem sameCut_unbounded (lexemes : List Lexeme) :
    (indexed lexemes).SameCut (unbounded lexemes).find? := by
  intro t w ht hw
  have hw := within_indexed.1 hw
  have hreal := (find?_indexed (t := t) hw).trans (Search.find?_eq hw.1 hw.2)
  have hplain : (unbounded lexemes).find? t w = _ := Search.findAnywhere?_eq hw.1
  rw [hreal, hplain]
  cases hnext : Nesting.nextAt t (lexemes.map Lexeme.token) w.lo with
  | none => exact .inl rfl
  | some p =>
    by_cases hp : p < w.hi
    case neg =>
      have hmin : ¬ p < min w.hi ((Nesting.nextAt (.symbol .rparen) (lexemes.map Lexeme.token)
          w.lo).getD lexemes.length) := by omega
      simp [Option.filter, hp, hmin]
    have hle := (Nesting.nextAt_bounds hnext).1
    cases hcloser : Nesting.nextAt (.symbol .rparen) (lexemes.map Lexeme.token) w.lo with
    | none =>
      -- Nothing closes more than was opened, so the search reaches as far as the window.
      have hmin : p < min w.hi lexemes.length := by
        have hhi := hw.2
        omega
      left
      simp only [Option.getD_none, Option.filter, hp, hmin]
    | some c =>
      by_cases hc : p < c
      · left
        have hmin : p < min w.hi c := by omega
        simp only [Option.getD_some, Option.filter, hp, hmin]
      · right
        have hne : c ≠ p := by
          rintro rfl
          have hboth := (Nesting.nextAt_bounds hnext).2.symm.trans (Nesting.nextAt_bounds hcloser).2
          exact Search.ne_rparen_of_nesting ht (Option.some.inj hboth)
        have hlt : c < p := by omega
        have hmin : ¬ p < min w.hi c := by omega
        have hinner : Window.Within ⟨w.lo, p⟩ lexemes.length :=
          ⟨hle, Nat.le_trans (Nat.le_of_lt hp) hw.2⟩
        have hclosing := (closing?_indexed hinner).trans (Search.closing?_eq hle)
        refine ⟨by simp [Option.filter, hmin], p, c, by simp [Option.filter, hp], ?_⟩
        rw [hclosing]
        simp [hcloser, Option.filter, hlt]

theorem sound_unbounded (lexemes : List Lexeme) : (unbounded lexemes).Sound where
  closing := (sound_indexed lexemes).closing
  find := by
    intro w t p hw h
    have hplain : (unbounded lexemes).find? t w = _ := Search.findAnywhere?_eq hw.1
    rw [hplain, Option.filter_eq_some_iff] at h
    obtain ⟨hle, hget⟩ := Nesting.nextAt_bounds h.1
    rw [List.getElem?_map, Option.map_eq_some_iff] at hget
    exact ⟨hle, by simpa using h.2, by simpa [unbounded, indexed] using hget⟩

end Layout

/-! ## Rules that look for no operator -/

section

variable {L : Layout} {find? : Token → Window → Option Nat}

theorem Layout.newlineRun_withSearch (n lo : Nat) :
    (L.withSearch find?).newlineRun n lo = L.newlineRun n lo := by
  induction n generalizing lo with
  | zero => rfl
  | succ n ih =>
    rw [newlineRun, newlineRun, lexemes_withSearch]
    simp only [ih]

namespace Grammar

theorem skipNewlines_withSearch : skipNewlines (L.withSearch find?) = skipNewlines L := by
  rw [skipNewlines, skipNewlines]
  simp only [Layout.newlineRun_withSearch]

theorem elements_withSearch {α : Type} (close separator : Punct) (element : Rule α) (rounds : Nat) :
    elements (L.withSearch find?) close separator element rounds =
      elements L close separator element rounds := by
  induction rounds with
  | zero => rfl
  | succ rounds ih =>
    rw [elements, elements, ih]
    rfl

theorem sequence_withSearch {α : Type} (opening close separator : Punct) (element : Rule α) :
    sequence (L.withSearch find?) opening close separator element =
      sequence L opening close separator element := by
  rw [sequence, sequence, funext (elements_withSearch close separator element)]
  rfl

theorem statements_withSearch (rounds : Nat) :
    statements (L.withSearch find?) rounds = statements L rounds := by
  induction rounds with
  | zero => rfl
  | succ rounds ih =>
    rw [statements, statements, ih, skipNewlines_withSearch]
    rfl

theorem body_withSearch : body (L.withSearch find?) = body L := by
  rw [body, body, funext statements_withSearch]
  rfl

theorem call_withSearch : call (L.withSearch find?) = call L := by
  rw [call, call]
  simp only [sequence_withSearch]
  rfl

theorem branch_withSearch : branch (L.withSearch find?) = branch L := by
  rw [branch, branch, otherwise, otherwise, body_withSearch]
  rfl

theorem forIn_withSearch : forIn (L.withSearch find?) = forIn L := by
  rw [forIn, forIn, body_withSearch]
  rfl

theorem loop_withSearch : loop (L.withSearch find?) = loop L := by
  rw [loop, loop, body_withSearch]
  rfl

theorem control_withSearch : control (L.withSearch find?) = control L := by
  rw [control, control, branch_withSearch, forIn_withSearch, loop_withSearch]
  rfl

theorem top_withSearch : top (L.withSearch find?) = top L := by
  rw [top, top, call_withSearch, control_withSearch]
  rfl

theorem typeWithin_withSearch (depth : Nat) :
    typeWithin (L.withSearch find?) depth = typeWithin L depth := by
  induction depth with
  | zero => rfl
  | succ depth ih =>
    rw [typeWithin, typeWithin, ih, sequence_withSearch]
    rfl

theorem type_withSearch : type (L.withSearch find?) = type L := by
  rw [type, type, funext typeWithin_withSearch]

theorem param_withSearch : param (L.withSearch find?) = param L := by
  rw [param, param, type_withSearch]
  rfl

theorem function_withSearch : function (L.withSearch find?) = function L := by
  rw [function, function, param_withSearch, resultType, resultType, type_withSearch,
    sequence_withSearch, body_withSearch]
  rfl

theorem functions_withSearch (rounds : Nat) :
    functions (L.withSearch find?) rounds = functions L rounds := by
  induction rounds with
  | zero => rfl
  | succ rounds ih =>
    rw [functions, functions, ih, skipNewlines_withSearch, function_withSearch]
    rfl

theorem program_withSearch : program (L.withSearch find?) = program L := by
  rw [program, program, funext functions_withSearch]
  rfl

end Grammar

/-- Only the rules of operators look for one. -/
theorem Production.rule_withSearch (p : Production) (hp : ∀ op, p ≠ .operation op) :
    p.rule (L.withSearch find?) = p.rule L := by
  cases p with
  | operation op => exact absurd rfl (hp op)
  | program => rw [rule, rule, Grammar.program_withSearch]
  | function => rw [rule, rule, Grammar.function_withSearch]
  | param => rw [rule, rule, Grammar.param_withSearch]
  | type => rw [rule, rule, Grammar.type_withSearch]
  | body => rw [rule, rule, Grammar.body_withSearch]
  | control => rw [rule, rule, Grammar.control_withSearch]
  | call => rw [rule, rule, Grammar.call_withSearch]
  | branch => rw [rule, rule, Grammar.branch_withSearch]
  | forIn => rw [rule, rule, Grammar.forIn_withSearch]
  | loop => rw [rule, rule, Grammar.loop_withSearch]
  | _ => rfl

end

/-! ## Rules with answers that agree -/

section

variable {α : Type} {L : Layout} {find? : Token → Window → Option Nat}

/-- Computations whose questions have the same answers give the same result. -/
theorem Query.Sat.eval_congr {Asks : Goal → Prop} {Answers : Goal → Outcome Expr → Prop}
    {q : Query α} {P : α → Prop} {answer answer' : Goal → Outcome Expr}
    (h : q.Sat Asks Answers P)
    (hanswer : ∀ g, Asks g → answer' g = answer g ∧ Answers g (answer g)) :
    q.eval answer' = q.eval answer := by
  induction q with
  | done a => rfl
  | ask g resume ih =>
    obtain ⟨heq, hgood⟩ := hanswer g h.1
    simp only [Query.eval, heq]
    exact ih _ (h.2 _ hgood)

/-- The layout with another search answers every goal that needs less than `N` as `L` does. -/
def Layout.AgreeBelow (L : Layout) (find? : Token → Window → Option Nat) (N : Nat) : Prop :=
  ∀ g : Goal, g.window.Within L.lexemes.size → g.size < N →
    g.answer (L.withSearch find?) = g.answer L

/-- A rule that makes no use of the search itself reads the same with another one. -/
theorem Rule.Spec.eval_congr (hL : L.Sound) {r : Rule α} {N lo hi : Nat} {w₀ : Window}
    {P : α → Nat → Prop} (h : r.Spec L N w₀ lo hi P) (hagree : L.AgreeBelow find? N) :
    r.eval (L.withSearch find?) ⟨lo, hi⟩ = r.eval L ⟨lo, hi⟩ := by
  apply Query.Sat.eval_congr h
  rintro g ⟨hg, hsize⟩
  exact ⟨hagree g hg hsize, (Goal.answer_spec hL hg (Nat.lt_succ_self _)).2⟩

/-- A rule that keeps to its promise has an outcome as promised. -/
theorem Rule.Spec.eval_meets (hL : L.Sound) {r : Rule α} {N lo hi : Nat} {w₀ : Window}
    {P : α → Nat → Prop} (h : r.Spec L N w₀ lo hi P) :
    Outcome.Meets L w₀ P (r.eval L ⟨lo, hi⟩) := by
  obtain ⟨o, ho, hmeets⟩ := h.exists_outcome hL (Nat.le_refl N)
  rw [h.outcome_eq hL (Nat.le_refl N)] at ho
  rwa [Option.some.inj ho]

namespace Grammar

open Rule

/-- With another search, the rule reads what it reads with the search of the layout; where it fails,
it may fail with another error. -/
def ReadsAlike (L : Layout) (find? : Token → Window → Option Nat) (w : Window)
    (r : Layout → Rule Expr) : Prop :=
  ((r (L.withSearch find?)).eval (L.withSearch find?) w).toOption = ((r L).eval L w).toOption

/-- The alternatives are tried where there is a lexeme to start with. -/
theorem eval_firstOf (form : Form) (rules : List (Rule Expr)) (w : Window) :
    (firstOf L form rules).eval L w =
      match w.first L.lexemes with
      | .ok l => (rules.foldr orElse (fail (.wrongForm l form))).eval L w
      | .error e => .error e := by
  rw [firstOf, eval_bind, Rule.eval, first]
  cases w.first L.lexemes <;> rfl

theorem eval_fail (e : SyntaxError) (w : Window) : (fail e : Rule α).eval L w = .error e := rfl

theorem eval_window (w : Window) : window.eval L w = .ok (w, w.lo) := rfl

/-- An expression that is to fill a window is read there, and then nothing may be left. -/
theorem eval_wholeIn (inner : Window) (form : Form) (w : Window) :
    (wholeIn L inner form).eval L w =
      match (level .expr).eval L inner with
      | .error e => .error e
      | .ok (e, k) =>
        match Window.get? ⟨k, inner.hi⟩ L.lexemes 0 with
        | some l => .error (.wrongForm l form)
        | none => .ok (e, w.lo) := by
  rw [wholeIn, eval_bind, eval_exprIn]
  cases (level .expr).eval L inner with
  | error e => rfl
  | ok found =>
    obtain ⟨e, k⟩ := found
    simp only
    cases Window.get? ⟨k, inner.hi⟩ L.lexemes 0 <;> rfl

/-- Which alternative is taken depends on what the alternatives read, not on how they fail. -/
theorem eval_foldr_orElse_congr {rules : List (Layout → Rule Expr)} {w : Window}
    (h : ∀ r ∈ rules, ReadsAlike L find? w r) (e : SyntaxError) :
    ((rules.map (· (L.withSearch find?))).foldr orElse (fail e)).eval (L.withSearch find?) w =
      ((rules.map (· L)).foldr orElse (fail e)).eval L w := by
  induction rules with
  | nil => rw [List.map_nil, List.foldr_nil, List.map_nil, List.foldr_nil, eval_fail, eval_fail]
  | cons r rules ih =>
    have hr := h r List.mem_cons_self
    have hrest := ih fun r' hr' => h r' (List.mem_cons_of_mem _ hr')
    rw [ReadsAlike] at hr
    rw [List.map_cons, List.foldr_cons, List.map_cons, List.foldr_cons, eval_orElse, eval_orElse]
    -- Both alternatives read the same, or both fail and the others decide.
    cases hother : (r (L.withSearch find?)).eval (L.withSearch find?) w <;>
      cases hown : (r L).eval L w <;>
      rw [hother, hown] at hr
    · exact hrest
    · cases hr
    · cases hr
    · exact congrArg Except.ok (Option.some.inj hr)

theorem eval_firstOf_congr {form : Form} (rules : List (Layout → Rule Expr)) {w : Window}
    (h : ∀ r ∈ rules, ReadsAlike L find? w r) :
    (firstOf (L.withSearch find?) form (rules.map (· (L.withSearch find?)))).eval
        (L.withSearch find?) w =
      (firstOf L form (rules.map (· L))).eval L w := by
  rw [eval_firstOf, eval_firstOf, Layout.lexemes_withSearch]
  simp only [eval_foldr_orElse_congr h]

/-- A rule that makes no use of the search itself reads the same with another one. -/
theorem readsAlike_of_spec (hL : L.Sound) {r : Layout → Rule Expr} {N lo hi : Nat} {w₀ : Window}
    {P : Expr → Nat → Prop} (hr : r (L.withSearch find?) = r L) (h : (r L).Spec L N w₀ lo hi P)
    (hagree : L.AgreeBelow find? N) : ReadsAlike L find? ⟨lo, hi⟩ r := by
  rw [ReadsAlike, hr, h.eval_congr hL hagree]

variable {N : Nat} {w₀ : Window} {lo hi : Nat}

/-- The rule of an operator fails where none is found. -/
theorem eval_binary_of_none {op : BinOp} {w : Window} (h : L.find? op.token w = none) :
    (binary L op).eval L w = .error .endOfInput := by
  rw [binary, eval_bind, eval_window]
  simp only [h]
  rfl

/-- The rule of an operator ends alike with both searches if they cut alike.  Otherwise nothing is
found here, the other search cuts behind an unmatched parenthesis, and there the rule fails as its left
operand does. -/
theorem eval_binary_withSearch (hL : L.Sound) (hS : L.Scans) (hL' : (L.withSearch find?).Sound)
    (hcut : L.SameCut find?) (hw₀ : w₀.Within L.lexemes.size) (hw : w₀.Holds lo hi)
    (hN : 2 * (hi - lo) ≤ N) (hagree : L.AgreeBelow find? N) (op : BinOp) :
    find? op.token ⟨lo, hi⟩ = L.find? op.token ⟨lo, hi⟩ ∧
        (binary (L.withSearch find?) op).eval (L.withSearch find?) ⟨lo, hi⟩ =
          (binary L op).eval L ⟨lo, hi⟩ ∨
      L.find? op.token ⟨lo, hi⟩ = none ∧
        ∃ p c e, find? op.token ⟨lo, hi⟩ = some p ∧ L.closing? ⟨lo, p⟩ = some c ∧
          (binary L op).eval L ⟨lo, hi⟩ = .error .endOfInput ∧
          (binary (L.withSearch find?) op).eval (L.withSearch find?) ⟨lo, hi⟩ = .error e ∧
          (wholeIn L ⟨lo, p⟩ (.operation op)).eval L ⟨lo, hi⟩ = .error e := by
  have hwithin : Window.Within ⟨lo, hi⟩ L.lexemes.size := ⟨hw.valid, Nat.le_trans hw.stop hw₀.2⟩
  rcases hcut op.nesting_token hwithin with heq | ⟨hnone, p, c, hsome, hclosing⟩
  · -- The same cut, and so the same rule for both operands.
    left
    have hsame : binary (L.withSearch find?) op ⟨lo, hi⟩ = binary L op ⟨lo, hi⟩ := by
      simp only [binary, bind, Rule.bind, window, Query.bind, Layout.find?_withSearch, heq]
      rfl
    refine ⟨heq, ?_⟩
    rw [← (spec_binary hw₀ hw hN hL op).eval_congr hL hagree, Rule.eval, Rule.eval, hsame]
  · right
    obtain ⟨hlo, hhi, -⟩ := hL'.find hwithin hsome
    simp only at hlo hhi
    have hinner : w₀.Holds lo p := ⟨hw.start, hlo, by have := hw.stop; omega⟩
    have hspec : (wholeIn L ⟨lo, p⟩ (.operation op)).Spec L N w₀ lo hi fun e k =>
        k = lo ∧ L.Reads p lo p (Token.strip e.tokens) := spec_wholeIn hw₀ hinner (by omega)
    have hsame : (wholeIn (L.withSearch find?) ⟨lo, p⟩ (.operation op)).eval (L.withSearch find?)
        ⟨lo, hi⟩ = (wholeIn L ⟨lo, p⟩ (.operation op)).eval L ⟨lo, hi⟩ :=
      hspec.eval_congr hL hagree
    have hmeets := hspec.eval_meets hL
    cases hleft : (wholeIn L ⟨lo, p⟩ (.operation op)).eval L ⟨lo, hi⟩ with
    | ok found =>
      -- What stands before the operator would have to be nested.
      rw [hleft] at hmeets
      have hstop := hinner.stop
      have hnot := hS.closing?_eq_none (by have := hw₀.2; omega) hmeets.2
      cases hnot.symm.trans hclosing
    | error e =>
      rw [hleft] at hsame
      refine ⟨hnone, p, c, e, hsome, hclosing, ?_, ?_, hleft⟩
      · exact eval_binary_of_none hnone
      · rw [binary, eval_bind, eval_window]
        simp only [Layout.find?_withSearch, hsome]
        rw [eval_bind, hsame]

/-- Cutting at an operator that is behind an unmatched parenthesis reads nothing. -/
theorem readsAlike_binary (hL : L.Sound) (hS : L.Scans) (hL' : (L.withSearch find?).Sound)
    (hcut : L.SameCut find?) (hw₀ : w₀.Within L.lexemes.size) (hw : w₀.Holds lo hi)
    (hN : 2 * (hi - lo) ≤ N) (hagree : L.AgreeBelow find? N) (op : BinOp) :
    ReadsAlike L find? ⟨lo, hi⟩ fun L => binary L op := by
  rw [ReadsAlike]
  rcases eval_binary_withSearch hL hS hL' hcut hw₀ hw hN hagree op with
    ⟨-, heq⟩ | ⟨-, p, c, e, -, -, hreal, hplain, -⟩
  · rw [heq]
  · rw [hreal, hplain]
    rfl

/-- The levels of operators read the same with either search, errors included. -/
theorem eval_math_congr (hL : L.Sound) (hS : L.Scans) (hL' : (L.withSearch find?).Sound)
    (hcut : L.SameCut find?) (hw₀ : w₀.Within L.lexemes.size) (hw : w₀.Holds lo hi)
    (hN : 2 * (hi - lo) ≤ N) (hagree : L.AgreeBelow find? N) :
    (math (L.withSearch find?)).eval (L.withSearch find?) ⟨lo, hi⟩ = (math L).eval L ⟨lo, hi⟩ := by
  have hop := readsAlike_binary hL hS hL' hcut hw₀ hw hN hagree
  apply eval_firstOf_congr [neg, not, (binary · .range), (binary · .sub), (binary · .add),
    (binary · .mul), (binary · .div), parens]
  simp only [List.forall_mem_cons]
  refine ⟨?_, ?_, hop _, hop _, hop _, hop _, hop _, ?_, by simp⟩
  · exact readsAlike_of_spec hL rfl (spec_neg hw₀ hw hN) hagree
  · exact readsAlike_of_spec hL rfl (spec_not hw₀ hw hN) hagree
  · exact readsAlike_of_spec hL rfl (spec_parens hw₀ hw hN hL) hagree

theorem eval_comparison_congr (hL : L.Sound) (hS : L.Scans) (hL' : (L.withSearch find?).Sound)
    (hcut : L.SameCut find?) (hw₀ : w₀.Within L.lexemes.size) (hw : w₀.Holds lo hi)
    (hN : 2 * (hi - lo) ≤ N) (hagree : L.AgreeBelow find? N) :
    (comparison (L.withSearch find?)).eval (L.withSearch find?) ⟨lo, hi⟩ =
      (comparison L).eval L ⟨lo, hi⟩ := by
  have hop := readsAlike_binary hL hS hL' hcut hw₀ hw hN hagree
  apply eval_firstOf_congr [(binary · .and), (binary · .or), (binary · .less), (binary · .greater)]
  simp only [List.forall_mem_cons]
  exact ⟨hop _, hop _, hop _, hop _, by simp⟩

/-- With another search that cuts alike every goal has the same outcome. -/
theorem agreeBelow (hL : L.Sound) (hS : L.Scans) (hL' : (L.withSearch find?).Sound)
    (hcut : L.SameCut find?) (N : Nat) : L.AgreeBelow find? N := by
  induction N with
  | zero =>
    intro g _ hsize
    omega
  | succ N ih =>
    intro g hg hsize
    obtain ⟨l, lo, hi⟩ := g
    -- A rule asks smaller goals only, and those agree.
    have hagree : L.AgreeBelow find? (Goal.size ⟨l, ⟨lo, hi⟩⟩) :=
      fun g' hg' hsize' => ih g' hg' (by omega)
    have hw : Window.Holds ⟨lo, hi⟩ lo hi := hg.holds
    have hN : 2 * (hi - lo) ≤ Goal.size ⟨l, ⟨lo, hi⟩⟩ := by
      simp only [Goal.size, Window.length]
      omega
    rw [Goal.answer_eq hL' hg.1 hg.2, Goal.answer_eq hL hg.1 hg.2]
    cases l with
    | expr | short => exact (spec_ofLevel hL hg).eval_congr hL hagree
    | top =>
      rw [show ofLevel (L.withSearch find?) .top = ofLevel L .top from top_withSearch]
      exact (spec_ofLevel hL hg).eval_congr hL hagree
    | math => exact eval_math_congr hL hS hL' hcut hg hw hN hagree
    | comparison => exact eval_comparison_congr hL hS hL' hcut hg hw hN hagree

end Grammar

end

/-! ## Fragments -/

namespace Production

/-- Reads a fragment from a window of a layout, at a depth that is enough: the fragment and the
window that is left. -/
def readOn (p : Production) (L : Layout) (w : Window) :
    Option (Except SyntaxError (Fragment × Window)) :=
  (((p.rule L).tabled L w.enoughDepth w).run' ∅).map fun o =>
    o.map fun found => (found.1, ⟨found.2, w.hi⟩)

/-- Reading gives what the rule of the production gives. -/
theorem readOn_eq {L : Layout} (hL : L.Sound) (p : Production) {w : Window}
    (hw : w.Within L.lexemes.size) :
    p.readOn L w =
      some (((p.rule L).eval L w).map fun found => (found.1, ⟨found.2, w.hi⟩)) := by
  have houtcome := (p.spec_rule hL hw).outcome_eq hL (Nat.le_refl _)
  rw [readOn, Rule.tabled_eq houtcome, Option.map_some]

/-- What is read is the result of the rule, with the search of the tables. -/
theorem read_eq_eval (p : Production) (lexemes : List Lexeme) {w : Window}
    (hw : w.Within lexemes.length) :
    p.read lexemes w =
      ((p.rule (.indexed lexemes)).eval (.indexed lexemes) w).map
        fun found => (found.1, ⟨found.2, w.hi⟩) := by
  have hread := readOn_eq (Layout.sound_indexed lexemes) p (Layout.within_indexed.2 hw)
  rw [Production.read,
    show p.read? w.enoughDepth lexemes w = p.readOn (.indexed lexemes) w from rfl, hread,
    Option.getD_some]

theorem eval_operation (L : Layout) (op : BinOp) (w : Window) :
    ((operation op).rule L).eval L w =
      ((Grammar.binary L op).eval L w).map fun found => (.expr found.1, found.2) := by
  rw [rule, Rule.eval_bind]
  cases (Grammar.binary L op).eval L w <;> rfl

/-- The search of the tables stops at a parenthesis that closes more than were opened, and the scan that
goes on finds the operator at `q`, behind that parenthesis. -/
structure CutsApart (lexemes : List Lexeme) (op : BinOp) (w : Window) (q : Nat) : Prop where
  indexed : (Layout.indexed lexemes).find? op.token w = none
  unbounded : (Layout.unbounded lexemes).find? op.token w = some q
  closing : (Layout.indexed lexemes).closing? ⟨w.lo, q⟩ ≠ none

/-- Why the lexemes of a window are not the left operand of an operator: no expression is read from them,
or it ends before they do. -/
inductive LeftFails (lexemes : List Lexeme) (op : BinOp) (w : Window) : SyntaxError → Prop
  | unread {e : SyntaxError} : expr.read lexemes w = .error e → LeftFails lexemes op w e
  | short {n : Fragment} {k : Nat} {l : Lexeme} :
      expr.read lexemes w = .ok (n, ⟨k, w.hi⟩) → k < w.hi → lexemes[k]? = some l →
      LeftFails lexemes op w (.wrongForm l (.operation op))

theorem leftFails_of_eval {lexemes : List Lexeme} {op : BinOp} {w inner : Window} {e : SyntaxError}
    (hinner : inner.Within lexemes.length)
    (h : (Grammar.wholeIn (.indexed lexemes) inner (.operation op)).eval (.indexed lexemes) w =
      .error e) : LeftFails lexemes op inner e := by
  have hread : expr.read lexemes inner =
      ((Rule.level .expr).eval (.indexed lexemes) inner).map
        fun found => (.expr found.1, ⟨found.2, inner.hi⟩) := by
    rw [read_eq_eval expr lexemes hinner, rule, Rule.eval_bind]
    cases (Rule.level .expr).eval (.indexed lexemes) inner <;> rfl
  rw [Grammar.eval_wholeIn] at h
  cases hlevel : (Rule.level .expr).eval (.indexed lexemes) inner with
  | error e' =>
    rw [hlevel] at h hread
    obtain rfl := Except.error.inj h
    exact .unread hread
  | ok found =>
    obtain ⟨left, k⟩ := found
    rw [hlevel] at h hread
    simp only at h
    cases hget : Window.get? ⟨k, inner.hi⟩ (Layout.indexed lexemes).lexemes 0 with
    | none =>
      rw [hget] at h
      cases h
    | some l =>
      rw [hget] at h
      obtain rfl := Except.error.inj h
      obtain ⟨hlt, hlexeme⟩ := Grammar.get?_zero hget
      exact .short hread hlt (by simpa [Layout.indexed] using hlexeme)

/-- Whether the search for operators stops at unmatched closing parentheses makes no difference to
what is read.  Nor does it to the error where nothing is read, except for the rule of an operator on a
window where the two searches cut apart: there the search of the tables finds no operator, and with the
other one the left operand fails. -/
theorem readOn_unbounded (p : Production) (lexemes : List Lexeme) {w : Window}
    (hw : w.Within lexemes.length) :
    p.readOn (.indexed lexemes) w = some (p.read lexemes w) ∧
    ∃ plain, p.readOn (.unbounded lexemes) w = some plain ∧
      plain.toOption = (p.read lexemes w).toOption ∧
      ((∀ op q, p = .operation op → ¬ CutsApart lexemes op w q) ∧ plain = p.read lexemes w ∨
        ∃ op q e, p = .operation op ∧ CutsApart lexemes op w q ∧
          p.read lexemes w = .error .endOfInput ∧ plain = .error e ∧
          LeftFails lexemes op ⟨w.lo, q⟩ e) := by
  have hL := Layout.sound_indexed lexemes
  have hL' := Layout.sound_unbounded lexemes
  have hS := Layout.scans_indexed lexemes
  have hcut : (Layout.indexed lexemes).SameCut (Layout.unbounded lexemes).find? :=
    Layout.sameCut_unbounded lexemes
  have hsize := Layout.within_indexed.2 hw
  have hread := p.read_eq_eval lexemes hw
  refine ⟨by rw [readOn_eq hL p hsize, hread], _, readOn_eq hL' p hsize, ?_⟩
  -- The answers to questions are the same, so only the rule itself could give something else.
  have hagree := Grammar.agreeBelow hL hS hL' hcut w.enoughDepth
  rw [hread]
  by_cases hp : ∀ op, p ≠ .operation op
  · have heval : (p.rule (.unbounded lexemes)).eval (.unbounded lexemes) w =
        (p.rule (.indexed lexemes)).eval (.indexed lexemes) w := by
      rw [show p.rule (.unbounded lexemes) = p.rule (.indexed lexemes) from p.rule_withSearch hp]
      exact (p.spec_rule hL hsize).eval_congr hL hagree
    rw [heval]
    exact ⟨rfl, .inl ⟨fun op _ hop => absurd hop (hp op), rfl⟩⟩
  · obtain ⟨op, rfl⟩ : ∃ op, p = .operation op := by simpa using hp
    have hdepth := w.lt_enoughDepth
    rw [eval_operation, eval_operation]
    rcases Grammar.eval_binary_withSearch hL hS hL' hcut hsize hsize.holds (by omega) hagree op with
      ⟨hsame, heq⟩ | ⟨hnone, q, c, e, hsome, hclosing, hreal, hplain, hleft⟩
    · rw [show (Grammar.binary (.unbounded lexemes) op).eval (.unbounded lexemes) w =
        (Grammar.binary (.indexed lexemes) op).eval (.indexed lexemes) w from heq]
      refine ⟨rfl, .inl ⟨?_, rfl⟩⟩
      -- Searches that cut alike do not cut apart.
      rintro op' q hop hapart
      obtain rfl := Production.operation.inj hop
      cases hapart.indexed.symm.trans (hsame.symm.trans hapart.unbounded)
    · rw [hreal, show (Grammar.binary (.unbounded lexemes) op).eval (.unbounded lexemes) w =
        .error e from hplain]
      obtain ⟨hlo, hhi, -⟩ := hL'.find hsize hsome
      refine ⟨rfl, .inr ⟨op, q, e, rfl, ⟨hnone, hsome, ?_⟩, rfl, rfl, ?_⟩⟩
      · rw [hclosing]
        exact Option.some_ne_none c
      · exact leftFails_of_eval ⟨hlo, Nat.le_trans (Nat.le_of_lt hhi) hw.2⟩ hleft

/-- The lexemes of `a)(+b`: the sum is outside of parentheses, but behind one that closes
nothing. -/
def unmatched : List Lexeme :=
  [⟨.ident "a", ⟨0, 1⟩, "a"⟩, ⟨.symbol .rparen, ⟨1, 2⟩, ")"⟩, ⟨.symbol .lparen, ⟨2, 3⟩, "("⟩,
   ⟨.symbol .plus, ⟨3, 4⟩, "+"⟩, ⟨.ident "b", ⟨4, 5⟩, "b"⟩]

theorem cutsApart_unmatched : CutsApart unmatched .add ⟨0, 5⟩ 3 where
  indexed := by
    rw [Layout.find?_indexed (by simp [Window.Within, unmatched])]
    decide
  unbounded := by decide
  closing := by
    rw [Layout.closing?_indexed (by simp [Window.Within, unmatched])]
    decide

theorem readOn_unbounded_unmatched :
    Window.Within ⟨0, 5⟩ unmatched.length ∧
    (expr.readOn (.unbounded unmatched) ⟨0, 5⟩).map Except.toOption =
      some (expr.read unmatched ⟨0, 5⟩).toOption ∧
    ((operation .add).readOn (.unbounded unmatched) ⟨0, 5⟩).map Except.toOption =
      some ((operation .add).read unmatched ⟨0, 5⟩).toOption := by
  have hw : Window.Within ⟨0, 5⟩ unmatched.length := by simp [Window.Within, unmatched]
  refine ⟨hw, ?_, ?_⟩
  · obtain ⟨plain, hplain, hsame, -⟩ := (readOn_unbounded expr unmatched hw).2
    rw [hplain, Option.map_some, hsame]
  · obtain ⟨plain, hplain, hsame, -⟩ := (readOn_unbounded (operation .add) unmatched hw).2
    rw [hplain, Option.map_some, hsame]

/-- The rule of the sum shows which search is made: with the tables it finds no operator, and with the
other search its left operand ends before the parenthesis. -/
theorem operation_unmatched :
    (operation .add).read unmatched ⟨0, 5⟩ = .error .endOfInput ∧
    (operation .add).readOn (.unbounded unmatched) ⟨0, 5⟩ =
      some (.error (.wrongForm ⟨.symbol .rparen, ⟨1, 2⟩, ")"⟩ (.operation .add))) := by
  have hw : Window.Within ⟨0, 5⟩ unmatched.length := by simp [Window.Within, unmatched]
  constructor
  · rw [read_eq_eval _ _ hw, eval_operation,
      Grammar.eval_binary_of_none cutsApart_unmatched.indexed]
    rfl
  · rw [readOn_eq (Layout.sound_unbounded unmatched) _ (Layout.within_indexed.2 hw)]
    with_unfolding_all rfl

end Production

end Scriptlet
