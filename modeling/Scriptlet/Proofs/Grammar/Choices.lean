import Mathlib.Data.List.Induction
import Scriptlet.Proofs.Grammar.Conditions

/-!
# Which rule reads

A level chooses among rules: by the next token, by trying them in order, or by taking the one that
reads furthest.  Every choice has its condition, so what a level reads was read by a rule for one kind
of expression, a `NodeRule`; and to show that a level reads something, nothing need be said about
rules other than that they fail or stop earlier.
-/

namespace Scriptlet.Grammar

open Rule

variable {L : Layout} {lo hi k : Nat} {e : Expr}

/-! ## By the next token -/

theorem parses_short :
    (short L).Parses L lo hi e k ↔ (literal L).Parses L lo hi e k ∨ (index L).Parses L lo hi e k ∨
      (index L).Fails L lo hi ∧ (variableName L).Parses L lo hi e k := by
  simp only [short, parses_first_bind]
  constructor
  · rintro ⟨l, hlt, hget, h⟩
    split at h
    · exact .inl h
    · exact .inl h
    · exact .inl h
    · exact .inl h
    · exact .inr (parses_orElse.1 h)
    · exact (parses_fail.1 h).elim
  · rintro (h | h)
    · obtain ⟨l, hlt, hget, hliteral, -⟩ := parses_literal.1 h
      refine ⟨l, hlt, hget, ?_⟩
      cases htoken : l.token <;> simp [Lexeme.literal?, htoken] at hliteral ⊢ <;> exact h
    · obtain ⟨n, hlt, l, hget, htoken, -⟩ : ∃ n, L.NameNext lo hi n := by
        rcases h with h | ⟨-, h⟩
        · obtain ⟨n, hn, -⟩ := parses_index.1 h
          exact ⟨n, hn⟩
        · obtain ⟨n, hn, -⟩ := parses_variableName.1 h
          exact ⟨n, hn⟩
      refine ⟨l, hlt, hget, ?_⟩
      simp only [htoken]
      exact parses_orElse.2 h

theorem parses_control :
    (control L).Parses L lo hi e k ↔ (branch L).Parses L lo hi e k ∨
      (forIn L).Parses L lo hi e k ∨ (loop L).Parses L lo hi e k ∨ (ret L).Parses L lo hi e k := by
  simp only [control, parses_first_bind]
  constructor
  · rintro ⟨l, hlt, hget, h⟩
    split at h
    · exact .inl h
    · exact .inr (.inl h)
    · exact .inr (.inr (.inl h))
    · exact .inr (.inr (.inr h))
    · exact (parses_fail.1 h).elim
  · rintro (h | h | h | h)
    · obtain ⟨⟨hlt, l, hget, htoken⟩, -⟩ := parses_branch.1 h
      exact ⟨l, hlt, hget, by rwa [htoken]⟩
    · obtain ⟨⟨hlt, l, hget, htoken⟩, -⟩ := parses_forIn.1 h
      exact ⟨l, hlt, hget, by rwa [htoken]⟩
    · obtain ⟨⟨hlt, l, hget, htoken⟩, -⟩ := parses_loop.1 h
      exact ⟨l, hlt, hget, by rwa [htoken]⟩
    · obtain ⟨⟨hlt, l, hget, htoken⟩, -⟩ := parses_ret.1 h
      exact ⟨l, hlt, hget, by rwa [htoken]⟩

/-! ## In order -/

theorem parses_firstOf {form : Form} {rules : List (Rule Expr)} :
    (firstOf L form rules).Parses L lo hi e k ↔
      (∃ t, L.Next lo hi t) ∧ ∃ before r after, rules = before ++ r :: after ∧
        (∀ r' ∈ before, r'.Fails L lo hi) ∧ r.Parses L lo hi e k := by
  have hfold : ∀ l, (rules.foldr orElse (fail (.wrongForm l form))).Parses L lo hi e k ↔
      ∃ before r after, rules = before ++ r :: after ∧
        (∀ r' ∈ before, r'.Fails L lo hi) ∧ r.Parses L lo hi e k := by
    intro l
    induction rules with
    | nil => simp [parses_fail]
    | cons r rules ih =>
      -- Either the first rule reads, or it fails and joins those that failed before.
      rw [List.foldr_cons, parses_orElse, ih]
      constructor
      · rintro (h | ⟨hr, before, s, after, rfl, hbefore, h⟩)
        · exact ⟨[], r, rules, rfl, by simp, h⟩
        · exact ⟨r :: before, s, after, rfl, List.forall_mem_cons.2 ⟨hr, hbefore⟩, h⟩
      · rintro ⟨before, s, after, hrules, hbefore, h⟩
        cases before with
        | nil =>
          obtain ⟨rfl, rfl⟩ := List.cons.inj hrules
          exact .inl h
        | cons r' before =>
          obtain ⟨rfl, rfl⟩ := List.cons.inj hrules
          obtain ⟨hr, hbefore⟩ := List.forall_mem_cons.1 hbefore
          exact .inr ⟨hr, before, s, after, rfl, hbefore, h⟩
  simp only [firstOf, parses_first_bind, hfold]
  constructor
  · rintro ⟨l, hlt, hget, h⟩
    exact ⟨⟨l.token, hlt, l, hget, rfl⟩, h⟩
  · rintro ⟨⟨_, hlt, l, hget, rfl⟩, h⟩
    exact ⟨l, hlt, hget, h⟩

theorem parses_math :
    (math L).Parses L lo hi e k ↔ (∃ t, L.Next lo hi t) ∧ ∃ before r after,
      [neg L, not L, binary L .range, binary L .sub, binary L .add, binary L .mul, binary L .div,
        parens L] = before ++ r :: after ∧
      (∀ r' ∈ before, r'.Fails L lo hi) ∧ r.Parses L lo hi e k := parses_firstOf

theorem parses_comparison :
    (comparison L).Parses L lo hi e k ↔ (∃ t, L.Next lo hi t) ∧ ∃ before r after,
      [binary L .and, binary L .or, binary L .less, binary L .greater] = before ++ r :: after ∧
      (∀ r' ∈ before, r'.Fails L lo hi) ∧ r.Parses L lo hi e k := parses_firstOf

/-- What arithmetic is read as. -/
theorem math_cases (h : (math L).Parses L lo hi e k) :
    (neg L).Parses L lo hi e k ∨ (not L).Parses L lo hi e k ∨
      (∃ op ∈ [BinOp.range, .sub, .add, .mul, .div], (binary L op).Parses L lo hi e k) ∨
        (parens L).Parses L lo hi e k := by
  obtain ⟨-, before, r, after, hrules, -, hr⟩ := parses_math.1 h
  have hmem : r ∈ before ++ r :: after := by simp
  rw [← hrules] at hmem
  simp only [List.mem_cons, List.not_mem_nil, or_false] at hmem
  rcases hmem with rfl | rfl | rfl | rfl | rfl | rfl | rfl | rfl
  · exact .inl hr
  · exact .inr (.inl hr)
  · exact .inr (.inr (.inl ⟨.range, by simp, hr⟩))
  · exact .inr (.inr (.inl ⟨.sub, by simp, hr⟩))
  · exact .inr (.inr (.inl ⟨.add, by simp, hr⟩))
  · exact .inr (.inr (.inl ⟨.mul, by simp, hr⟩))
  · exact .inr (.inr (.inl ⟨.div, by simp, hr⟩))
  · exact .inr (.inr (.inr hr))

/-- What connectives and comparisons are read as. -/
theorem comparison_cases (h : (comparison L).Parses L lo hi e k) :
    ∃ op, (binary L op).Parses L lo hi e k := by
  obtain ⟨-, before, r, after, hrules, -, hr⟩ := parses_comparison.1 h
  have hmem : r ∈ before ++ r :: after := by simp
  rw [← hrules] at hmem
  simp only [List.mem_cons, List.not_mem_nil, or_false] at hmem
  rcases hmem with rfl | rfl | rfl | rfl
  · exact ⟨.and, hr⟩
  · exact ⟨.or, hr⟩
  · exact ⟨.less, hr⟩
  · exact ⟨.greater, hr⟩

/-- The second token tells assignments, calls and stores apart, so their order does not matter. -/
theorem parses_top :
    (top L).Parses L lo hi e k ↔ (assign L).Parses L lo hi e k ∨ (call L).Parses L lo hi e k ∨
      (store L).Parses L lo hi e k ∨ (control L).Parses L lo hi e k ∨
        (binding L).Parses L lo hi e k := by
  have hassign : ∀ {t}, L.Next (lo + 1) hi t → t ≠ .symbol .equals →
      (assign L).Fails L lo hi := by
    intro t hnext hne
    rw [fails_iff]
    intro e k h
    obtain ⟨n, -, hequals, -⟩ := parses_assign.1 h
    exact hne (hnext.unique hequals)
  have hcall : ∀ {t}, L.Next (lo + 1) hi t → t ≠ .symbol .lparen → (call L).Fails L lo hi := by
    intro t hnext hne
    rw [fails_iff]
    intro e k h
    obtain ⟨n, -, hopen, -⟩ := parses_call.1 h
    exact hne (hnext.unique hopen)
  simp only [top, parses_first_bind]
  constructor
  · rintro ⟨l, hlt, hget, h⟩
    split at h
    · obtain ⟨-, before, r, after, hrules, -, hr⟩ := parses_firstOf.1 h
      have hmem : r ∈ [assign L, call L, store L] := by simp [hrules]
      simp only [List.mem_cons, List.not_mem_nil, or_false] at hmem
      rcases hmem with rfl | rfl | rfl
      · exact .inl hr
      · exact .inr (.inl hr)
      · exact .inr (.inr (.inl hr))
    · exact .inr (.inr (.inr (.inl h)))
    · exact .inr (.inr (.inr (.inl h)))
    · exact .inr (.inr (.inr (.inl h)))
    · exact .inr (.inr (.inr (.inl h)))
    · exact .inr (.inr (.inr (.inr h)))
    · exact .inr (.inr (.inr (.inr h)))
    · exact (parses_fail.1 h).elim
    · exact (parses_fail.1 h).elim
  -- In the other direction, what is tried before has to fail.
  · rintro (h | h | h | h | h)
    · obtain ⟨n, hname, -⟩ := parses_assign.1 h
      obtain ⟨hlt, l, hget, htoken, -⟩ := id hname
      refine ⟨l, hlt, hget, ?_⟩
      simp only [htoken, parses_firstOf]
      exact ⟨⟨_, hname.next⟩, [], _, _, rfl, by simp, h⟩
    · obtain ⟨n, hname, hopen, -⟩ := parses_call.1 h
      obtain ⟨hlt, l, hget, htoken, -⟩ := id hname
      refine ⟨l, hlt, hget, ?_⟩
      simp only [htoken, parses_firstOf]
      exact ⟨⟨_, hname.next⟩, [assign L], _, _, rfl, by simpa using hassign hopen (by simp), h⟩
    · obtain ⟨n, hname, hopen, -⟩ := parses_store.1 h
      obtain ⟨hlt, l, hget, htoken, -⟩ := id hname
      refine ⟨l, hlt, hget, ?_⟩
      simp only [htoken, parses_firstOf]
      exact ⟨⟨_, hname.next⟩, [assign L, call L], _, _, rfl,
        by simpa using ⟨hassign hopen (by simp), hcall hopen (by simp)⟩, h⟩
    · obtain ⟨kw, ⟨hlt, l, hget, htoken⟩, hkw⟩ : ∃ kw, L.Next lo hi (.keyword kw) ∧
          (kw = .ifKw ∨ kw = .forKw ∨ kw = .whileKw ∨ kw = .returnKw) := by
        rcases parses_control.1 h with h | h | h | h
        · exact ⟨_, (parses_branch.1 h).1, by simp⟩
        · exact ⟨_, (parses_forIn.1 h).1, by simp⟩
        · exact ⟨_, (parses_loop.1 h).1, by simp⟩
        · exact ⟨_, (parses_ret.1 h).1, by simp⟩
      refine ⟨l, hlt, hget, ?_⟩
      rcases hkw with rfl | rfl | rfl | rfl <;> rwa [htoken]
    · obtain ⟨mutable, ⟨hlt, l, hget, htoken⟩, -⟩ := parses_binding.1 h
      refine ⟨l, hlt, hget, ?_⟩
      cases mutable <;> rwa [htoken]

/-! ## By length -/

/-- Of these levels, the first one that reads as far as any of them reads `e`, up to `k`. -/
def Furthest (L : Layout) (levels : List Level) (lo hi : Nat) (e : Expr) (k : Nat) : Prop :=
  ∃ before l after, levels = before ++ l :: after ∧ (level l).Parses L lo hi e k ∧
    (∀ l' ∈ before, ∀ e' k', (level l').Parses L lo hi e' k' → k' < k) ∧
      ∀ l' ∈ after, ∀ e' k', (level l').Parses L lo hi e' k' → k' ≤ k

theorem Furthest.le {levels : List Level} (h : Furthest L levels lo hi e k) {l : Level}
    (hl : l ∈ levels) {e' : Expr} {k' : Nat} (hread : (level l).Parses L lo hi e' k') :
    k' ≤ k := by
  obtain ⟨before, l₀, after, rfl, hl₀, hbefore, hafter⟩ := h
  rcases List.mem_append.1 hl with hmem | hmem
  · exact Nat.le_of_lt (hbefore l hmem e' k' hread)
  · rcases List.mem_cons.1 hmem with rfl | hmem
    · exact Nat.le_of_eq (hread.unique hl₀).2
    · exact hafter l hmem e' k' hread

/-- Levels that read the same in two windows have the same best reading. -/
theorem Furthest.congr {levels : List Level} {hi' : Nat}
    (hlevels : ∀ l ∈ levels, ∀ e k, (level l).Parses L lo hi e k ↔ (level l).Parses L lo hi' e k)
    (h : Furthest L levels lo hi e k) : Furthest L levels lo hi' e k := by
  obtain ⟨before, l, after, rfl, hl, hbefore, hafter⟩ := h
  refine ⟨before, l, after, rfl, (hlevels l (by simp) e k).1 hl, ?_, ?_⟩
  · intro l' hl' e' k' hread
    exact hbefore l' hl' e' k' ((hlevels l' (by simp [hl']) e' k').2 hread)
  · intro l' hl' e' k' hread
    exact hafter l' hl' e' k' ((hlevels l' (by simp [hl']) e' k').2 hread)

/-- The best outcome so far is that of the level that reads furthest; there is none if all fail. -/
theorem foldl_longer_spec (L : Layout) (lo hi : Nat) (levels : List Level) :
    match levels.foldl (fun best l => longer best ((level l).eval L ⟨lo, hi⟩)) none with
    | none => ∀ l ∈ levels, (level l).Fails L lo hi
    | some (e, k) => Furthest L levels lo hi e k := by
  induction levels using List.reverseRecOn with
  | nil => simp
  | append_singleton levels l ih =>
    rw [List.foldl_concat]
    generalize levels.foldl (fun best l => longer best ((level l).eval L ⟨lo, hi⟩)) none = best at ih
    cases heval : (level l).eval L ⟨lo, hi⟩ with
    | error err =>
      have hfails : (level l).Fails L lo hi := ⟨err, heval⟩
      rw [longer_error]
      cases best with
      | none =>
        intro l' hl'
        rcases List.mem_append.1 hl' with hmem | hmem
        · exact ih l' hmem
        · rwa [List.mem_singleton.1 hmem]
      | some found =>
        obtain ⟨before, l₀, after, rfl, hl₀, hbefore, hafter⟩ := ih
        refine ⟨before, l₀, after ++ [l], by simp, hl₀, hbefore, ?_⟩
        intro l' hl' e' k' hread
        rcases List.mem_append.1 hl' with hmem | hmem
        · exact hafter l' hmem e' k' hread
        · rw [List.mem_singleton.1 hmem] at hread
          exact absurd hread (fails_iff.1 hfails e' k')
    | ok found =>
      obtain ⟨e, k⟩ := found
      have hread : (level l).Parses L lo hi e k := heval
      rw [longer_ok]
      cases best with
      | none =>
        refine ⟨levels, l, [], rfl, hread, fun l' hl' e' k' h => ?_, by simp⟩
        exact absurd h (fails_iff.1 (ih l' hl') e' k')
      | some best =>
        -- A later level wins only if it reads further than the best so far.
        by_cases hlt : best.2 < k
        · simp only [if_pos hlt]
          refine ⟨levels, l, [], rfl, hread, fun l' hl' e' k' h => ?_, by simp⟩
          exact Nat.lt_of_le_of_lt (ih.le hl' h) hlt
        · simp only [if_neg hlt]
          obtain ⟨before, l₀, after, rfl, hl₀, hbefore, hafter⟩ := ih
          refine ⟨before, l₀, after ++ [l], by simp, hl₀, hbefore, ?_⟩
          intro l' hl' e' k' h
          rcases List.mem_append.1 hl' with hmem | hmem
          · exact hafter l' hmem e' k' h
          · rw [List.mem_singleton.1 hmem] at h
            rw [(h.unique hread).2]
            exact Nat.not_lt.1 hlt

/-- Nothing else is the best outcome. -/
theorem Furthest.unique {levels : List Level} {e' : Expr} {k' : Nat}
    (h : Furthest L levels lo hi e k) (h' : Furthest L levels lo hi e' k') : e = e' ∧ k = k' := by
  have hk : k = k' := by
    obtain ⟨before, l, after, rfl, hl, -⟩ := id h
    obtain ⟨before', l', after', hlevels, hl', -⟩ := id h'
    apply Nat.le_antisymm
    · exact h'.le (by simp) hl
    · rw [hlevels] at h
      exact h.le (by simp) hl'
  subst hk
  obtain ⟨before, l, after, rfl, hl, hbefore, -⟩ := h
  obtain ⟨before', l', after', hlevels, hl', hbefore', -⟩ := h'
  -- The earlier of two levels that read equally far would keep the later one from winning.
  rcases List.append_eq_append_iff.1 hlevels with ⟨between, rfl, heq⟩ | ⟨between, rfl, heq⟩
  · cases between with
    | nil =>
      obtain ⟨rfl, -⟩ := List.cons.inj heq
      exact ⟨(hl.unique hl').1, rfl⟩
    | cons l₁ between =>
      obtain ⟨rfl, -⟩ := List.cons.inj heq
      exact absurd (hbefore' l (by simp) e k hl) (Nat.lt_irrefl k)
  · cases between with
    | nil =>
      obtain ⟨rfl, -⟩ := List.cons.inj heq
      exact ⟨(hl.unique hl').1, rfl⟩
    | cons l₁ between =>
      obtain ⟨rfl, -⟩ := List.cons.inj heq
      exact absurd (hbefore l' (by simp) e' k hl') (Nat.lt_irrefl k)

theorem parses_expr :
    (expr L).Parses L lo hi e k ↔ (∃ t, L.Next lo hi t) ∧
      Furthest L [.top, .math, .comparison, .short] lo hi e k := by
  have hbest := foldl_longer_spec L lo hi [.top, .math, .comparison, .short]
  rw [← eval_longest] at hbest
  refine Iff.trans parses_first_bind ?_
  constructor
  · rintro ⟨l, hlt, hget, h⟩
    refine ⟨⟨l.token, hlt, l, hget, rfl⟩, ?_⟩
    replace h : Query.eval _ (Query.bind _ _) = Except.ok (e, k) := h
    rw [Query.eval_bind] at h
    cases hfound : (longest [.top, .math, .comparison, .short] none ⟨lo, hi⟩).eval
        (Goal.answer L) with
    | none =>
      rw [hfound] at h
      cases h
    | some found =>
      rw [hfound] at h hbest
      obtain ⟨rfl, rfl⟩ := Prod.mk.inj (Except.ok.inj h)
      exact hbest
  · rintro ⟨⟨_, hlt, l, hget, rfl⟩, h⟩
    refine ⟨l, hlt, hget, ?_⟩
    show Query.eval _ (Query.bind _ _) = _
    rw [Query.eval_bind]
    cases hfound : (longest [.top, .math, .comparison, .short] none ⟨lo, hi⟩).eval
        (Goal.answer L) with
    | none =>
      rw [hfound] at hbest
      obtain ⟨before, l', after, hlevels, hl', -⟩ := h
      exact absurd hl' (fails_iff.1 (hbest l' (by simp [hlevels])) e k)
    | some found =>
      rw [hfound] at hbest
      obtain ⟨rfl, rfl⟩ := hbest.unique h
      rfl

/-- What a level reads is what its rule reads. -/
theorem parses_level (hL : L.Sound) {l : Level} (hlo : lo ≤ hi) (hhi : hi ≤ L.lexemes.size) :
    (level l).Parses L lo hi e k ↔ (ofLevel L l).Parses L lo hi e k := by
  rw [Parses, eval_level, Goal.answer_eq hL hlo hhi, Parses]

/-! ## Rules for one kind of expression -/

/-- The rules that read one kind of expression each. -/
inductive NodeRule (L : Layout) : Rule Expr → Prop
  | literal : NodeRule L (literal L)
  | variableName : NodeRule L (variableName L)
  | index : NodeRule L (index L)
  | neg : NodeRule L (neg L)
  | not : NodeRule L (not L)
  | binary (op : BinOp) : NodeRule L (binary L op)
  | parens : NodeRule L (parens L)
  | assign : NodeRule L (assign L)
  | call : NodeRule L (call L)
  | store : NodeRule L (store L)
  | branch : NodeRule L (branch L)
  | forIn : NodeRule L (forIn L)
  | loop : NodeRule L (loop L)
  | ret : NodeRule L (ret L)
  | binding : NodeRule L (binding L)

/-- What a level other than the one of all expressions reads, one of the rules reads. -/
theorem exists_nodeRule_ofLevel {l : Level} (hl : l ≠ .expr)
    (h : (ofLevel L l).Parses L lo hi e k) : ∃ r, NodeRule L r ∧ r.Parses L lo hi e k := by
  cases l with
  | expr => exact absurd rfl hl
  | top =>
    rcases parses_top.1 h with h | h | h | h | h
    · exact ⟨_, .assign, h⟩
    · exact ⟨_, .call, h⟩
    · exact ⟨_, .store, h⟩
    · rcases parses_control.1 h with h | h | h | h
      · exact ⟨_, .branch, h⟩
      · exact ⟨_, .forIn, h⟩
      · exact ⟨_, .loop, h⟩
      · exact ⟨_, .ret, h⟩
    · exact ⟨_, .binding, h⟩
  | math =>
    rcases math_cases h with h | h | ⟨op, -, h⟩ | h
    · exact ⟨_, .neg, h⟩
    · exact ⟨_, .not, h⟩
    · exact ⟨_, .binary op, h⟩
    · exact ⟨_, .parens, h⟩
  | comparison =>
    obtain ⟨op, h⟩ := comparison_cases h
    exact ⟨_, .binary op, h⟩
  | short =>
    rcases parses_short.1 h with h | h | ⟨-, h⟩
    · exact ⟨_, .literal, h⟩
    · exact ⟨_, .index, h⟩
    · exact ⟨_, .variableName, h⟩

theorem exists_nodeRule (hL : L.Sound) (hlo : lo ≤ hi) (hhi : hi ≤ L.lexemes.size) {l : Level}
    (h : (level l).Parses L lo hi e k) : ∃ r, NodeRule L r ∧ r.Parses L lo hi e k := by
  by_cases hl : l = .expr
  · subst hl
    obtain ⟨-, before, l', after, hlevels, hl', -⟩ := parses_expr.1 ((parses_level hL hlo hhi).1 h)
    have hmem : l' ∈ before ++ l' :: after := by simp
    have hne : l' ≠ .expr := by
      rw [← hlevels] at hmem
      rintro rfl
      simp at hmem
    exact exists_nodeRule_ofLevel hne ((parses_level hL hlo hhi).1 hl')
  · exact exists_nodeRule_ofLevel hl ((parses_level hL hlo hhi).1 h)

/-! ## Where expressions stand -/

theorem spanOf_succ {l : Lexeme} (h : L.lexemes[lo]? = some l) : L.spanOf lo (lo + 1) = l.span := by
  rw [Layout.spanOf, if_neg (by omega), Nat.add_sub_cancel, h]
  rfl

theorem span_nodeRule (hL : L.Sound) (hlo : lo ≤ hi) (hhi : hi ≤ L.lexemes.size) {r : Rule Expr}
    (hr : NodeRule L r) (h : r.Parses L lo hi e k) : e.span = L.spanOf lo k := by
  cases hr with
  | literal =>
    obtain ⟨l, -, hget, hliteral, rfl⟩ := parses_literal.1 h
    rw [spanOf_succ hget]
    cases htoken : l.token <;> simp [Lexeme.literal?, htoken] at hliteral <;> rw [← hliteral] <;> rfl
  | variableName =>
    obtain ⟨n, ⟨-, l, hget, -, hspan⟩, rfl, rfl⟩ := parses_variableName.1 h
    rw [spanOf_succ hget, hspan, Expr.span]
  | index =>
    obtain ⟨-, -, -, -, -, -, -, rfl, rfl⟩ := parses_index.1 h
    rfl
  | neg =>
    obtain ⟨-, -, -, -, rfl, rfl⟩ := parses_neg.1 h
    rfl
  | not =>
    obtain ⟨-, -, -, -, rfl, rfl⟩ := parses_not.1 h
    rfl
  | binary op =>
    obtain ⟨-, -, -, -, -, -, -, rfl, rfl⟩ := (parses_binary hL hlo hhi).1 h
    rfl
  | parens =>
    obtain ⟨-, -, -, -, -, -, rfl, rfl⟩ := (parses_parens hL hhi).1 h
    rfl
  | assign =>
    obtain ⟨-, -, -, -, -, -, rfl, rfl⟩ := parses_assign.1 h
    rfl
  | call =>
    obtain ⟨-, -, -, -, -, -, rfl, rfl⟩ := parses_call.1 h
    rfl
  | store =>
    obtain ⟨-, -, -, -, -, -, -, -, -, -, -, rfl, rfl⟩ := parses_store.1 h
    rfl
  | branch =>
    obtain ⟨-, -, -, -, -, -, -, -, -, ⟨-, -, -, -, rfl, rfl⟩ | ⟨-, rfl, rfl⟩⟩ := parses_branch.1 h
    · rfl
    · rfl
  | forIn =>
    obtain ⟨-, -, -, -, -, -, -, -, -, -, -, -, rfl, rfl⟩ := parses_forIn.1 h
    rfl
  | loop =>
    obtain ⟨-, -, -, -, -, -, -, -, -, rfl, rfl⟩ := parses_loop.1 h
    rfl
  | ret =>
    obtain ⟨-, ⟨-, -, -, rfl, rfl⟩ | ⟨-, rfl, rfl⟩⟩ := parses_ret.1 h
    · rfl
    · rfl
  | binding =>
    obtain ⟨-, -, -, -, -, -, -, -, rfl, rfl⟩ := parses_binding.1 h
    rfl

/-- An expression stands where its first and its last token stand. -/
theorem span_level (hL : L.Sound) (hlo : lo ≤ hi) (hhi : hi ≤ L.lexemes.size) {l : Level}
    (h : (level l).Parses L lo hi e k) : e.span = L.spanOf lo k := by
  obtain ⟨r, hr, h⟩ := exists_nodeRule hL hlo hhi h
  exact span_nodeRule hL hlo hhi hr h

end Scriptlet.Grammar
