import Scriptlet.Proofs.Grammar.Braces

/-!
# When a rule reads what

`Rule.Parses` says that a rule reads something and where it stops.  For each way to make a rule from
others and for each rule of the grammar there is one equivalence: it reads just this, and stops just
there, exactly if certain tokens come next and certain expressions are read behind them.  Whoever
knows these conditions need not look into the rules.
-/

namespace Scriptlet

variable {α β : Type} {L : Layout} {lo hi k : Nat}

/-- On the lexemes from `lo` up to `hi` the rule reads `a` and stops before lexeme `k`. -/
def Rule.Parses (L : Layout) (r : Rule α) (lo hi : Nat) (a : α) (k : Nat) : Prop :=
  r.eval L ⟨lo, hi⟩ = .ok (a, k)

/-- The literal that a lexeme spells. -/
def Lexeme.literal? (l : Lexeme) : Option Expr :=
  match l.token with
  | .int n => some (.int l.span n)
  | .bool b => some (.bool l.span b)
  | .char c => some (.char l.span c)
  | .str t => some (.str l.span t)
  | _ => none

namespace Layout

/-- The token of lexeme `i` is `t`. -/
def At (L : Layout) (i : Nat) (t : Token) : Prop := ∃ l, L.lexemes[i]? = some l ∧ l.token = t

/-- The lexemes from `lo` up to `hi` start with the token `t`. -/
def Next (L : Layout) (lo hi : Nat) (t : Token) : Prop := lo < hi ∧ L.At lo t

/-- The lexemes from `lo` up to `hi` start with the identifier `n`. -/
def NameNext (L : Layout) (lo hi : Nat) (n : Name) : Prop :=
  lo < hi ∧ ∃ l, L.lexemes[lo]? = some l ∧ l.token = .ident n.text ∧ l.span = n.span

theorem NameNext.next {n : Name} (h : L.NameNext lo hi n) : L.Next lo hi (.ident n.text) := by
  obtain ⟨hlt, l, hget, htoken, -⟩ := h
  exact ⟨hlt, l, hget, htoken⟩

/-- Behind the symbol `p`, if it is there; some token must be. -/
def Skips (L : Layout) (p : Punct) (lo hi k : Nat) : Prop :=
  L.Next lo hi (.symbol p) ∧ k = lo + 1 ∨ (∃ t, L.Next lo hi t ∧ t ≠ .symbol p) ∧ k = lo

theorem Skips.le {p : Punct} {k : Nat} (h : L.Skips p lo hi k) : lo ≤ k := by
  rcases h with ⟨-, rfl⟩ | ⟨-, rfl⟩
  · exact Nat.le_succ lo
  · exact Nat.le_refl _

theorem At.unique {t u : Token} (h : L.At lo t) (h' : L.At lo u) : t = u := by
  obtain ⟨l, hget, rfl⟩ := h
  obtain ⟨l', hget', rfl⟩ := h'
  rw [Option.some.inj (hget.symm.trans hget')]

theorem At.lt_size {t : Token} (h : L.At lo t) : lo < L.lexemes.size := by
  obtain ⟨l, hget, -⟩ := h
  exact (Array.getElem?_eq_some_iff.1 hget).1

theorem Next.unique {t u : Token} (h : L.Next lo hi t) {hi' : Nat} (h' : L.Next lo hi' u) :
    t = u := h.2.unique h'.2

end Layout

/-! ## Ways to make rules -/

namespace Rule

variable {a : α} {b : β}

/-- A rule reads at most one thing at a place. -/
theorem Parses.unique {r : Rule α} {a' : α} {k' : Nat} (h : r.Parses L lo hi a k)
    (h' : r.Parses L lo hi a' k') : a = a' ∧ k = k' := by
  have heq := Except.ok.inj (Eq.trans (Eq.symm h) h')
  exact ⟨congrArg Prod.fst heq, congrArg Prod.snd heq⟩

/-- A rule fails where there is nothing that it reads. -/
theorem fails_iff {r : Rule α} : r.Fails L lo hi ↔ ∀ a k, ¬ r.Parses L lo hi a k := by
  constructor
  · rintro ⟨e, he⟩ a k h
    cases Eq.trans (Eq.symm he) h
  · intro h
    cases heval : r.eval L ⟨lo, hi⟩ with
    | error e => exact ⟨e, heval⟩
    | ok found => exact absurd heval (h found.1 found.2)

/-- One rule after the other: the second one reads from where the first one stopped. -/
theorem parses_bind {r : Rule α} {f : α → Rule β} :
    (r >>= f).Parses L lo hi b k ↔
      ∃ a j, r.Parses L lo hi a j ∧ (f a).Parses L j hi b k := by
  rw [Parses, eval_bind]
  constructor
  · intro h
    cases heval : r.eval L ⟨lo, hi⟩ with
    | error e =>
      rw [heval] at h
      cases h
    | ok found =>
      rw [heval] at h
      exact ⟨found.1, found.2, heval, h⟩
  · rintro ⟨a, j, hr, hf⟩
    rw [show r.eval L ⟨lo, hi⟩ = .ok (a, j) from hr]
    exact hf

theorem parses_pure {a' : α} : (pure a : Rule α).Parses L lo hi a' k ↔ a' = a ∧ k = lo := by
  constructor
  · intro h
    obtain ⟨rfl, rfl⟩ := Prod.mk.inj (Except.ok.inj h)
    exact ⟨rfl, rfl⟩
  · rintro ⟨rfl, rfl⟩
    rfl

theorem parses_fail {e : SyntaxError} : (fail e : Rule α).Parses L lo hi a k ↔ False := by
  constructor
  · intro h
    cases h
  · exact False.elim

/-- The second rule reads where the first one fails. -/
theorem parses_orElse {r s : Rule α} :
    (orElse r s).Parses L lo hi a k ↔
      r.Parses L lo hi a k ∨ r.Fails L lo hi ∧ s.Parses L lo hi a k := by
  rw [Parses, eval_orElse]
  constructor
  · intro h
    cases heval : r.eval L ⟨lo, hi⟩ with
    | error e =>
      rw [heval] at h
      exact .inr ⟨⟨e, heval⟩, h⟩
    | ok found =>
      rw [heval] at h
      exact .inl (Eq.trans heval h)
  · rintro (hr | ⟨⟨e, he⟩, hs⟩)
    · rw [show r.eval L ⟨lo, hi⟩ = .ok (a, k) from hr]
    · rw [he]
      exact hs

theorem parses_here_bind {f : Nat → Rule β} :
    (here >>= f).Parses L lo hi b k ↔ (f lo).Parses L lo hi b k := by
  rw [Parses, eval_bind]
  exact Iff.rfl

theorem parses_window_bind {f : Window → Rule β} :
    (window >>= f).Parses L lo hi b k ↔ (f ⟨lo, hi⟩).Parses L lo hi b k := by
  rw [Parses, eval_bind]
  exact Iff.rfl

theorem parses_jump_bind {p : Nat} {f : Unit → Rule β} :
    (jump p >>= f).Parses L lo hi b k ↔ (f ()).Parses L p hi b k := by
  rw [Parses, eval_bind]
  exact Iff.rfl

theorem parses_sized {r : Nat → Rule α} :
    (sized r).Parses L lo hi a k ↔ (r (hi - lo + 1)).Parses L lo hi a k := Iff.rfl

end Rule

namespace Grammar

open Rule

/-! ## Single tokens -/

variable {b : β}

/-- A look at the next lexeme; there must be one. -/
theorem parses_first_bind {f : Lexeme → Rule β} :
    (first L >>= f).Parses L lo hi b k ↔
      ∃ l, lo < hi ∧ L.lexemes[lo]? = some l ∧ (f l).Parses L lo hi b k := by
  have hfirst : ∀ l j, (first L).Parses L lo hi l j ↔
      lo < hi ∧ L.lexemes[lo]? = some l ∧ j = lo := by
    intro l j
    simp only [Parses, Rule.eval, first, Window.first]
    constructor
    · cases hget : Window.get? ⟨lo, hi⟩ L.lexemes 0 with
      | none => exact fun h => by cases h
      | some l' =>
        intro h
        obtain ⟨rfl, rfl⟩ := Prod.mk.inj (Except.ok.inj h)
        exact ⟨(get?_zero hget).1, (get?_zero hget).2, rfl⟩
    · rintro ⟨hlt, hget, rfl⟩
      rw [Window.get?_zero_of_lt hlt, hget]
      rfl
  rw [parses_bind]
  simp only [hfirst]
  constructor
  · rintro ⟨l, _, ⟨hlt, hget, rfl⟩, h⟩
    exact ⟨l, hlt, hget, h⟩
  · rintro ⟨l, hlt, hget, h⟩
    exact ⟨l, lo, ⟨hlt, hget, rfl⟩, h⟩

theorem parses_advance_bind {f : Unit → Rule β} (hlt : lo < hi) :
    (advance >>= f).Parses L lo hi b k ↔ (f ()).Parses L (lo + 1) hi b k := by
  have hdrop : advance.eval L ⟨lo, hi⟩ = .ok ((), lo + 1) := by
    show Except.ok ((), min (lo + 1) hi) = _
    rw [Nat.min_eq_left hlt]
  rw [Parses, eval_bind, hdrop]
  exact Iff.rfl

/-- A token that is waited for. -/
theorem parses_expect_bind {x : Expected} {t : Token} (hx : ∀ u, x.accepts u = true ↔ u = t)
    {r : Rule β} :
    (expect L x >>= fun _ => r).Parses L lo hi b k ↔
      L.Next lo hi t ∧ r.Parses L (lo + 1) hi b k := by
  rw [parses_bind]
  simp only [expect, parses_first_bind]
  constructor
  · rintro ⟨l', j, ⟨l, hlt, hget, h⟩, hr⟩
    by_cases haccepts : x.accepts l.token = true
    · rw [if_pos haccepts, parses_advance_bind hlt, parses_pure] at h
      obtain ⟨rfl, rfl⟩ := h
      exact ⟨⟨hlt, l', hget, (hx _).1 haccepts⟩, hr⟩
    · rw [if_neg haccepts, parses_fail] at h
      exact h.elim
  · rintro ⟨⟨hlt, l, hget, htoken⟩, hr⟩
    refine ⟨l, lo + 1, ⟨l, hlt, hget, ?_⟩, hr⟩
    rw [if_pos ((hx _).2 htoken), parses_advance_bind hlt, parses_pure]
    exact ⟨rfl, rfl⟩

theorem accepts_symbol_iff {p : Punct} {t : Token} :
    (Expected.symbol p).accepts t = true ↔ t = .symbol p :=
  ⟨eq_of_accepts_symbol, fun h => by simp [h, Expected.accepts]⟩

theorem accepts_keyword_iff {kw : Keyword} {t : Token} :
    (Expected.keyword kw).accepts t = true ↔ t = .keyword kw :=
  ⟨eq_of_accepts_keyword, fun h => by simp [h, Expected.accepts]⟩

theorem parses_symbol_bind {p : Punct} {r : Rule β} :
    (expect L (.symbol p) >>= fun _ => r).Parses L lo hi b k ↔
      L.Next lo hi (.symbol p) ∧ r.Parses L (lo + 1) hi b k :=
  parses_expect_bind fun _ => accepts_symbol_iff

theorem parses_keyword_bind {kw : Keyword} {r : Rule β} :
    (expect L (.keyword kw) >>= fun _ => r).Parses L lo hi b k ↔
      L.Next lo hi (.keyword kw) ∧ r.Parses L (lo + 1) hi b k :=
  parses_expect_bind fun _ => accepts_keyword_iff

/-- A symbol that is read if it is there; some token must be. -/
theorem parses_accept_bind {p : Punct} {f : Bool → Rule β} :
    (accept L (.symbol p) >>= f).Parses L lo hi b k ↔
      L.Next lo hi (.symbol p) ∧ (f true).Parses L (lo + 1) hi b k ∨
        (∃ t, L.Next lo hi t ∧ t ≠ .symbol p) ∧ (f false).Parses L lo hi b k := by
  rw [parses_bind]
  simp only [accept, parses_first_bind]
  constructor
  · rintro ⟨found, j, ⟨l, hlt, hget, h⟩, hf⟩
    by_cases haccepts : (Expected.symbol p).accepts l.token = true
    · rw [if_pos haccepts, parses_advance_bind hlt, parses_pure] at h
      obtain ⟨rfl, rfl⟩ := h
      exact .inl ⟨⟨hlt, l, hget, accepts_symbol_iff.1 haccepts⟩, hf⟩
    · rw [if_neg haccepts, parses_pure] at h
      obtain ⟨rfl, rfl⟩ := h
      exact .inr ⟨⟨l.token, ⟨hlt, l, hget, rfl⟩, fun h => haccepts (accepts_symbol_iff.2 h)⟩, hf⟩
  · rintro (⟨⟨hlt, l, hget, htoken⟩, hf⟩ | ⟨⟨t, ⟨hlt, l, hget, rfl⟩, hne⟩, hf⟩)
    · refine ⟨true, lo + 1, ⟨l, hlt, hget, ?_⟩, hf⟩
      rw [if_pos (accepts_symbol_iff.2 htoken), parses_advance_bind hlt, parses_pure]
      exact ⟨rfl, rfl⟩
    · refine ⟨false, lo, ⟨l, hlt, hget, ?_⟩, hf⟩
      rw [if_neg fun h => hne (accepts_symbol_iff.1 h), parses_pure]
      exact ⟨rfl, rfl⟩

/-- A symbol that makes no difference. -/
theorem parses_skip_bind {p : Punct} {r : Rule β} :
    (accept L (.symbol p) >>= fun _ => r).Parses L lo hi b k ↔
      ∃ j, L.Skips p lo hi j ∧ r.Parses L j hi b k := by
  rw [parses_accept_bind]
  constructor
  · rintro (⟨hnext, h⟩ | ⟨hother, h⟩)
    · exact ⟨lo + 1, .inl ⟨hnext, rfl⟩, h⟩
    · exact ⟨lo, .inr ⟨hother, rfl⟩, h⟩
  · rintro ⟨_, ⟨hnext, rfl⟩ | ⟨hother, rfl⟩, h⟩
    · exact .inl ⟨hnext, h⟩
    · exact .inr ⟨hother, h⟩

/-- A look whether a token comes next; none need come. -/
theorem parses_nextIs_bind {x : Expected} {t : Token} (hx : ∀ u, x.accepts u = true ↔ u = t)
    {f : Bool → Rule β} :
    (nextIs L x >>= f).Parses L lo hi b k ↔
      L.Next lo hi t ∧ (f true).Parses L lo hi b k ∨
        ¬ L.Next lo hi t ∧ (f false).Parses L lo hi b k := by
  have heval : (nextIs L x).eval L ⟨lo, hi⟩ =
      .ok (((Window.get? ⟨lo, hi⟩ L.lexemes 0).map (x.accepts ·.token)).getD false, lo) := by
    rw [nextIs, eval_bind, show (peek? L).eval L ⟨lo, hi⟩ =
      .ok (Window.get? ⟨lo, hi⟩ L.lexemes 0, lo) from rfl]
    simp only
    cases Window.get? ⟨lo, hi⟩ L.lexemes 0 <;> rfl
  have hnext : L.Next lo hi t ↔
      ((Window.get? ⟨lo, hi⟩ L.lexemes 0).map (x.accepts ·.token)).getD false = true := by
    rcases Nat.lt_or_ge lo hi with hlt | hge
    · rw [Window.get?_zero_of_lt hlt]
      cases hget : L.lexemes[lo]? with
      | none => simp [Layout.Next, Layout.At, hget]
      | some l => simp [Layout.Next, Layout.At, hlt, hget, hx]
    · -- Behind the end of the window there is nothing to compare.
      rw [Window.get?_zero_of_le hge]
      simp [Layout.Next, Nat.not_lt.2 hge]
  rw [Parses, eval_bind, heval, hnext]
  cases ((Window.get? ⟨lo, hi⟩ L.lexemes 0).map (x.accepts ·.token)).getD false <;>
    simp [Parses]

/-- An identifier, with its text and its span. -/
theorem parses_name_bind {f : Name → Rule β} :
    (name L >>= f).Parses L lo hi b k ↔
      ∃ n, L.NameNext lo hi n ∧ (f n).Parses L (lo + 1) hi b k := by
  rw [parses_bind]
  simp only [name, parses_first_bind]
  constructor
  · rintro ⟨n, j, ⟨l, hlt, hget, h⟩, hf⟩
    cases htoken : l.token with
    | ident text =>
      simp only [htoken, parses_advance_bind hlt, parses_pure] at h
      obtain ⟨rfl, rfl⟩ := h
      exact ⟨_, ⟨hlt, l, hget, htoken, rfl⟩, hf⟩
    | _ =>
      simp only [htoken, parses_fail] at h
  · rintro ⟨n, ⟨hlt, l, hget, htoken, hspan⟩, hf⟩
    refine ⟨n, lo + 1, ⟨l, hlt, hget, ?_⟩, hf⟩
    simp only [htoken, parses_advance_bind hlt, parses_pure, hspan, and_self]

theorem parses_spanFrom_bind {start : Nat} {f : Span → Rule β} :
    (spanFrom L start >>= f).Parses L lo hi b k ↔
      (f (L.spanOf start lo)).Parses L lo hi b k := by
  rw [Parses, eval_bind]
  exact Iff.rfl

/-- Behind the line ends. -/
theorem parses_skipNewlines_bind {r : Rule β} :
    (skipNewlines L >>= fun _ => r).Parses L lo hi b k ↔
      r.Parses L (L.newlineRun (hi - lo) lo) hi b k := by
  rw [Parses, eval_bind]
  exact Iff.rfl

/-! ## Short expressions -/

variable {e : Expr}

theorem parses_level_bind {l : Level} {f : Expr → Rule β} :
    (level l >>= f).Parses L lo hi b k ↔
      ∃ e j, (level l).Parses L lo hi e j ∧ (f e).Parses L j hi b k := parses_bind

/-- A literal is one lexeme. -/
theorem parses_literal :
    (literal L).Parses L lo hi e k ↔
      ∃ l, lo < hi ∧ L.lexemes[lo]? = some l ∧ l.literal? = some e ∧ k = lo + 1 := by
  simp only [literal, parses_first_bind]
  refine exists_congr fun l => and_congr_right fun hlt => and_congr_right fun _ => ?_
  cases htoken : l.token <;>
    simp [Lexeme.literal?, htoken, parses_advance_bind hlt, parses_pure, parses_fail, eq_comm]

theorem parses_variableName :
    (variableName L).Parses L lo hi e k ↔
      ∃ n, L.NameNext lo hi n ∧ e = .var n.span n.text ∧ k = lo + 1 := by
  simp only [variableName, parses_name_bind, parses_pure]

/-- A name and a position in brackets behind it. -/
theorem parses_element_bind {f : Name × Expr × Span → Rule β} :
    (element L >>= f).Parses L lo hi b k ↔
      ∃ n, L.NameNext lo hi n ∧ L.Next (lo + 1) hi (.symbol .lbracket) ∧
        ∃ position j, (level .expr).Parses L (lo + 2) hi position j ∧
          L.Next j hi (.symbol .rbracket) ∧
            (f (n, position, L.spanOf lo (j + 1))).Parses L (j + 1) hi b k := by
  rw [parses_bind]
  simp only [element, parses_here_bind, parses_name_bind, parses_symbol_bind, parses_level_bind,
    parses_spanFrom_bind, parses_pure]
  constructor
  · rintro ⟨_, _, ⟨n, hn, hopen, position, j, hposition, hclose, rfl, rfl⟩, h⟩
    exact ⟨n, hn, hopen, position, j, hposition, hclose, h⟩
  · rintro ⟨n, hn, hopen, position, j, hposition, hclose, h⟩
    exact ⟨_, _, ⟨n, hn, hopen, position, j, hposition, hclose, rfl, rfl⟩, h⟩

theorem parses_index :
    (index L).Parses L lo hi e k ↔
      ∃ n, L.NameNext lo hi n ∧ L.Next (lo + 1) hi (.symbol .lbracket) ∧
        ∃ position j, (level .expr).Parses L (lo + 2) hi position j ∧
          L.Next j hi (.symbol .rbracket) ∧ e = .index (L.spanOf lo (j + 1)) n position ∧
            k = j + 1 := by
  simp only [index, parses_element_bind, parses_pure]

/-! ## Operators -/

/-- A minus sign and an expression. -/
theorem parses_neg :
    (neg L).Parses L lo hi e k ↔ L.Next lo hi (.symbol .minus) ∧
      ∃ x j, (level .expr).Parses L (lo + 1) hi x j ∧ e = .neg (L.spanOf lo j) x ∧ k = j := by
  simp only [neg, parses_here_bind, parses_symbol_bind, parses_level_bind, parses_spanFrom_bind,
    parses_pure]

theorem parses_not :
    (not L).Parses L lo hi e k ↔ L.Next lo hi (.symbol .bang) ∧
      ∃ x j, (level .expr).Parses L (lo + 1) hi x j ∧ e = .not (L.spanOf lo j) x ∧ k = j := by
  simp only [not, parses_here_bind, parses_symbol_bind, parses_level_bind, parses_spanFrom_bind,
    parses_pure]

/-- What an expression of any level reads is inside of its window, and something. -/
theorem bounds_level (hL : L.Sound) {l : Level} (hlo : lo ≤ hi) (hhi : hi ≤ L.lexemes.size)
    (h : (level l).Parses L lo hi e k) : lo < k ∧ k ≤ hi := by
  have hw : Window.Within ⟨lo, hi⟩ L.lexemes.size := ⟨hlo, hhi⟩
  have hgood := (Goal.answer_spec hL (g := ⟨l, ⟨lo, hi⟩⟩) hw (Nat.lt_succ_self _)).2
  rw [show Goal.answer L ⟨l, ⟨lo, hi⟩⟩ = .ok (e, k) from h] at hgood
  exact ⟨hgood.1, hgood.2.stop⟩

/-- An expression fills a window if nothing is left of it. -/
theorem parses_wholeIn_bind (hL : L.Sound) {p q : Nat} (hp : p ≤ q) (hq : q ≤ L.lexemes.size)
    {form : Form} {f : Expr → Rule β} :
    (wholeIn L ⟨p, q⟩ form >>= f).Parses L lo hi b k ↔
      ∃ e, (level .expr).Parses L p q e q ∧ (f e).Parses L lo hi b k := by
  have hinner : ∀ found j, (exprIn ⟨p, q⟩).Parses L lo hi found j ↔
      (level .expr).Parses L p q found.1 found.2 ∧ j = lo := by
    intro found j
    rw [Parses, eval_exprIn]
    cases heval : (level .expr).eval L ⟨p, q⟩ with
    | error e => simp [Parses, heval]
    | ok found' => simp [Parses, heval, Prod.ext_iff, eq_comm]
  have hwhole : ∀ e j, (wholeIn L ⟨p, q⟩ form).Parses L lo hi e j ↔
      (level .expr).Parses L p q e q ∧ j = lo := by
    intro e j
    rw [wholeIn, parses_bind]
    constructor
    · rintro ⟨found, _, hfound, hrest⟩
      obtain ⟨hread, rfl⟩ := (hinner _ _).1 hfound
      have hle := (bounds_level hL hp hq hread).2
      -- A lexeme that is left over makes the rule fail.
      rcases Nat.eq_or_lt_of_le hle with heq | hlt
      · simp only [heq, Window.get?_zero_of_le (Nat.le_refl q), parses_pure] at hrest
        obtain ⟨rfl, rfl⟩ := hrest
        exact ⟨heq ▸ hread, rfl⟩
      · have hget := Array.getElem?_eq_getElem (Nat.lt_of_lt_of_le hlt hq)
        simp only [Window.get?_zero_of_lt hlt, hget, parses_fail] at hrest
    · rintro ⟨hread, rfl⟩
      refine ⟨(e, q), j, (hinner _ _).2 ⟨hread, rfl⟩, ?_⟩
      simp only [Window.get?_zero_of_le (Nat.le_refl q), parses_pure, and_self]
  rw [parses_bind]
  simp only [hwhole]
  constructor
  · rintro ⟨e, _, ⟨hread, rfl⟩, h⟩
    exact ⟨e, hread, h⟩
  · rintro ⟨e, hread, h⟩
    exact ⟨e, lo, ⟨hread, rfl⟩, h⟩

/-- An operator is read where the search finds it: the left operand fills the window up to it, the
right operand comes behind it. -/
theorem parses_binary (hL : L.Sound) (hlo : lo ≤ hi) (hhi : hi ≤ L.lexemes.size) {op : BinOp} :
    (binary L op).Parses L lo hi e k ↔
      ∃ p, L.find? op.token ⟨lo, hi⟩ = some p ∧ ∃ l, (level .expr).Parses L lo p l p ∧
        ∃ r j, (level .expr).Parses L (p + 1) hi r j ∧ e = .binary (L.spanOf lo j) op l r ∧
          k = j := by
  simp only [binary, parses_window_bind]
  cases hfind : L.find? op.token ⟨lo, hi⟩ with
  | none => simp [parses_fail]
  | some p =>
    obtain ⟨hp, hp', -⟩ := hL.find ⟨hlo, hhi⟩ hfind
    simp only [parses_wholeIn_bind hL hp (Nat.le_trans (Nat.le_of_lt hp') hhi), parses_jump_bind,
      parses_level_bind, parses_spanFrom_bind, parses_pure, Option.some.injEq, exists_eq_left']

/-- The expression in parentheses fills the window up to the closing one that the search finds. -/
theorem parses_parens (hL : L.Sound) (hhi : hi ≤ L.lexemes.size) :
    (parens L).Parses L lo hi e k ↔
      L.Next lo hi (.symbol .lparen) ∧ ∃ p, L.closing? ⟨lo + 1, hi⟩ = some p ∧
        ∃ x, (level .expr).Parses L (lo + 1) p x p ∧ L.Next p hi (.symbol .rparen) ∧
          e = .parens (L.spanOf lo (p + 1)) x ∧ k = p + 1 := by
  simp only [parens, parses_here_bind, parses_symbol_bind, parses_window_bind]
  refine and_congr_right fun hopen => ?_
  cases hclosing : L.closing? ⟨lo + 1, hi⟩ with
  | none => simp [parses_fail]
  | some p =>
    obtain ⟨hp, hp'⟩ := hL.closing (w := ⟨lo + 1, hi⟩) ⟨hopen.1, hhi⟩ hclosing
    simp only [parses_wholeIn_bind hL hp (Nat.le_trans (Nat.le_of_lt hp') hhi), parses_jump_bind,
      parses_symbol_bind, parses_spanFrom_bind, parses_pure, Option.some.injEq, exists_eq_left']

/-! ## Sequences -/

/-- Elements end with the closing symbol; otherwise one element comes next, a separator may follow
it, and the rest is read in one round less. -/
theorem parses_elements_succ {close separator : Punct} {item : Rule α} {rounds : Nat}
    {xs : List α} :
    (elements L close separator item (rounds + 1)).Parses L lo hi xs k ↔
      L.Next lo hi (.symbol close) ∧ xs = [] ∧ k = lo + 1 ∨
        (∃ t, L.Next lo hi t ∧ t ≠ .symbol close) ∧ ∃ x j, item.Parses L lo hi x j ∧
          ∃ j', L.Skips separator j hi j' ∧
            ∃ rest i, (elements L close separator item rounds).Parses L j' hi rest i ∧
              xs = x :: rest ∧ k = i := by
  rw [elements]
  simp only [parses_accept_bind, if_true, Bool.false_eq_true, if_false, parses_pure]
  simp only [parses_bind (r := item), parses_skip_bind,
    parses_bind (r := elements L close separator item rounds), parses_pure]

/-- As many rounds are there for the elements as there are lexemes behind the opening symbol. -/
theorem parses_sequence_bind {opening close separator : Punct} {item : Rule α}
    {f : List α → Rule β} :
    (sequence L opening close separator item >>= f).Parses L lo hi b k ↔
      L.Next lo hi (.symbol opening) ∧
        ∃ xs j, (elements L close separator item (hi - (lo + 1) + 1)).Parses L (lo + 1) hi xs j ∧
          (f xs).Parses L j hi b k := by
  rw [parses_bind]
  simp only [sequence, parses_symbol_bind, parses_sized, and_assoc, exists_and_left]

/-! ## Statements -/

/-- A name, an equals sign and a value. -/
theorem parses_assignment_bind {f : String × Expr → Rule β} :
    (assignment L >>= f).Parses L lo hi b k ↔
      ∃ n, L.NameNext lo hi n ∧ L.Next (lo + 1) hi (.symbol .equals) ∧
        ∃ value j, (level .expr).Parses L (lo + 2) hi value j ∧
          (f (n.text, value)).Parses L j hi b k := by
  rw [parses_bind]
  simp only [assignment, parses_name_bind, parses_symbol_bind, parses_level_bind, parses_pure]
  constructor
  · rintro ⟨_, _, ⟨n, hn, hequals, value, j, hvalue, rfl, rfl⟩, h⟩
    exact ⟨n, hn, hequals, value, _, hvalue, h⟩
  · rintro ⟨n, hn, hequals, value, j, hvalue, h⟩
    exact ⟨_, _, ⟨n, hn, hequals, value, j, hvalue, rfl, rfl⟩, h⟩

theorem parses_assign :
    (assign L).Parses L lo hi e k ↔
      ∃ n, L.NameNext lo hi n ∧ L.Next (lo + 1) hi (.symbol .equals) ∧
        ∃ value j, (level .expr).Parses L (lo + 2) hi value j ∧
          e = .assign (L.spanOf lo j) n.text value ∧ k = j := by
  simp only [assign, parses_here_bind, parses_assignment_bind, parses_spanFrom_bind, parses_pure]

theorem parses_declaration {start : Nat} {mutable : Bool} (hlt : lo < hi) :
    (binding.declaration L start mutable).Parses L lo hi e k ↔
      ∃ n, L.NameNext (lo + 1) hi n ∧ L.Next (lo + 2) hi (.symbol .equals) ∧
        ∃ value j, (level .expr).Parses L (lo + 3) hi value j ∧
          e = .declare (L.spanOf start j) mutable n.text value ∧ k = j := by
  simp only [binding.declaration, parses_advance_bind hlt, parses_assignment_bind,
    parses_spanFrom_bind, parses_pure]

/-- A keyword says whether the variable is mutable, and an assignment follows. -/
theorem parses_binding :
    (binding L).Parses L lo hi e k ↔
      ∃ mutable, L.Next lo hi (.keyword (if mutable then .varKw else .valKw)) ∧
        ∃ n, L.NameNext (lo + 1) hi n ∧ L.Next (lo + 2) hi (.symbol .equals) ∧
          ∃ value j, (level .expr).Parses L (lo + 3) hi value j ∧
            e = .declare (L.spanOf lo j) mutable n.text value ∧ k = j := by
  simp only [binding, parses_here_bind, parses_first_bind]
  constructor
  · rintro ⟨l, hlt, hget, h⟩
    split at h
    · rename_i htoken
      exact ⟨true, ⟨hlt, l, hget, htoken⟩, (parses_declaration hlt).1 h⟩
    · rename_i htoken
      exact ⟨false, ⟨hlt, l, hget, htoken⟩, (parses_declaration hlt).1 h⟩
    · exact (parses_fail.1 h).elim
  · rintro ⟨mutable, ⟨hlt, l, hget, htoken⟩, h⟩
    refine ⟨l, hlt, hget, ?_⟩
    cases mutable <;> simp only [htoken, if_true, Bool.false_eq_true, if_false] <;>
      exact (parses_declaration hlt).2 h

/-- A name and arguments in parentheses. -/
theorem parses_call :
    (call L).Parses L lo hi e k ↔
      ∃ n, L.NameNext lo hi n ∧ L.Next (lo + 1) hi (.symbol .lparen) ∧
        ∃ args j, (elements L .rparen .comma (level .expr) (hi - (lo + 2) + 1)).Parses L (lo + 2)
            hi args j ∧ e = .call (L.spanOf lo j) n.text args ∧ k = j := by
  simp only [call, parses_here_bind, parses_name_bind, parses_sequence_bind, parses_spanFrom_bind,
    parses_pure]

/-- An element of a named list, an equals sign and a value. -/
theorem parses_store :
    (store L).Parses L lo hi e k ↔
      ∃ n, L.NameNext lo hi n ∧ L.Next (lo + 1) hi (.symbol .lbracket) ∧
        ∃ position j, (level .expr).Parses L (lo + 2) hi position j ∧
          L.Next j hi (.symbol .rbracket) ∧ L.Next (j + 1) hi (.symbol .equals) ∧
            ∃ value i, (level .expr).Parses L (j + 2) hi value i ∧
              e = .store (L.spanOf lo i) (L.spanOf lo (j + 1)) n position value ∧ k = i := by
  simp only [store, parses_here_bind, parses_element_bind, parses_symbol_bind, parses_level_bind,
    parses_spanFrom_bind, parses_pure]

theorem parses_body {es : List Expr} :
    (body L).Parses L lo hi es k ↔ L.Next lo hi (.symbol .lbrace) ∧
      (statements L (hi - (lo + 1) + 1)).Parses L (lo + 1) hi es k := by
  simp only [body, parses_symbol_bind, parses_sized]

/-- Behind line ends either the body ends, or a statement comes next and then the rest of them. -/
theorem parses_statements_succ {rounds : Nat} {es : List Expr} :
    (statements L (rounds + 1)).Parses L lo hi es k ↔
      L.Next (L.newlineRun (hi - lo) lo) hi (.symbol .rbrace) ∧ es = [] ∧
          k = L.newlineRun (hi - lo) lo + 1 ∨
        (∃ t, L.Next (L.newlineRun (hi - lo) lo) hi t ∧ t ≠ .symbol .rbrace) ∧
          ∃ s j, (level .top).Parses L (L.newlineRun (hi - lo) lo) hi s j ∧
            ∃ rest i, (statements L rounds).Parses L j hi rest i ∧ es = s :: rest ∧ k = i := by
  rw [statements]
  simp only [parses_skipNewlines_bind, parses_accept_bind, if_true, Bool.false_eq_true, if_false,
    parses_level_bind, parses_bind (r := statements L rounds), parses_pure]

/-- An expression is read if there is one; otherwise another rule reads. -/
theorem parses_orElse_level {make : Expr → α} {r : Rule α} {a : α} :
    (orElse (do return make (← level .expr)) r).Parses L lo hi a k ↔
      (∃ x j, (level .expr).Parses L lo hi x j ∧ a = make x ∧ k = j) ∨
        (level .expr).Fails L lo hi ∧ r.Parses L lo hi a k := by
  simp only [parses_orElse, fails_iff, parses_level_bind, parses_pure]
  refine or_congr_right (and_congr_left fun _ => ?_)
  constructor
  · exact fun h x j hx => h (make x) j ⟨x, j, hx, rfl, rfl⟩
  · rintro h _ _ ⟨x, j, hx, -⟩
    exact h x j hx

theorem parses_otherwise {es : List Expr} :
    (otherwise L).Parses L lo hi es k ↔
      (∃ x j, (level .expr).Parses L lo hi x j ∧ es = [x] ∧ k = j) ∨
        (level .expr).Fails L lo hi ∧ (body L).Parses L lo hi es k := parses_orElse_level

/-- A condition in parentheses and a body; another one behind `else`, if that comes next. -/
theorem parses_branch :
    (branch L).Parses L lo hi e k ↔
      L.Next lo hi (.keyword .ifKw) ∧ L.Next (lo + 1) hi (.symbol .lparen) ∧
        ∃ cond j, (level .expr).Parses L (lo + 2) hi cond j ∧ L.Next j hi (.symbol .rparen) ∧
          ∃ thenBody i, (body L).Parses L (j + 1) hi thenBody i ∧
            (L.Next i hi (.keyword .elseKw) ∧
                (∃ elseBody i', (otherwise L).Parses L (i + 1) hi elseBody i' ∧
                  e = .branch (L.spanOf lo i') cond thenBody elseBody ∧ k = i') ∨
              ¬ L.Next i hi (.keyword .elseKw) ∧
                e = .branch (L.spanOf lo i) cond thenBody [] ∧ k = i) := by
  simp only [branch, parses_here_bind, parses_keyword_bind, parses_symbol_bind, parses_level_bind,
    parses_bind (r := body L), parses_nextIs_bind fun _ => accepts_keyword_iff, if_true,
    Bool.false_eq_true, if_false, parses_spanFrom_bind, parses_pure]
  -- Only to pass over `else` does the window have to go on.
  refine and_congr_right fun _ => and_congr_right fun _ => exists_congr fun cond =>
    exists_congr fun j => and_congr_right fun _ => and_congr_right fun _ =>
      exists_congr fun thenBody => exists_congr fun i => and_congr_right fun _ =>
        or_congr_left (and_congr_right fun helse => ?_)
  simp only [parses_advance_bind helse.1, parses_bind (r := otherwise L), parses_spanFrom_bind,
    parses_pure]

/-- A name, the values that it stands for, and a body. -/
theorem parses_forIn :
    (forIn L).Parses L lo hi e k ↔
      L.Next lo hi (.keyword .forKw) ∧ L.Next (lo + 1) hi (.symbol .lparen) ∧
        ∃ n, L.NameNext (lo + 2) hi n ∧ L.Next (lo + 3) hi (.keyword .inKw) ∧
          ∃ iterable j, (level .expr).Parses L (lo + 4) hi iterable j ∧
            L.Next j hi (.symbol .rparen) ∧
              ∃ loopBody i, (body L).Parses L (j + 1) hi loopBody i ∧
                e = .forIn (L.spanOf lo i) n.text iterable loopBody ∧ k = i := by
  simp only [forIn, parses_here_bind, parses_keyword_bind, parses_symbol_bind, parses_level_bind,
    parses_name_bind, parses_bind (r := body L), parses_spanFrom_bind, parses_pure]

/-- A condition in parentheses and a body. -/
theorem parses_loop :
    (loop L).Parses L lo hi e k ↔
      L.Next lo hi (.keyword .whileKw) ∧ L.Next (lo + 1) hi (.symbol .lparen) ∧
        ∃ cond j, (level .expr).Parses L (lo + 2) hi cond j ∧ L.Next j hi (.symbol .rparen) ∧
          ∃ loopBody i, (body L).Parses L (j + 1) hi loopBody i ∧
            e = .loop (L.spanOf lo i) cond loopBody ∧ k = i := by
  simp only [loop, parses_here_bind, parses_keyword_bind, parses_symbol_bind, parses_level_bind,
    parses_bind (r := body L), parses_spanFrom_bind, parses_pure]

/-- The value is read if there is one; if none can be read, nothing is returned. -/
theorem parses_ret :
    (ret L).Parses L lo hi e k ↔ L.Next lo hi (.keyword .returnKw) ∧
      ((∃ x j, (level .expr).Parses L (lo + 1) hi x j ∧
          e = .returnValue (L.spanOf lo j) x ∧ k = j) ∨
        (level .expr).Fails L (lo + 1) hi ∧ e = .returnUnit (L.spanOf lo (lo + 1)) ∧
          k = lo + 1) := by
  simp only [ret, parses_here_bind, parses_keyword_bind]
  refine and_congr_right fun _ => ?_
  rw [parses_bind]
  -- A value that cannot be read is no error, it is none.
  simp only [parses_orElse_level, parses_pure]
  constructor
  · rintro ⟨_, _, ⟨x, j, hx, rfl, rfl⟩ | ⟨hfails, rfl, rfl⟩, h⟩
    · simp only [parses_spanFrom_bind, parses_pure] at h
      exact .inl ⟨x, _, hx, h⟩
    · simp only [parses_spanFrom_bind, parses_pure] at h
      exact .inr ⟨hfails, h⟩
  · rintro (⟨x, j, hx, h⟩ | ⟨hfails, h⟩)
    · refine ⟨some x, j, .inl ⟨x, j, hx, rfl, rfl⟩, ?_⟩
      simpa only [parses_spanFrom_bind, parses_pure] using h
    · refine ⟨none, lo + 1, .inr ⟨hfails, rfl, rfl⟩, ?_⟩
      simpa only [parses_spanFrom_bind, parses_pure] using h

end Grammar

end Scriptlet
