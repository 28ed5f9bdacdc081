import Mathlib.Logic.Basic
import Scriptlet.Proofs.Grammar.Printable

/-!
# Reading back

What single rules make of the tokens of a printable expression, as long as shorter windows are read
back: `Grammar.ReadsBelow`.  An operator that is found behind an expression cuts a shorter window that
starts with the same expression; there it is read back, so something is left over and the cut is
given up.
-/

namespace Scriptlet

open Token

namespace Token

/-- Whether a token ends every expression before it. -/
def isStop : Token → Bool
  | .newline | .symbol .rparen | .symbol .rbracket | .symbol .rbrace | .symbol .comma => true
  | _ => false

/-- Tokens before which every expression ends. -/
def Stops (ts : List Token) : Prop := ∀ t, ts.head? = some t → t.isStop = true

/-- Tokens before which a name is not the start of an assignment, a call or an element. -/
def Severs (ts : List Token) : Prop :=
  ∀ t, ts.head? = some t →
    t ≠ .symbol .equals ∧ t ≠ .symbol .lparen ∧ t ≠ .symbol .lbracket

theorem stops_nil : Stops [] := fun _ h => by cases h

theorem stops_cons {t : Token} (ht : t.isStop = true) (ts : List Token) : Stops (t :: ts) := by
  intro u hu
  rwa [← Option.some.inj hu]

theorem Stops.severs {ts : List Token} (h : Stops ts) : Severs ts := by
  intro t ht
  have hstop := h t ht
  refine ⟨?_, ?_, ?_⟩ <;> rintro rfl <;> cases hstop

theorem severs_op (op : BinOp) (ts : List Token) : Severs (op.token :: ts) := by
  intro t ht
  obtain rfl : op.token = t := Option.some.inj ht
  cases op <;> simp [BinOp.token]

theorem not_isStop_op (op : BinOp) : op.token.isStop = false := by
  cases op <;> rfl

theorem Stops.take {ts : List Token} (h : Stops ts) (n : Nat) : Stops (ts.take n) := by
  cases n with
  | zero => exact stops_nil
  | succ n =>
    cases ts with
    | nil => exact stops_nil
    | cons t ts => exact stops_cons (h t rfl) _

end Token

theorem Search.findIn_getElem {t : Token} {depth i : Nat} {ts : List Token}
    (h : findIn t depth ts = some i) : i < ts.length ∧ ts[i]? = some t := by
  induction ts generalizing depth i with
  | nil => cases h
  | cons u ts ih =>
    rw [findIn] at h
    split at h
    · cases h
    · split at h
      · rename_i hfound
        obtain rfl : 0 = i := Option.some.inj h
        exact ⟨Nat.zero_lt_succ _, by simp [hfound.1]⟩
      · obtain ⟨j, hj, rfl⟩ := Option.map_eq_some_iff.1 h
        obtain ⟨hlt, hget⟩ := ih hj
        exact ⟨by simpa using hlt, by simpa using hget⟩

namespace Grammar

open Rule

variable {L : Layout} {n lo hi : Nat} {e : Expr} {ts T : List Token}

/-- From the start of the window the rule reads `e`, up to spans. -/
def Returns (L : Layout) (r : Rule Expr) (e : Expr) (lo hi : Nat) : Prop :=
  r.Gets L lo hi fun e' k => e'.spanless = e.spanless ∧ k = lo + e.tokens.length

/-- Printable expressions are read back from windows shorter than `n`. -/
def ReadsBelow (L : Layout) (n : Nat) : Prop :=
  ∀ (e : Expr) (lo hi : Nat) (T : List Token), e.Plain → hi - lo < n → Stops T →
    L.Spells lo hi (e.tokens ++ T) → Returns L (level .expr) e lo hi

/-! ## Whole windows -/

/-- Nothing need follow an expression. -/
theorem ReadsBelow.whole (ih : ReadsBelow L n) {p q : Nat} (he : e.Plain)
    (h : L.Spells p q e.tokens) (hn : q - p < n) : Returns L (level .expr) e p q :=
  ih e p q [] he hn stops_nil (by rwa [List.append_nil])

theorem gets_wholeIn {p q : Nat} {form : Form} (hread : Returns L (level .expr) e p q)
    (hq : L.Spells p q e.tokens) :
    (wholeIn L ⟨p, q⟩ form).Gets L lo hi fun e' k => e'.spanless = e.spanless ∧ k = lo := by
  refine gets_bind (gets_exprIn hread) ?_
  rintro ⟨e', rest⟩ _ ⟨rfl, he', rfl⟩
  have hnone : Window.get? ⟨p + e.tokens.length, q⟩ L.lexemes 0 = none := by
    have hlen := hq.length_eq
    rw [Window.get?, if_neg]
    simp only [Window.length]
    omega
  simp only [hnone]
  exact gets_pure ⟨he', rfl⟩

/-- What leaves something over does not fill its window. -/
theorem fails_wholeIn {p q : Nat} {form : Form}
    (hread : (level .expr).Gets L p q fun _ k => k < q) (hq : q ≤ L.lexemes.size) :
    (wholeIn L ⟨p, q⟩ form).Fails L lo hi := by
  refine fails_bind_right (gets_exprIn hread) ?_
  rintro ⟨e', rest⟩ _ ⟨rfl, hlt⟩
  have hsome : Window.get? ⟨rest, q⟩ L.lexemes 0 = some L.lexemes[rest] := by
    rw [Window.get?, if_pos]
    · simp only [Nat.add_zero]
      exact Array.getElem?_eq_getElem (by simp only at hlt; omega)
    · simp only [Window.length]
      simp only at hlt
      omega
  simp only [hsome]
  exact fails_fail _

/-! ## Operators -/

/-- A sign that is not there is not read. -/
theorem fails_sign (h : L.Spells lo hi ts) (hminus : ts.head? ≠ some (.symbol .minus))
    (hbang : ts.head? ≠ some (.symbol .bang)) :
    (neg L).Fails L lo hi ∧ (not L).Fails L lo hi := by
  refine ⟨?_, ?_⟩ <;> refine fails_bind_right gets_here ?_ <;> rintro _ _ ⟨rfl, rfl⟩
  · exact fails_bind_left (fails_symbol h hminus)
  · exact fails_bind_left (fails_symbol h hbang)

/-- An operation is not read where no expression fills the window up to its first operator. -/
theorem fails_binary_of_left (hS : L.Scans) {op : BinOp} (h : L.Spells lo hi ts)
    (hleft : ∀ i, Search.findIn op.token 0 ts = some i →
      (wholeIn L ⟨lo, lo + i⟩ (.operation op)).Fails L lo hi) : (binary L op).Fails L lo hi := by
  refine fails_bind_right gets_window ?_
  rintro _ lo ⟨rfl, rfl⟩
  have hfind := hS.find?_spells h op.token
  cases hfound : Search.findIn op.token 0 ts with
  | none =>
    rw [hfound] at hfind
    simp only [hfind, Option.map_none]
    exact fails_fail _
  | some i =>
    rw [hfound] at hfind
    simp only [hfind, Option.map_some]
    exact fails_bind_left (hleft i hfound)

/-- An operator that stands only behind an expression, or not at all, is no operator of it. -/
theorem fails_binary (hS : L.Scans) (ih : ReadsBelow L n) (hn : hi - lo ≤ n) (he : e.Plain)
    {op : BinOp} (hclear : Clear op.token e.tokens) (hT : Stops T)
    (h : L.Spells lo hi (e.tokens ++ T)) : (binary L op).Fails L lo hi := by
  refine fails_binary_of_left hS h fun i hfound => ?_
  rw [Search.findIn_clear op.nesting_token hclear] at hfound
  obtain ⟨i, hbehind, rfl⟩ := Option.map_eq_some_iff.1 hfound
  obtain ⟨hi', hget⟩ := Search.findIn_getElem hbehind
  -- The operator is not the first token behind the expression, so something is left over.
  have hpos : 0 < i := by
    rcases Nat.eq_zero_or_pos i with rfl | hpos
    · have hstop := hT op.token (by rwa [List.head?_eq_getElem?])
      rw [not_isStop_op] at hstop
      cases hstop
    · exact hpos
  -- Up to the operator the window is shorter and starts with the same expression.
  have hlen := h.length_eq
  rw [List.length_append] at hlen
  have hleft := h.take (p := lo + (e.tokens.length + i)) (by omega) (by omega)
  rw [Nat.add_sub_cancel_left, List.take_length_add_append] at hleft
  have hread := ih e lo _ _ he (by omega) (hT.take i) hleft
  refine fails_wholeIn (hread.imp ?_) hleft.stop
  rintro _ _ ⟨-, rfl⟩
  omega

/-- An operator between two operands is read. -/
theorem gets_binary (hS : L.Scans) (ih : ReadsBelow L n) (hn : hi - lo ≤ n) {s : Span} {op : BinOp}
    {l r : Expr} (he : (Expr.binary s op l r).Plain) (hT : Stops T)
    (h : L.Spells lo hi ((Expr.binary s op l r).tokens ++ T)) :
    Returns L (binary L op) (Expr.binary s op l r) lo hi := by
  obtain ⟨⟨hlop, hl⟩, hrop, hr⟩ := he
  rw [Expr.tokens, List.append_assoc, List.cons_append] at h
  obtain ⟨hleft, hrest⟩ := h.append
  obtain ⟨hlt, -, hright⟩ := hrest.cons
  refine gets_bind gets_window ?_
  rintro _ lo ⟨rfl, rfl⟩
  have hfind := hS.find?_spells h op.token
  -- The left operand is clear of operators, so the first occurrence is the one that was written.
  have hhere : Search.findIn op.token 0 (op.token :: (r.tokens ++ T)) = some 0 := by
    rw [Search.findIn, if_neg fun hclose => Search.ne_rparen_of_nesting op.nesting_token hclose.1,
      if_pos ⟨rfl, rfl⟩]
  rw [Search.findIn_clear op.nesting_token (hl.clear hlop op), hhere] at hfind
  simp only [hfind, Option.map_some, Nat.add_zero]
  have hreadl := ih.whole hl hleft (by omega)
  refine gets_bind (gets_wholeIn hreadl hleft) ?_
  rintro l' _ ⟨hl', rfl⟩
  refine gets_bind (gets_jump _) ?_
  rintro _ _ rfl
  have hreadr := ih r _ _ T hr (by omega) hT hright
  refine gets_bind hreadr ?_
  rintro r' _ ⟨hr', rfl⟩
  refine gets_bind (gets_spanFrom _) ?_
  rintro span _ rfl
  refine gets_pure ⟨?_, ?_⟩
  · rw [Expr.spanless, Expr.spanless, hl', hr']
  · rw [Expr.tokens, List.length_append, List.length_cons]
    omega

/-- An expression in parentheses is read, whatever follows it. -/
theorem gets_parens (hS : L.Scans) (ih : ReadsBelow L n) (hn : hi - lo ≤ n) {s : Span}
    (he : e.Plain) (h : L.Spells lo hi ((Expr.parens s e).tokens ++ T)) :
    Returns L (parens L) (Expr.parens s e) lo hi := by
  simp only [Expr.tokens, List.cons_append, List.append_assoc, List.nil_append] at h
  obtain ⟨hlt, -, hrest⟩ := h.cons
  obtain ⟨hinner, hclose⟩ := hrest.append
  refine gets_bind gets_here ?_
  rintro _ _ ⟨rfl, rfl⟩
  refine gets_bind (gets_symbol h) ?_
  rintro _ _ rfl
  refine gets_bind gets_window ?_
  rintro _ _ ⟨rfl, rfl⟩
  have hclosing := hS.closing?_spells hrest
  have hhere : Search.closingIn 0 (.symbol .rparen :: T) = some 0 := by
    rw [Search.closingIn, if_pos ⟨rfl, rfl⟩]
  -- Parentheses inside of the expression are nested, so the closing one is the one behind it.
  rw [Search.closingIn_nested he.nested, hhere] at hclosing
  simp only [hclosing, Option.map_some, Nat.add_zero]
  have hlen := hclose.start
  have hread := ih.whole he hinner (by omega)
  refine gets_bind (gets_wholeIn hread hinner) ?_
  rintro e' _ ⟨he', rfl⟩
  refine gets_bind (gets_jump _) ?_
  rintro _ _ rfl
  refine gets_bind (gets_symbol hclose) ?_
  rintro _ _ rfl
  refine gets_bind (gets_spanFrom _) ?_
  rintro span _ rfl
  refine gets_pure ⟨?_, ?_⟩
  · rw [Expr.spanless, Expr.spanless, he']
  · simp only [Expr.tokens, List.cons_append, List.length_cons, List.length_append, List.length_nil]
    omega

theorem fails_parens (h : L.Spells lo hi ts) (hopen : ts.head? ≠ some (.symbol .lparen)) :
    (parens L).Fails L lo hi := by
  refine fails_bind_right gets_here ?_
  rintro _ _ ⟨rfl, rfl⟩
  exact fails_bind_left (fails_symbol h hopen)

/-! ## Alternatives -/

theorem gets_firstOf {form : Form} (before : List (Rule Expr)) {after : List (Rule Expr)}
    {r : Rule Expr} {t : Token} {P : Expr → Nat → Prop} (h : L.Spells lo hi (t :: ts))
    (hbefore : ∀ r' ∈ before, r'.Fails L lo hi) (hr : r.Gets L lo hi P) :
    (firstOf L form (before ++ r :: after)).Gets L lo hi P := by
  refine gets_bind (gets_first h) ?_
  rintro l _ ⟨-, rfl⟩
  induction before with
  | nil => exact gets_orElse_left hr
  | cons r' before ih =>
    obtain ⟨hr', hrest⟩ := List.forall_mem_cons.1 hbefore
    exact gets_orElse_right hr' (ih hrest)

theorem fails_firstOf {form : Form} {rules : List (Rule Expr)} (h : L.Spells lo hi ts)
    (hrules : ∀ r ∈ rules, r.Fails L lo hi) : (firstOf L form rules).Fails L lo hi := by
  cases ts with
  | nil => exact fails_bind_left (fails_first h)
  | cons t ts =>
    refine fails_bind_right (gets_first h) ?_
    rintro l _ ⟨-, rfl⟩
    induction rules with
    | nil => exact fails_fail _
    | cons r rules ih =>
      obtain ⟨hr, hrest⟩ := List.forall_mem_cons.1 hrules
      exact fails_orElse hr (ih hrest)

/-- What the rule of a level gives, the level gives. -/
theorem gets_level (hL : L.Sound) {l : Level} {P : Expr → Nat → Prop} (h : L.Spells lo hi ts)
    (hr : (ofLevel L l).Gets L lo hi P) : (level l).Gets L lo hi P := by
  rwa [Rule.Gets, eval_level, Goal.answer_eq hL h.start h.stop]

theorem fails_level (hL : L.Sound) {l : Level} (h : L.Spells lo hi ts)
    (hr : (ofLevel L l).Fails L lo hi) : (level l).Fails L lo hi := by
  rwa [Rule.Fails, eval_level, Goal.answer_eq hL h.start h.stop]

/-- The level reads nothing, or stops before `m`. -/
def EndsBefore (L : Layout) (l : Level) (lo hi m : Nat) : Prop :=
  (level l).Fails L lo hi ∨ (level l).Gets L lo hi fun _ k => k < m

theorem eval_longest (levels : List Level) (best : Option (Expr × Nat)) (w : Window) :
    (longest levels best w).eval (Goal.answer L) =
      levels.foldl (fun best l => longer best ((level l).eval L w)) best := by
  induction levels generalizing best with
  | nil => rfl
  | cons l levels ih => exact ih _

theorem longer_error (best : Option (Expr × Nat)) (e : SyntaxError) :
    longer best (.error e) = best := rfl

theorem longer_ok (best : Option (Expr × Nat)) (found : Expr × Nat) :
    longer best (.ok found) =
      match best with
      | none => some found
      | some b => if b.2 < found.2 then some found else some b := rfl

/-- The one reading that goes further than all others wins. -/
theorem foldl_longer {l : Level} {levels : List Level} {found : Expr × Nat}
    {best : Option (Expr × Nat)} (hread : (level l).eval L ⟨lo, hi⟩ = .ok found)
    (hothers : ∀ l' ∈ levels, l' ≠ l → EndsBefore L l' lo hi found.2)
    (hbest : best = some found ∨
      l ∈ levels ∧ ∀ b, best = some b → b.2 < found.2) :
    levels.foldl (fun best l => longer best ((level l).eval L ⟨lo, hi⟩)) best = some found := by
  induction levels generalizing best with
  | nil =>
    rcases hbest with hbest | ⟨hmem, -⟩
    · exact hbest
    · cases hmem
  | cons l' levels ih =>
    -- Invariant: the best so far is the winner, or the winner is still to come and will beat it.
    obtain ⟨hl', hrest⟩ := List.forall_mem_cons.1 hothers
    rw [List.foldl_cons]
    refine ih hrest ?_
    by_cases heq : l' = l
    · subst heq
      left
      rw [hread, longer_ok]
      rcases hbest with rfl | ⟨-, hbest⟩
      · simp
      · cases best with
        | none => rfl
        | some b => simp [hbest b rfl]
    · -- A reading that stops earlier neither displaces the winner nor keeps it out.
      rcases hl' heq with ⟨e, hfail⟩ | ⟨e', k, hget, hk⟩
      · rw [hfail, longer_error]
        rcases hbest with hbest | ⟨hmem, hbest⟩
        · exact .inl hbest
        · exact .inr ⟨(List.mem_cons.1 hmem).resolve_left (Ne.symm heq), hbest⟩
      · rw [hget, longer_ok]
        rcases hbest with rfl | ⟨hmem, hbest⟩
        · left
          simp only [if_neg (Nat.lt_asymm hk)]
        · refine .inr ⟨(List.mem_cons.1 hmem).resolve_left (Ne.symm heq), ?_⟩
          intro b hb
          cases best with
          | none =>
            obtain rfl : (e', k) = b := Option.some.inj hb
            exact hk
          | some b' =>
            simp only at hb
            split at hb
            · obtain rfl : (e', k) = b := Option.some.inj hb
              exact hk
            · obtain rfl : b' = b := Option.some.inj hb
              exact hbest b' rfl

/-- An expression is what the level that reads furthest reads. -/
theorem reads_expr_of (hL : L.Sound) {l : Level} {t : Token} (hl : l ≠ .expr)
    (h : L.Spells lo hi (t :: ts)) (hread : Returns L (level l) e lo hi)
    (hothers : ∀ l', l' ≠ .expr → l' ≠ l → EndsBefore L l' lo hi (lo + e.tokens.length)) :
    Returns L (level .expr) e lo hi := by
  obtain ⟨e', k, heval, he', rfl⟩ := hread
  refine gets_level hL h (gets_bind (gets_first h) ?_)
  rintro first lo ⟨-, rfl⟩
  refine ⟨e', _, ?_, he', rfl⟩
  have hlevels : ∀ l' ∈ [Level.top, .math, .comparison, .short], l' ≠ .expr := by
    decide
  have hmem : l ∈ [Level.top, .math, .comparison, .short] := by
    cases l <;> simp_all
  have hnone : ∀ b : Expr × Nat, none = some b → b.2 < lo + e.tokens.length := by
    intro b hb
    cases hb
  have hfold := foldl_longer heval (fun l' hl' hne => hothers l' (hlevels l' hl') hne)
    (.inr ⟨hmem, hnone⟩)
  rw [← eval_longest] at hfold
  show Query.eval _ (Query.bind _ _) = _
  rw [Query.eval_bind, hfold]
  rfl

/-! ## Sequences -/

theorem separate_cons_cons (ts us : List Token) (rest : List (List Token)) :
    separate (.symbol .comma) (ts :: us :: rest) =
      ts ++ .symbol .comma :: separate (.symbol .comma) (us :: rest) := rfl

theorem length_le_separate {lists : List (List Token)} (h : ∀ ts ∈ lists, ts ≠ []) :
    lists.length ≤ (separate (.symbol .comma) lists).length := by
  induction lists with
  | nil => exact Nat.le_refl _
  | cons ts lists ih =>
    obtain ⟨hts, hrest⟩ := List.forall_mem_cons.1 h
    have hpos := List.length_pos_iff.2 hts
    cases lists with
    | nil => exact hpos
    | cons us lists =>
      have hlen := ih hrest
      rw [List.length_cons] at hlen
      rw [separate_cons_cons, List.length_append, List.length_cons, List.length_cons,
        List.length_cons]
      omega

section Elements

variable {α β : Type} {element : Rule α} {tokens : α → List Token} {view : α → β} {close : Punct}

/-- Elements with commas between them are read back one by one. -/
theorem gets_elements (hclose : close ≠ .comma) (xs : List α) {rounds : Nat}
    (hrounds : xs.length < rounds)
    (hfirst : ∀ x ∈ xs, ∃ t ts, tokens x = t :: ts ∧ t ≠ .symbol close)
    (helement : ∀ x ∈ xs, ∀ k u us, lo ≤ k → (u = .symbol .comma ∨ u = .symbol close) →
      L.Spells k hi (tokens x ++ u :: us) →
        element.Gets L k hi fun x' k' => view x' = view x ∧ k' = k + (tokens x).length)
    (h : L.Spells lo hi
      (separate (.symbol .comma) (xs.map tokens) ++ .symbol close :: T)) :
    (elements L close .comma element rounds).Gets L lo hi fun xs' k =>
      xs'.map view = xs.map view ∧
        k = lo + (separate (.symbol .comma) (xs.map tokens)).length + 1 := by
  obtain ⟨rounds, rfl⟩ := Nat.exists_eq_add_one_of_ne_zero (Nat.ne_of_gt (Nat.zero_lt_of_lt hrounds))
  induction xs generalizing lo rounds with
  | nil =>
    rw [elements]
    refine gets_bind (gets_accept h) ?_
    rintro _ _ ⟨rfl, rfl⟩
    exact gets_pure ⟨rfl, rfl⟩
  | cons x xs ih =>
    obtain ⟨⟨t, ts, hx, ht⟩, hfirsts⟩ := List.forall_mem_cons.1 hfirst
    obtain ⟨hread, hreads⟩ := List.forall_mem_cons.1 helement
    obtain ⟨rounds, rfl⟩ : ∃ r, rounds = r + 1 := ⟨rounds - 1, by simp at hrounds; omega⟩
    -- The first token is one of the element, so the sequence does not end here.
    have hopen : ∃ us, separate (.symbol .comma) ((x :: xs).map tokens) ++ .symbol close :: T =
        t :: us := by
      cases xs <;> exact ⟨_, by simp [separate, hx]; rfl⟩
    obtain ⟨us, hopen⟩ := hopen
    rw [elements]
    refine gets_bind (gets_accept_other (hopen ▸ h) ht) ?_
    rintro _ lo ⟨rfl, rfl⟩
    rw [if_neg (by simp)]
    -- Behind the last element stands the closing symbol, behind any other one a comma.
    cases xs with
    | nil =>
      rw [List.map_cons, List.map_nil, separate] at h
      obtain ⟨-, hrest⟩ := h.append
      refine gets_bind (hread lo _ _ (Nat.le_refl _) (.inr rfl) h) ?_
      rintro x' _ ⟨hx', rfl⟩
      refine gets_bind (gets_accept_other hrest (by simpa using hclose)) ?_
      rintro _ _ ⟨rfl, rfl⟩
      refine gets_bind (ih hfirsts (by simp) hrest rounds (by simp)) ?_
      rintro xs' _ ⟨hxs', rfl⟩
      refine gets_pure ⟨congrArg₂ List.cons hx' hxs', ?_⟩
      simp [separate]
    | cons y ys =>
      rw [List.map_cons, List.map_cons, separate_cons_cons, List.append_assoc,
        List.cons_append] at h
      obtain ⟨-, hcomma⟩ := h.append
      obtain ⟨-, -, hrest⟩ := hcomma.cons
      refine gets_bind (hread lo _ _ (Nat.le_refl _) (.inl rfl) h) ?_
      rintro x' _ ⟨hx', rfl⟩
      refine gets_bind (gets_accept hcomma) ?_
      rintro _ _ ⟨rfl, rfl⟩
      have hreads' : ∀ z ∈ y :: ys, ∀ k u us, lo + (tokens x).length + 1 ≤ k →
          (u = .symbol .comma ∨ u = .symbol close) → L.Spells k hi (tokens z ++ u :: us) →
            element.Gets L k hi fun z' k' => view z' = view z ∧ k' = k + (tokens z).length :=
        fun z hz k u us hk => hreads z hz k u us (by omega)
      refine gets_bind (ih hfirsts hreads' hrest rounds (by simpa using hrounds)) ?_
      rintro xs' _ ⟨hxs', rfl⟩
      refine gets_pure ⟨congrArg₂ List.cons hx' hxs', ?_⟩
      simp only [List.map_cons, separate_cons_cons, List.length_append, List.length_cons]
      omega

/-- Elements between two symbols are read back. -/
theorem gets_sequence {opening : Punct} (hclose : close ≠ .comma) (xs : List α)
    (hfirst : ∀ x ∈ xs, ∃ t ts, tokens x = t :: ts ∧ t ≠ .symbol close)
    (helement : ∀ x ∈ xs, ∀ k u us, lo < k → (u = .symbol .comma ∨ u = .symbol close) →
      L.Spells k hi (tokens x ++ u :: us) →
        element.Gets L k hi fun x' k' => view x' = view x ∧ k' = k + (tokens x).length)
    (h : L.Spells lo hi (.symbol opening ::
      (separate (.symbol .comma) (xs.map tokens) ++ .symbol close :: T))) :
    (sequence L opening close .comma element).Gets L lo hi fun xs' k =>
      xs'.map view = xs.map view ∧
        k = lo + (separate (.symbol .comma) (xs.map tokens)).length + 2 := by
  obtain ⟨hlt, -, hrest⟩ := h.cons
  have hlen := hrest.length_eq
  have hne : ∀ ts ∈ xs.map tokens, ts ≠ [] := by
    intro ts hts
    obtain ⟨x, hx, rfl⟩ := List.mem_map.1 hts
    obtain ⟨t, us, hcons, -⟩ := hfirst x hx
    simp [hcons]
  -- Each element has a token, so there are rounds enough.
  have hcount := length_le_separate hne
  rw [List.length_append, List.length_cons] at hlen
  rw [List.length_map] at hcount
  refine gets_bind (gets_symbol h) ?_
  rintro _ _ rfl
  refine Gets.imp (gets_sized (gets_elements hclose xs (by omega) hfirst helement hrest)) ?_
  rintro xs' _ ⟨hxs', rfl⟩
  exact ⟨hxs', by omega⟩

end Elements

end Grammar

end Scriptlet
