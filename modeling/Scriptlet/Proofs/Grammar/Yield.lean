import Scriptlet.Proofs.Grammar.Spec

/-!
# Rules account for every token

What each rule of the grammar promises: it reads a stretch of the window, and the tokens of what it
gives are the tokens of that stretch, those that only lay a program out aside.  Questions are about
shorter windows, so no rule can go on asking forever.
-/

namespace Scriptlet.Grammar

open Rule

variable {α : Type} {L : Layout} {N : Nat} {w₀ : Window} {lo hi : Nat}

/-! ## Tokens of parts -/

/-- The tokens of several expressions, those that only lay them out aside. -/
def yieldAll (es : List Expr) : List Token := es.flatMap fun e => Token.strip e.tokens

/-- The tokens of an element that matter. -/
def elementYield (base : Name) (position : Expr) : List Token :=
  .ident base.text :: .symbol .lbracket :: Token.strip position.tokens ++ [.symbol .rbracket]

/-- The tokens of the value of a `return`. -/
def valueYield (value? : Option Expr) : List Token :=
  Token.strip ((value?.map Expr.tokens).getD [])

theorem strip_op (op : BinOp) (ts : List Token) :
    Token.strip (op.token :: ts) = op.token :: Token.strip ts := by
  cases op <;> rfl

theorem tokensOfAll_eq (es : List Expr) : Expr.tokensOfAll es = es.map Expr.tokens := by
  induction es with
  | nil => rfl
  | cons e es ih => rw [Expr.tokensOfAll, ih, List.map_cons]

/-- Lines, without the line ends between them. -/
theorem strip_lines (lines : List (List Token)) :
    Token.strip (lines.flatMap (· ++ [.newline])) = lines.flatMap Token.strip := by
  induction lines with
  | nil => rfl
  | cons line lines ih => simp [ih, Token.isLayout]

theorem strip_braced (es : List Expr) :
    Token.strip (Expr.braced (Expr.tokensOfAll es)) = yieldAll es := by
  have hlines := strip_lines (Expr.tokensOfAll es)
  rw [tokensOfAll_eq, List.flatMap_map, List.flatMap_map] at hlines
  simp [Expr.braced, Token.isLayout, tokensOfAll_eq, List.flatMap_map, hlines, yieldAll]

theorem strip_elsePart (es : List Expr) :
    Token.strip (Expr.elsePart (Expr.tokensOfAll es)) = yieldAll es := by
  cases es with
  | nil => rfl
  | cons e es =>
    show Token.strip (.keyword .elseKw :: Expr.braced (Expr.tokensOfAll (e :: es))) = _
    simp [Token.isLayout, strip_braced]

theorem strip_separate (lists : List (List Token)) :
    Token.strip (Token.separate (.symbol .comma) lists) = lists.flatMap Token.strip := by
  induction lists with
  | nil => rfl
  | cons ts lists ih =>
    cases lists with
    | nil => simp [Token.separate]
    | cons us lists => simp [Token.separate, ih, Token.isLayout]

/-! ## Single tokens -/

/-- The lexeme that a window starts with, for an error that points at it. -/
theorem pointsInto_first (hw : w₀.Holds lo hi) (hlt : lo < hi) {l : Lexeme}
    (hget : L.lexemes[lo]? = some l) {e : SyntaxError} (he : e.lexeme? = some l) :
    e.PointsInto L w₀ :=
  .inr ⟨lo, l, hw.start, Nat.lt_of_lt_of_le hlt hw.stop, hget, he⟩

theorem get?_zero {l : Lexeme} (h : Window.get? ⟨lo, hi⟩ L.lexemes 0 = some l) :
    lo < hi ∧ L.lexemes[lo]? = some l := by
  rw [Window.get?] at h
  split at h
  · rename_i hlt
    simp only [Window.length] at hlt
    exact ⟨by omega, h⟩
  · cases h

theorem spec_first : (first L).Spec L N w₀ lo hi fun l k =>
    k = lo ∧ lo < hi ∧ L.lexemes[lo]? = some l := by
  rw [Rule.Spec, first, Window.first]
  cases h : Window.get? ⟨lo, hi⟩ L.lexemes 0 with
  | none => exact .inl rfl
  | some l => exact ⟨rfl, get?_zero h⟩

theorem spec_peek? : (peek? L).Spec L N w₀ lo hi fun l? k =>
    k = lo ∧ ∀ l, l? = some l → lo < hi ∧ L.lexemes[lo]? = some l :=
  ⟨rfl, fun _ h => get?_zero h⟩

theorem spec_advance (hlt : lo < hi) :
    advance.Spec L N w₀ lo hi fun _ k => k = lo + 1 := by
  show min (lo + 1) hi = lo + 1
  omega

theorem eq_of_accepts_symbol {p : Punct} {t : Token}
    (h : (Expected.symbol p).accepts t = true) : t = .symbol p := by
  cases t <;> simp_all [Expected.accepts]

theorem eq_of_accepts_keyword {k : Keyword} {t : Token}
    (h : (Expected.keyword k).accepts t = true) : t = .keyword k := by
  cases t <;> simp_all [Expected.accepts]

/-- A token that is waited for is read. -/
theorem spec_expect {x : Expected} {t : Token} (hw : w₀.Holds lo hi)
    (hx : ∀ u, x.accepts u = true → u = t) :
    (expect L x).Spec L N w₀ lo hi fun _ k =>
      k = lo + 1 ∧ L.Reads hi lo (lo + 1) (Token.strip [t]) := by
  refine spec_bind spec_first ?_
  rintro l lo ⟨rfl, hlt, hget⟩
  by_cases haccepts : x.accepts l.token = true
  · rw [if_pos haccepts]
    refine spec_bind (spec_advance hlt) ?_
    rintro _ _ rfl
    refine spec_pure ⟨rfl, ?_⟩
    rw [← hx l.token haccepts]
    exact .token hget hlt
  · rw [if_neg haccepts]
    exact spec_fail (pointsInto_first hw hlt hget rfl)

theorem spec_symbol (p : Punct) (hw : w₀.Holds lo hi) :
    (expect L (.symbol p)).Spec L N w₀ lo hi fun _ k =>
      k = lo + 1 ∧ L.Reads hi lo (lo + 1) (Token.strip [.symbol p]) :=
  spec_expect hw fun _ => eq_of_accepts_symbol

theorem spec_keyword (kw : Keyword) (hw : w₀.Holds lo hi) :
    (expect L (.keyword kw)).Spec L N w₀ lo hi fun _ k =>
      k = lo + 1 ∧ L.Reads hi lo (lo + 1) (Token.strip [.keyword kw]) :=
  spec_expect hw fun _ => eq_of_accepts_keyword

/-- A symbol is read if it is there. -/
theorem spec_accept (p : Punct) :
    (accept L (.symbol p)).Spec L N w₀ lo hi fun found k =>
      (found = true ∧ k = lo + 1 ∧
        L.Reads hi lo (lo + 1) (Token.strip [.symbol p])) ∨ (found = false ∧ k = lo) := by
  refine spec_bind spec_first ?_
  rintro l lo ⟨rfl, hlt, hget⟩
  by_cases haccepts : (Expected.symbol p).accepts l.token = true
  · rw [if_pos haccepts]
    refine spec_bind (spec_advance hlt) ?_
    rintro _ _ rfl
    refine spec_pure (.inl ⟨rfl, rfl, ?_⟩)
    rw [← eq_of_accepts_symbol haccepts]
    exact .token hget hlt
  · rw [if_neg haccepts]
    exact spec_pure (.inr ⟨rfl, rfl⟩)

/-- Looking at the next token reads nothing. -/
theorem spec_nextIs {x : Expected} {t : Token} (hx : ∀ u, x.accepts u = true → u = t) :
    (nextIs L x).Spec L N w₀ lo hi fun found k =>
      k = lo ∧ (found = true → L.Reads hi lo (lo + 1) (Token.strip [t])) := by
  refine spec_bind spec_peek? ?_
  rintro l? lo ⟨rfl, hpeek⟩
  cases l? with
  | none => exact spec_pure ⟨rfl, fun h => by cases h⟩
  | some l =>
    obtain ⟨hlt, hget⟩ := hpeek l rfl
    refine spec_pure ⟨rfl, fun h => ?_⟩
    rw [← hx l.token h]
    exact .token hget hlt

theorem reads_newlineRun {n : Nat} (hn : lo + n ≤ hi) :
    L.Reads hi lo (L.newlineRun n lo) [] := by
  induction n generalizing lo with
  | zero => exact .refl (by omega)
  | succ n ih =>
    rw [Layout.newlineRun]
    split
    · rename_i l hget
      split
      · rename_i hnewline
        have hrest : L.Reads hi (lo + 1) (L.newlineRun n (lo + 1)) [] := ih (by omega)
        have hone : L.Reads hi lo (lo + 1) (Token.strip [l.token]) := .token hget (by omega)
        rw [hnewline] at hone
        exact hone.append hrest
      · exact .refl (by omega)
    · exact .refl (by omega)

theorem spec_skipNewlines (hw : lo ≤ hi) :
    (skipNewlines L).Spec L N w₀ lo hi fun _ k => L.Reads hi lo k [] := by
  refine spec_bind spec_window ?_
  rintro _ lo ⟨rfl, rfl⟩
  refine spec_jump.imp ?_
  rintro _ _ rfl
  refine reads_newlineRun ?_
  simp only [Window.length]
  omega

theorem spec_spanFrom {start : Nat} : (spanFrom L start).Spec L N w₀ lo hi fun _ k => k = lo := rfl

theorem spec_name (hw : w₀.Holds lo hi) : (name L).Spec L N w₀ lo hi fun n k =>
    k = lo + 1 ∧ L.Reads hi lo (lo + 1) [.ident n.text] := by
  refine spec_bind spec_first ?_
  rintro l lo ⟨rfl, hlt, hget⟩
  split
  · rename_i text htoken
    refine spec_bind (spec_advance hlt) ?_
    rintro _ _ rfl
    refine spec_pure ⟨rfl, ?_⟩
    have hreads : L.Reads hi lo (lo + 1) (Token.strip [l.token]) := .token hget hlt
    rwa [htoken] at hreads
  · exact spec_fail (pointsInto_first hw hlt hget rfl)

/-! ## Sequences -/

/-- What is left behind what was read. -/
theorem holds_rest {k : Nat} {ts : List Token} (hw : w₀.Holds lo hi)
    (h : L.Reads hi lo k ts) : w₀.Holds k hi :=
  ⟨Nat.le_trans hw.start h.start, h.stop, hw.stop⟩

/-- Elements up to a closing symbol, in rounds; the separator does not matter. -/
theorem spec_elements {close separator : Punct} (hseparator : Token.strip [.symbol separator] = [])
    {element : Rule α} {T : α → List Token}
    (helement : ∀ k, lo ≤ k → w₀.Holds k hi →
      element.Spec L N w₀ k hi fun x k' => L.Reads hi k k' (T x))
    (rounds : Nat) (hw : w₀.Holds lo hi) :
    (elements L close separator element rounds).Spec L N w₀ lo hi fun xs k =>
      L.Reads hi lo k (xs.flatMap T ++ Token.strip [.symbol close]) := by
  induction rounds generalizing lo with
  | zero => exact spec_endOfInput
  | succ rounds ih =>
    rw [elements]
    refine spec_bind (spec_accept close) ?_
    rintro found k (⟨rfl, rfl, hclose⟩ | ⟨rfl, rfl⟩)
    · exact spec_pure hclose
    · rw [if_neg (by simp)]
      refine spec_bind (helement _ (Nat.le_refl _) hw) ?_
      intro x k₁ hx
      refine spec_bind (spec_accept separator) ?_
      intro found k₂ hfound
      -- With or without the separator, nothing that matters is passed over.
      have hrest : L.Reads hi k₁ k₂ [] := by
        rcases hfound with ⟨-, rfl, hsep⟩ | ⟨-, rfl⟩
        · exact hsep.congr hseparator
        · exact .refl hx.stop
      have hread : L.Reads hi k k₂ (T x) := (hx.append hrest).congr (List.append_nil _)
      refine spec_bind (ih (fun k' hk' => helement k' (Nat.le_trans hread.start hk'))
        (holds_rest hw hread)) ?_
      intro xs k₃ hxs
      refine spec_pure ((hread.append hxs).congr ?_)
      rw [List.flatMap_cons, List.append_assoc]

/-- Elements between two symbols. -/
theorem spec_sequence {opening close separator : Punct}
    (hseparator : Token.strip [.symbol separator] = []) {element : Rule α} {T : α → List Token}
    (helement : ∀ k, lo < k → w₀.Holds k hi →
      element.Spec L N w₀ k hi fun x k' => L.Reads hi k k' (T x)) (hw : w₀.Holds lo hi) :
    (sequence L opening close separator element).Spec L N w₀ lo hi fun xs k =>
      lo < k ∧ L.Reads hi lo k
        (Token.strip [.symbol opening] ++ (xs.flatMap T ++ Token.strip [.symbol close])) := by
  refine spec_bind (spec_symbol opening hw) ?_
  rintro _ _ ⟨rfl, hopen⟩
  refine Spec.imp (spec_sized (spec_elements hseparator helement _ (holds_rest hw hopen))) ?_
  exact fun xs k hxs => ⟨hxs.start, hopen.append hxs⟩

/-- Statements up to the closing brace. -/
theorem spec_statements (hw₀ : w₀.Within L.lexemes.size) (rounds : Nat) (hw : w₀.Holds lo hi)
    (hN : 2 * (hi - lo) < N) :
    (statements L rounds).Spec L N w₀ lo hi fun es k => L.Reads hi lo k (yieldAll es) := by
  induction rounds generalizing lo with
  | zero => exact spec_endOfInput
  | succ rounds ih =>
    rw [statements]
    refine spec_bind (spec_skipNewlines hw.valid) ?_
    intro _ k hskip
    have hstart := hskip.start
    refine spec_bind (spec_accept .rbrace) ?_
    rintro found k₁ (⟨rfl, rfl, hclose⟩ | ⟨rfl, rfl⟩)
    · exact spec_pure (hskip.append hclose)
    · rw [if_neg (by simp)]
      have hsize : Goal.size ⟨.top, ⟨k₁, hi⟩⟩ < N := by
        simp only [Goal.size, Window.length, reduceCtorEq, if_false]
        omega
      refine spec_bind (spec_level hw₀ (holds_rest hw hskip) hsize) ?_
      rintro e k₂ ⟨hlt, he⟩
      have hread := hskip.append he
      refine spec_bind (ih (holds_rest hw hread) (by omega)) ?_
      intro es k₃ hes
      exact spec_pure (hread.append hes)

/-- Statements between braces. -/
theorem spec_body (hw₀ : w₀.Within L.lexemes.size) (hw : w₀.Holds lo hi)
    (hN : 2 * (hi - lo) ≤ N) :
    (body L).Spec L N w₀ lo hi fun es k => lo < k ∧ L.Reads hi lo k (yieldAll es) := by
  refine spec_bind (spec_symbol .lbrace hw) ?_
  rintro _ _ ⟨rfl, hopen⟩
  have hstop := hopen.stop
  refine Spec.imp (spec_sized (spec_statements hw₀ _ (holds_rest hw hopen) (by omega))) ?_
  exact fun es k hes => ⟨hes.start, hopen.append hes⟩

/-- What follows `else` is one expression or a block. -/
theorem spec_otherwise (hw₀ : w₀.Within L.lexemes.size) (hw : w₀.Holds lo hi)
    (hN : 2 * (hi - lo) + 1 < N) :
    (otherwise L).Spec L N w₀ lo hi fun es k => lo < k ∧ L.Reads hi lo k (yieldAll es) := by
  have hsize := Goal.size_le .expr lo hi
  refine spec_orElse ?_ (spec_body hw₀ hw (by omega))
  refine spec_bind (spec_level hw₀ hw (by omega)) ?_
  rintro e k ⟨hlt, he⟩
  exact spec_pure ⟨hlt, by simpa [yieldAll] using he⟩

/-! ## Reading on -/

/-- An expression is read from behind something that was read before. -/
theorem spec_levelFrom {l : Level} {k : Nat} (hw₀ : w₀.Within L.lexemes.size)
    (hw : w₀.Holds k hi) (hk : lo < k) (hN : 2 * (hi - lo) ≤ N) :
    (level l).Spec L N w₀ k hi (L.Gives hi k) := by
  have hsize := Goal.size_le l k hi
  have hvalid := hw.valid
  exact spec_level hw₀ hw (by omega)

/-- An expression that has to fill a window. -/
theorem spec_wholeIn {p q : Nat} {form : Form} (hw₀ : w₀.Within L.lexemes.size)
    (hinner : w₀.Holds p q) (hN : 2 * (q - p) + 1 < N) :
    (wholeIn L ⟨p, q⟩ form).Spec L N w₀ lo hi fun e k =>
      k = lo ∧ L.Reads q p q (Token.strip e.tokens) := by
  have hsize := Goal.size_le .expr p q
  refine spec_bind (spec_exprIn hw₀ hinner (by omega)) ?_
  rintro ⟨e, rest⟩ _ ⟨rfl, hread⟩
  have hstop : rest ≤ q := hread.stop
  cases hleft : Window.get? ⟨rest, q⟩ L.lexemes 0 with
  | some l =>
    obtain ⟨hlt, hget⟩ := get?_zero hleft
    have hpoints : SyntaxError.PointsInto L w₀ (.wrongForm l form) :=
      pointsInto_first (holds_rest hinner hread) hlt hget rfl
    simpa only [hleft] using spec_fail hpoints
  | none =>
    -- No lexeme is left, so the expression reaches up to the end of the window.
    have hrest : rest = q := by
      refine Nat.le_antisymm hstop (Nat.not_lt.1 fun hlt => ?_)
      have hsize : rest < L.lexemes.size := by
        have := hinner.stop
        have := hw₀.2
        omega
      have hzero : 0 < q - rest := by omega
      simp [Window.get?, Window.length, hsize, hzero] at hleft
    subst hrest
    simp only [hleft]
    exact spec_pure ⟨rfl, hread⟩

theorem spec_firstOf {form : Form} {rules : List (Rule Expr)} {P : Expr → Nat → Prop}
    (hw : w₀.Holds lo hi) (hrules : ∀ r ∈ rules, r.Spec L N w₀ lo hi P) :
    (firstOf L form rules).Spec L N w₀ lo hi P := by
  refine spec_bind spec_first ?_
  rintro l lo ⟨rfl, hlt, hget⟩
  induction rules with
  | nil => exact spec_fail (pointsInto_first hw hlt hget rfl)
  | cons r rules ih =>
    exact spec_orElse (hrules r List.mem_cons_self)
      (ih fun r' hr' => hrules r' (List.mem_cons_of_mem _ hr'))

/-! ## Short expressions -/

/-- A token that is an expression of its own. -/
theorem gives_token {l : Lexeme} (hget : L.lexemes[lo]? = some l) (hlt : lo < hi) {e : Expr}
    (he : Token.strip [l.token] = Token.strip e.tokens) : L.Gives hi lo e (lo + 1) :=
  ⟨by omega, (Layout.Reads.token hget hlt).congr he⟩

theorem spec_literal (hw : w₀.Holds lo hi) : (literal L).Spec L N w₀ lo hi (L.Gives hi lo) := by
  refine spec_bind spec_first ?_
  rintro l lo ⟨rfl, hlt, hget⟩
  split
  all_goals first
    | exact spec_fail (pointsInto_first hw hlt hget rfl)
    | rename_i htoken
      refine spec_bind (spec_advance hlt) ?_
      rintro _ _ rfl
      exact spec_pure (gives_token hget hlt (by rw [htoken]; rfl))

theorem spec_variableName (hw : w₀.Holds lo hi) :
    (variableName L).Spec L N w₀ lo hi (L.Gives hi lo) := by
  refine spec_bind (spec_name hw) ?_
  rintro n _ ⟨rfl, hname⟩
  exact spec_pure ⟨by omega, hname⟩

section

-- Each rule reads from `lo` on, inside of `w₀`, and may ask goals about anything shorter.
variable (hw₀ : w₀.Within L.lexemes.size) (hw : w₀.Holds lo hi) (hN : 2 * (hi - lo) ≤ N)
include hw₀ hw hN

theorem spec_element :
    (element L).Spec L N w₀ lo hi fun found k =>
      lo < k ∧ L.Reads hi lo k (elementYield found.1 found.2.1) := by
  refine spec_bind spec_here ?_
  rintro _ _ ⟨rfl, rfl⟩
  refine spec_bind (spec_name hw) ?_
  rintro base _ ⟨rfl, hname⟩
  refine spec_bind (spec_symbol .lbracket (holds_rest hw hname)) ?_
  rintro _ _ ⟨rfl, hopen⟩
  have hread₁ := hname.append hopen
  refine spec_bind (spec_levelFrom hw₀ (holds_rest hw hread₁) (by omega) hN) ?_
  rintro position k ⟨hlt, hposition⟩
  have hread₂ := hread₁.append hposition
  refine spec_bind (spec_symbol .rbracket (holds_rest hw hread₂)) ?_
  rintro _ _ ⟨rfl, hclose⟩
  refine spec_bind spec_spanFrom ?_
  rintro span _ rfl
  refine spec_pure ⟨by omega, (hread₂.append hclose).congr ?_⟩
  simp [elementYield, Token.isLayout]

theorem spec_index : (index L).Spec L N w₀ lo hi (L.Gives hi lo) := by
  refine spec_bind (spec_element hw₀ hw hN) ?_
  rintro ⟨base, position, span⟩ k ⟨hlt, hread⟩
  refine spec_pure ⟨hlt, hread.congr ?_⟩
  simp [elementYield, Expr.tokens, Token.isLayout]

theorem spec_short : (short L).Spec L N w₀ lo hi (L.Gives hi lo) := by
  refine spec_bind spec_first ?_
  rintro l lo ⟨rfl, hlt, hget⟩
  split
  all_goals first
    | exact spec_literal hw
    | exact spec_orElse (spec_index hw₀ hw hN) (spec_variableName hw)
    | exact spec_fail (pointsInto_first hw hlt hget rfl)

/-! ## Operators -/

/-- A sign, and the expression that follows it. -/
theorem spec_sign {p : Punct} {make : Span → Expr → Expr}
    (hmake : ∀ span e, (make span e).tokens = .symbol p :: e.tokens) :
    Rule.Spec L N w₀ (do
      let start ← here
      let _ ← expect L (.symbol p)
      let e ← level .expr
      return make (← spanFrom L start) e) lo hi (L.Gives hi lo) := by
  refine spec_bind spec_here ?_
  rintro _ lo ⟨rfl, rfl⟩
  refine spec_bind (spec_symbol p hw) ?_
  rintro _ _ ⟨rfl, hsign⟩
  refine spec_bind (spec_levelFrom hw₀ (holds_rest hw hsign) (by omega) hN) ?_
  rintro e k ⟨hlt, he⟩
  refine spec_bind spec_spanFrom ?_
  rintro span _ rfl
  refine spec_pure ⟨by omega, (hsign.append he).congr ?_⟩
  rw [hmake, ← Token.strip_append, List.singleton_append]

theorem spec_neg : (neg L).Spec L N w₀ lo hi (L.Gives hi lo) :=
  spec_sign hw₀ hw hN fun span e => by rw [Expr.tokens]

theorem spec_not : (not L).Spec L N w₀ lo hi (L.Gives hi lo) :=
  spec_sign hw₀ hw hN fun span e => by rw [Expr.tokens]

/-- The left operand fills the window before the operator, the right one follows it. -/
theorem spec_binary (hL : L.Sound) (op : BinOp) :
    (binary L op).Spec L N w₀ lo hi (L.Gives hi lo) := by
  have hvalid := hw.valid
  have hwithin : Window.Within ⟨lo, hi⟩ L.lexemes.size := ⟨hw.valid, Nat.le_trans hw.stop hw₀.2⟩
  refine spec_bind spec_window ?_
  rintro _ lo ⟨rfl, rfl⟩
  cases hfind : L.find? op.token ⟨lo, hi⟩ with
  | none => simpa only [hfind] using spec_endOfInput
  | some p =>
    obtain ⟨hlo, hhi, l, hget, htoken⟩ := hL.find hwithin hfind
    simp only at hlo hhi
    -- What is before the operator is shorter by the operator at least.
    have hleft : w₀.Holds lo p := ⟨hw.start, hlo, Nat.le_trans (Nat.le_of_lt hhi) hw.stop⟩
    have hsmall : 2 * (p - lo) + 1 < N := by omega
    refine spec_bind (spec_wholeIn hw₀ hleft hsmall) ?_
    rintro left _ ⟨rfl, hread⟩
    refine spec_bind spec_jump ?_
    rintro _ _ rfl
    have hop : L.Reads hi p (p + 1) (Token.strip [l.token]) := .token hget hhi
    -- The left operand was read in a window that ends at the operator.
    have hread₁ : L.Reads hi _ p _ := ⟨hread.start, Nat.le_of_lt hhi, hread.yield_eq⟩
    have hread₂ := hread₁.append hop
    refine spec_bind (spec_levelFrom hw₀ (holds_rest hw hread₂) (by omega) hN) ?_
    rintro right k ⟨hlt, hright⟩
    refine spec_bind spec_spanFrom ?_
    rintro span _ rfl
    refine spec_pure ⟨by omega, (hread₂.append hright).congr ?_⟩
    rw [htoken, Expr.tokens, Token.strip_append, strip_op, strip_op]
    simp

theorem spec_parens (hL : L.Sound) : (parens L).Spec L N w₀ lo hi (L.Gives hi lo) := by
  refine spec_bind spec_here ?_
  rintro _ lo ⟨rfl, rfl⟩
  refine spec_bind (spec_symbol .lparen hw) ?_
  rintro _ _ ⟨rfl, hopen⟩
  have hstop := hopen.stop
  refine spec_bind spec_window ?_
  rintro _ _ ⟨rfl, rfl⟩
  have hwithin : Window.Within ⟨lo + 1, hi⟩ L.lexemes.size := ⟨hstop, Nat.le_trans hw.stop hw₀.2⟩
  cases hclosing : L.closing? ⟨lo + 1, hi⟩ with
  | none => simpa only [hclosing] using spec_endOfInput
  | some p =>
    obtain ⟨hlo, hhi⟩ := hL.closing hwithin hclosing
    simp only at hlo hhi
    -- What is inside is shorter by the two parentheses.
    have hinner : w₀.Holds (lo + 1) p :=
      ⟨Nat.le_trans hw.start (Nat.le_succ _), hlo, Nat.le_trans (Nat.le_of_lt hhi) hw.stop⟩
    have hsmall : 2 * (p - (lo + 1)) + 1 < N := by omega
    refine spec_bind (spec_wholeIn hw₀ hinner hsmall) ?_
    rintro inner _ ⟨rfl, hread⟩
    refine spec_bind spec_jump ?_
    rintro _ _ rfl
    have hread₁ : L.Reads hi _ _ _ := ⟨hread.start, Nat.le_of_lt hhi, hread.yield_eq⟩
    have hread₂ := hopen.append hread₁
    refine spec_bind (spec_symbol .rparen (holds_rest hw hread₂)) ?_
    rintro _ _ ⟨rfl, hclose⟩
    refine spec_bind spec_spanFrom ?_
    rintro span _ rfl
    refine spec_pure ⟨by omega, (hread₂.append hclose).congr ?_⟩
    simp [Expr.tokens, Token.isLayout]

theorem spec_math (hL : L.Sound) : (math L).Spec L N w₀ lo hi (L.Gives hi lo) := by
  refine spec_firstOf hw ?_
  intro r hr
  simp only [List.mem_cons, List.not_mem_nil, or_false] at hr
  rcases hr with rfl | rfl | rfl | rfl | rfl | rfl | rfl | rfl
  · exact spec_neg hw₀ hw hN
  · exact spec_not hw₀ hw hN
  all_goals first | exact spec_binary hw₀ hw hN hL _ | exact spec_parens hw₀ hw hN hL

theorem spec_comparison (hL : L.Sound) : (comparison L).Spec L N w₀ lo hi (L.Gives hi lo) := by
  refine spec_firstOf hw ?_
  intro r hr
  simp only [List.mem_cons, List.not_mem_nil, or_false] at hr
  rcases hr with rfl | rfl | rfl | rfl
  all_goals exact spec_binary hw₀ hw hN hL _

/-! ## Statements -/

/-- `name = value`. -/
theorem spec_assignment :
    (assignment L).Spec L N w₀ lo hi fun found k => lo < k ∧
      L.Reads hi lo k (.ident found.1 :: .symbol .equals :: Token.strip found.2.tokens) := by
  refine spec_bind (spec_name hw) ?_
  rintro n _ ⟨rfl, hname⟩
  refine spec_bind (spec_symbol .equals (holds_rest hw hname)) ?_
  rintro _ _ ⟨rfl, hequals⟩
  have hread := hname.append hequals
  refine spec_bind (spec_levelFrom hw₀ (holds_rest hw hread) (by omega) hN) ?_
  rintro value k ⟨hlt, hvalue⟩
  refine spec_pure ⟨by omega, (hread.append hvalue).congr ?_⟩
  simp [Token.isLayout]

theorem spec_assign : (assign L).Spec L N w₀ lo hi (L.Gives hi lo) := by
  refine spec_bind spec_here ?_
  rintro _ lo ⟨rfl, rfl⟩
  refine spec_bind (spec_assignment hw₀ hw hN) ?_
  rintro ⟨n, value⟩ k ⟨hlt, hread⟩
  refine spec_bind spec_spanFrom ?_
  rintro span _ rfl
  refine spec_pure ⟨hlt, hread.congr ?_⟩
  simp [Expr.tokens, Token.isLayout]

theorem spec_declaration {l : Lexeme} {mutable : Bool} {start : Nat}
    (hlt : lo < hi) (hget : L.lexemes[lo]? = some l)
    (htoken : l.token = .keyword (if mutable then .varKw else .valKw)) :
    (binding.declaration L start mutable).Spec L N w₀ lo hi (L.Gives hi lo) := by
  have hfirst : L.Reads hi lo (lo + 1) (Token.strip [l.token]) := .token hget hlt
  refine spec_bind (spec_advance hlt) ?_
  rintro _ _ rfl
  refine spec_bind (spec_assignment hw₀ (holds_rest hw hfirst) (by omega)) ?_
  rintro ⟨n, value⟩ k ⟨hk, hread⟩
  refine spec_bind spec_spanFrom ?_
  rintro span _ rfl
  refine spec_pure ⟨by omega, (hfirst.append hread).congr ?_⟩
  rw [htoken]
  cases mutable <;> simp [Expr.tokens, Token.isLayout]

theorem spec_binding : (binding L).Spec L N w₀ lo hi (L.Gives hi lo) := by
  refine spec_bind spec_here ?_
  rintro _ lo ⟨rfl, rfl⟩
  refine spec_bind spec_first ?_
  rintro l lo ⟨rfl, hlt, hget⟩
  split
  · exact spec_declaration hw₀ hw hN hlt hget (by assumption)
  · exact spec_declaration hw₀ hw hN hlt hget (by assumption)
  · exact spec_fail (pointsInto_first hw hlt hget rfl)

theorem spec_call : (call L).Spec L N w₀ lo hi (L.Gives hi lo) := by
  refine spec_bind spec_here ?_
  rintro _ lo ⟨rfl, rfl⟩
  refine spec_bind (spec_name hw) ?_
  rintro n _ ⟨rfl, hname⟩
  have hargument : ∀ k, lo + 1 < k → w₀.Holds k hi →
      (level .expr).Spec L N w₀ k hi fun e k' => L.Reads hi k k' (Token.strip e.tokens) :=
    fun k hk hw' => (spec_levelFrom hw₀ hw' (by omega) hN).imp fun e k' he => he.2
  refine spec_bind (spec_sequence rfl hargument (holds_rest hw hname)) ?_
  rintro args k ⟨hlt, hargs⟩
  refine spec_bind spec_spanFrom ?_
  rintro span _ rfl
  refine spec_pure ⟨by omega, (hname.append hargs).congr ?_⟩
  simp [Expr.tokens, Token.isLayout, strip_separate, tokensOfAll_eq, List.flatMap_map]

theorem spec_store : (store L).Spec L N w₀ lo hi (L.Gives hi lo) := by
  refine spec_bind spec_here ?_
  rintro _ lo ⟨rfl, rfl⟩
  refine spec_bind (spec_element hw₀ hw hN) ?_
  rintro ⟨base, position, target⟩ k ⟨hlt, helement⟩
  refine spec_bind (spec_symbol .equals (holds_rest hw helement)) ?_
  rintro _ _ ⟨rfl, hequals⟩
  have hread := helement.append hequals
  refine spec_bind (spec_levelFrom hw₀ (holds_rest hw hread) (by omega) hN) ?_
  rintro value k' ⟨hlt', hvalue⟩
  refine spec_bind spec_spanFrom ?_
  rintro span _ rfl
  refine spec_pure ⟨by omega, (hread.append hvalue).congr ?_⟩
  simp [elementYield, Expr.tokens, Token.isLayout]

/-- A condition or an iterable up to the closing parenthesis, and the block that it governs. -/
theorem spec_governed {k₀ : Nat} {α : Type} {ts : List Token}
    {f : Expr → List Expr → Rule α} {P : α → Nat → Prop} (hlo : lo < k₀)
    (hread : L.Reads hi lo k₀ ts)
    (hf : ∀ e es k, lo < k → L.Reads hi lo k
      (ts ++ (Token.strip e.tokens ++ .symbol .rparen :: yieldAll es)) →
        (f e es).Spec L N w₀ k hi P) :
    Rule.Spec L N w₀ (do
      let e ← level .expr
      let _ ← expect L (.symbol .rparen)
      let es ← body L
      f e es) k₀ hi P := by
  refine spec_bind (spec_levelFrom hw₀ (holds_rest hw hread) hlo hN) ?_
  rintro e k₁ ⟨hlt₁, he⟩
  have hread₁ := hread.append he
  refine spec_bind (spec_symbol .rparen (holds_rest hw hread₁)) ?_
  rintro _ _ ⟨rfl, hclose⟩
  have hread₂ := hread₁.append hclose
  refine spec_bind (spec_body hw₀ (holds_rest hw hread₂) (by omega)) ?_
  rintro es k₂ ⟨hlt₂, hes⟩
  refine hf e es k₂ (by omega) ((hread₂.append hes).congr ?_)
  simp [Token.isLayout]

theorem spec_branch : (branch L).Spec L N w₀ lo hi (L.Gives hi lo) := by
  refine spec_bind spec_here ?_
  rintro _ lo ⟨rfl, rfl⟩
  refine spec_bind (spec_keyword .ifKw hw) ?_
  rintro _ _ ⟨rfl, hkw⟩
  refine spec_bind (spec_symbol .lparen (holds_rest hw hkw)) ?_
  rintro _ _ ⟨rfl, hopen⟩
  refine spec_governed hw₀ hw hN (by omega) (hkw.append hopen) ?_
  intro cond thenBody k hk hread
  refine spec_bind (spec_nextIs fun _ => eq_of_accepts_keyword) ?_
  rintro found _ ⟨rfl, hfound⟩
  cases found with
  | false =>
    -- Without `else` the else branch is empty, and empty else branches have no tokens.
    refine spec_bind spec_spanFrom ?_
    rintro span _ rfl
    refine spec_pure ⟨hk, hread.congr ?_⟩
    simp [Expr.tokens, Token.isLayout, strip_braced, Expr.tokensOfAll, Expr.elsePart]
  | true =>
    have helse := hfound rfl
    have hread₁ := hread.append helse
    have hstop := hread₁.stop
    refine spec_bind (spec_advance hstop) ?_
    rintro _ _ rfl
    refine spec_bind (spec_otherwise hw₀ (holds_rest hw hread₁) (by omega)) ?_
    rintro elseBody k₂ ⟨hlt, hothers⟩
    refine spec_bind spec_spanFrom ?_
    rintro span _ rfl
    refine spec_pure ⟨by omega, (hread₁.append hothers).congr ?_⟩
    simp [Expr.tokens, Token.isLayout, strip_braced, strip_elsePart]

theorem spec_forIn : (forIn L).Spec L N w₀ lo hi (L.Gives hi lo) := by
  refine spec_bind spec_here ?_
  rintro _ lo ⟨rfl, rfl⟩
  refine spec_bind (spec_keyword .forKw hw) ?_
  rintro _ _ ⟨rfl, hkw⟩
  refine spec_bind (spec_symbol .lparen (holds_rest hw hkw)) ?_
  rintro _ _ ⟨rfl, hopen⟩
  have hread₁ := hkw.append hopen
  refine spec_bind (spec_name (holds_rest hw hread₁)) ?_
  rintro n _ ⟨rfl, hname⟩
  have hread₂ := hread₁.append hname
  refine spec_bind (spec_keyword .inKw (holds_rest hw hread₂)) ?_
  rintro _ _ ⟨rfl, hin⟩
  refine spec_governed hw₀ hw hN (by omega) (hread₂.append hin) ?_
  intro iterable loopBody k hk hread
  refine spec_bind spec_spanFrom ?_
  rintro span _ rfl
  refine spec_pure ⟨hk, hread.congr ?_⟩
  simp [Expr.tokens, Token.isLayout, strip_braced]

theorem spec_loop : (loop L).Spec L N w₀ lo hi (L.Gives hi lo) := by
  refine spec_bind spec_here ?_
  rintro _ lo ⟨rfl, rfl⟩
  refine spec_bind (spec_keyword .whileKw hw) ?_
  rintro _ _ ⟨rfl, hkw⟩
  refine spec_bind (spec_symbol .lparen (holds_rest hw hkw)) ?_
  rintro _ _ ⟨rfl, hopen⟩
  refine spec_governed hw₀ hw hN (by omega) (hkw.append hopen) ?_
  intro cond loopBody k hk hread
  refine spec_bind spec_spanFrom ?_
  rintro span _ rfl
  refine spec_pure ⟨hk, hread.congr ?_⟩
  simp [Expr.tokens, Token.isLayout, strip_braced]

theorem spec_ret : (ret L).Spec L N w₀ lo hi (L.Gives hi lo) := by
  refine spec_bind spec_here ?_
  rintro _ lo ⟨rfl, rfl⟩
  refine spec_bind (spec_keyword .returnKw hw) ?_
  rintro _ _ ⟨rfl, hkw⟩
  have hvalue : (orElse (do return some (← level .expr)) (return none) :
      Rule (Option Expr)).Spec L N w₀ (lo + 1) hi fun value? k =>
        L.Reads hi (lo + 1) k (valueYield value?) := by
    refine spec_orElse ?_ (spec_pure (.refl hkw.stop))
    refine spec_bind (spec_levelFrom hw₀ (holds_rest hw hkw) (by omega) hN) ?_
    rintro value k ⟨-, hvalue⟩
    exact spec_pure hvalue
  refine spec_bind hvalue ?_
  intro value? k hvalue
  have hread := hkw.append hvalue
  have hlt := hvalue.start
  cases value? with
  | none =>
    refine spec_bind spec_spanFrom ?_
    rintro span _ rfl
    exact spec_pure ⟨hlt, hread⟩
  | some value =>
    refine spec_bind spec_spanFrom ?_
    rintro span _ rfl
    refine spec_pure ⟨hlt, hread.congr ?_⟩
    simp [Expr.tokens, Token.isLayout, valueYield]

theorem spec_control : (control L).Spec L N w₀ lo hi (L.Gives hi lo) := by
  refine spec_bind spec_first ?_
  rintro l lo ⟨rfl, hlt, hget⟩
  split
  · exact spec_branch hw₀ hw hN
  · exact spec_forIn hw₀ hw hN
  · exact spec_loop hw₀ hw hN
  · exact spec_ret hw₀ hw hN
  · exact spec_fail (pointsInto_first hw hlt hget rfl)

theorem spec_top : (top L).Spec L N w₀ lo hi (L.Gives hi lo) := by
  refine spec_bind spec_first ?_
  rintro l lo ⟨rfl, hlt, hget⟩
  split
  · refine spec_firstOf hw ?_
    intro r hr
    simp only [List.mem_cons, List.not_mem_nil, or_false] at hr
    rcases hr with rfl | rfl | rfl
    · exact spec_assign hw₀ hw hN
    · exact spec_call hw₀ hw hN
    · exact spec_store hw₀ hw hN
  all_goals first
    | exact spec_control hw₀ hw hN
    | exact spec_binding hw₀ hw hN
    | exact spec_fail (pointsInto_first hw hlt hget rfl)

end

/-! ## Every level -/

/-- The longest of several good readings is a good reading. -/
theorem sat_longest {w : Window} (hw : w.Within L.lexemes.size) (levels : List Level)
    (hlevels : ∀ l ∈ levels, Goal.size ⟨l, w⟩ < N) {best : Option (Expr × Nat)}
    (hbest : ∀ found, best = some found → L.Gives w.hi w.lo found.1 found.2) :
    (longest levels best w).Sat (fun g => g.window.Within L.lexemes.size ∧ g.size < N)
      (Goal.Good L) fun best' => ∀ found, best' = some found →
        L.Gives w.hi w.lo found.1 found.2 := by
  induction levels generalizing best with
  | nil => exact hbest
  | cons l levels ih =>
    -- The best so far stays good, whichever of the two is kept.
    refine ⟨⟨hw, hlevels l List.mem_cons_self⟩, ?_⟩
    intro o ho
    refine ih (fun l' hl' => hlevels l' (List.mem_cons_of_mem _ hl')) ?_
    intro found hfound
    cases o with
    | error e => exact hbest found hfound
    | ok found' =>
      cases best with
      | none =>
        obtain rfl : found' = found := Option.some.inj hfound
        exact ho
      | some b =>
        rw [longer] at hfound
        split at hfound
        · obtain rfl : found' = found := Option.some.inj hfound
          exact ho
        · exact hbest found hfound

theorem spec_expr (hw₀ : w₀.Within L.lexemes.size) (hw : w₀.Holds lo hi)
    (hN : 2 * (hi - lo) < N) : (expr L).Spec L N w₀ lo hi (L.Gives hi lo) := by
  refine spec_bind spec_first ?_
  rintro l lo ⟨rfl, hlt, hget⟩
  have hwithin : Window.Within ⟨lo, hi⟩ L.lexemes.size := ⟨hw.valid, Nat.le_trans hw.stop hw₀.2⟩
  refine Query.Sat.bind (sat_longest hwithin _ ?_ ?_) ?_
  · -- The four levels that `expr` asks for are all smaller goals than `expr` itself.
    intro l' hl'
    have hne : l' ≠ .expr := by
      rintro rfl
      simp at hl'
    simpa [Goal.size, Window.length, hne] using hN
  · intro found hfound
    cases hfound
  · intro best hbest
    cases best with
    | none => exact pointsInto_first hw hlt hget rfl
    | some found => exact hbest found rfl

/-- The rule of every level asks smaller goals, and good answers give a good answer. -/
theorem spec_ofLevel (hL : L.Sound) {g : Goal} (hg : g.window.Within L.lexemes.size) :
    (ofLevel L g.level).Spec L g.size g.window g.window.lo g.window.hi
      (L.Gives g.window.hi g.window.lo) := by
  obtain ⟨l, w⟩ := g
  have hholds : w.Holds w.lo w.hi := hg.holds
  have hsize : 2 * (w.hi - w.lo) ≤ Goal.size ⟨l, w⟩ := by
    simp only [Goal.size, Window.length]
    omega
  cases l with
  | expr => exact spec_expr hg hholds (by simp [Goal.size, Window.length])
  | top => exact spec_top hg hholds hsize
  | math => exact spec_math hg hholds hsize hL
  | comparison => exact spec_comparison hg hholds hsize hL
  | short => exact spec_short hg hholds hsize

end Scriptlet.Grammar
