import Scriptlet.Proofs.Grammar.Nesting

/-!
# Counting parentheses

What the searches of a `Nesting` find, told by a counter that starts at 0 with a window, goes up
with every opening parenthesis and down with every closing one: `Nesting.searches_count`.  Depths
count from the start of the whole list, where parentheses may be unmatched, and the tables are made
for the whole list; yet what is found in a window depends on the tokens of the window alone.
-/

namespace Scriptlet

/-- The tokens of a window. -/
def Window.tokens (w : Window) (ts : List Token) : List Token := (ts.drop w.lo).take w.length

namespace Nesting

/-! ## The counter -/

/-- Counting from the start of `ts`, token `k` is the first closing parenthesis that takes the
counter below 0. -/
structure IsCloser (ts : List Token) (k : Nat) : Prop where
  /-- A closing parenthesis stands there. -/
  token : ts[k]? = some (.symbol .rparen)
  /-- It takes the counter below 0. -/
  below : rise ts (k + 1) < 0
  /-- No token before it does so. -/
  first : ∀ j < k, 0 ≤ rise ts (j + 1)

/-- Counting from the start of `ts`, token `k` is the first `t` at counter 0, and stands before a
parenthesis that takes the counter below 0. -/
structure IsTopmost (t : Token) (ts : List Token) (k : Nat) : Prop where
  /-- The token stands there. -/
  token : ts[k]? = some t
  /-- As many parentheses were closed as were opened. -/
  outside : rise ts k = 0
  /-- The parenthesis that closes one more, if there is one, stands behind. -/
  before : ∀ c, IsCloser ts c → k < c
  /-- No token before it is such a token. -/
  first : ∀ j < k, ¬ (ts[j]? = some t ∧ rise ts j = 0)

/-- Token `k` is the first `t` at counter 0, whatever parentheses are closed before. -/
def IsFirst (t : Token) (ts : List Token) (k : Nat) : Prop :=
  (ts[k]? = some t ∧ rise ts k = 0) ∧ ∀ j < k, ¬ (ts[j]? = some t ∧ rise ts j = 0)

theorem rise_succ {ts : List Token} {k : Nat} {t : Token} (h : ts[k]? = some t) :
    rise ts (k + 1) = rise ts k + t.nesting := by
  induction ts generalizing k with
  | nil => cases h
  | cons u us ih =>
    cases k with
    | zero =>
      obtain rfl : u = t := Option.some.inj h
      rw [rise_cons, rise_zero, rise_zero, Int.add_comm]
    | succ k => rw [rise_cons, rise_cons, ih h, Int.add_assoc]

theorem rise_succ_of_none {ts : List Token} {k : Nat} (h : ts[k]? = none) :
    rise ts (k + 1) = rise ts k := by
  have hlen := List.getElem?_eq_none_iff.1 h
  rw [rise, rise, List.take_of_length_le hlen, List.take_of_length_le (Nat.le_succ_of_le hlen)]

/-- Only a closing parenthesis takes the counter down. -/
theorem rise_succ_nonneg {ts : List Token} {k : Nat} (h : 0 ≤ rise ts k)
    (hk : ¬ (ts[k]? = some (.symbol .rparen) ∧ rise ts k = 0)) : 0 ≤ rise ts (k + 1) := by
  cases hget : ts[k]? with
  | none => rwa [rise_succ_of_none hget]
  | some t =>
    rw [rise_succ hget]
    by_cases ht : t = .symbol .rparen
    · have hne : rise ts k ≠ 0 := fun hzero => hk ⟨by rw [hget, ht], hzero⟩
      rw [ht, Token.nesting]
      omega
    · have hnesting : 0 ≤ t.nesting := by
        cases t with
        | symbol p => cases p <;> simp_all [Token.nesting]
        | _ => simp [Token.nesting]
      omega

/-- The counter is not below 0 before the first closing parenthesis at counter 0. -/
theorem rise_nonneg {ts : List Token} {k : Nat}
    (h : ∀ j < k, ¬ (ts[j]? = some (.symbol .rparen) ∧ rise ts j = 0)) : 0 ≤ rise ts k := by
  induction k with
  | zero => exact Int.le_of_eq (rise_zero ts).symm
  | succ k ih =>
    exact rise_succ_nonneg (ih fun j hj => h j (Nat.lt_succ_of_lt hj)) (h k (Nat.lt_succ_self k))

/-- The first closing parenthesis at counter 0 is the first token that takes the counter below 0. -/
theorem isCloser_iff {ts : List Token} {k : Nat} :
    IsCloser ts k ↔ IsFirst (.symbol .rparen) ts k := by
  constructor
  · intro h
    have hbelow := h.below
    have hstart : 0 ≤ rise ts k := by
      cases k with
      | zero => exact Int.le_of_eq (rise_zero ts).symm
      | succ k => exact h.first k (Nat.lt_succ_self k)
    rw [rise_succ h.token, Token.nesting] at hbelow
    refine ⟨⟨h.token, by omega⟩, ?_⟩
    rintro j hj ⟨hget, hzero⟩
    have hnext := h.first j hj
    rw [rise_succ hget, hzero, Token.nesting] at hnext
    omega
  · rintro ⟨⟨hget, hzero⟩, hfirst⟩
    refine ⟨hget, ?_, fun j hj => rise_nonneg fun i hi => hfirst i (by omega)⟩
    rw [rise_succ hget, hzero, Token.nesting]
    decide

/-! ## Windows -/

theorem rise_take {ts : List Token} {n k : Nat} (h : k ≤ n) : rise (ts.take n) k = rise ts k := by
  rw [rise, rise, List.take_take, Nat.min_eq_left h]

/-- Counting in the first `n` tokens is counting in all of them, up to there. -/
theorem isFirst_take {t : Token} {ts : List Token} {n k : Nat} :
    IsFirst t (ts.take n) k ↔ k < n ∧ IsFirst t ts k := by
  have hsame : ∀ j < n, ((ts.take n)[j]? = some t ∧ rise (ts.take n) j = 0 ↔
      ts[j]? = some t ∧ rise ts j = 0) := by
    intro j hj
    rw [List.getElem?_take_of_lt hj, rise_take (Nat.le_of_lt hj)]
  constructor
  · rintro ⟨htoken, hfirst⟩
    have hlt : k < n := by
      have hlen := (List.getElem?_eq_some_iff.1 htoken.1).1
      rw [List.length_take] at hlen
      omega
    have hbefore := fun j hj => (not_congr (hsame j (by omega))).1 (hfirst j hj)
    exact ⟨hlt, (hsame k hlt).1 htoken, hbefore⟩
  · rintro ⟨hlt, htoken, hfirst⟩
    exact ⟨(hsame k hlt).2 htoken, fun j hj => (not_congr (hsame j (by omega))).2 (hfirst j hj)⟩

theorem isCloser_take {ts : List Token} {n k : Nat} :
    IsCloser (ts.take n) k ↔ k < n ∧ IsCloser ts k := by
  rw [isCloser_iff, isCloser_iff, isFirst_take]

theorem isTopmost_iff {t : Token} {ts : List Token} {k : Nat} :
    IsTopmost t ts k ↔ IsFirst t ts k ∧ ∀ c, IsCloser ts c → k < c :=
  ⟨fun h => ⟨⟨⟨h.token, h.outside⟩, h.first⟩, h.before⟩, fun h => ⟨h.1.1.1, h.1.1.2, h.2, h.1.2⟩⟩

theorem isTopmost_take {t : Token} {ts : List Token} {n k : Nat} :
    IsTopmost t (ts.take n) k ↔ k < n ∧ IsTopmost t ts k := by
  simp only [isTopmost_iff, isFirst_take, isCloser_take, and_assoc]
  refine and_congr_right fun hlt => and_congr_right fun _ => ?_
  -- A parenthesis behind the first `n` tokens is behind token `k` anyway.
  exact ⟨fun h c hc => (Nat.lt_or_ge c n).elim (fun hcn => h c ⟨hcn, hc⟩) (Nat.lt_of_lt_of_le hlt),
    fun h c hc => h c hc.2⟩

/-! ## The tables -/

/-- The first occurrence at depth `d`, when the counter stands at `e` before the first token. -/
theorem firstAt_eq_some_iff {t : Token} {d e : Int} {ts : List Token} {i p : Nat} :
    firstAt t d i e ts = some p ↔ i ≤ p ∧ (ts[p - i]? = some t ∧ e + rise ts (p - i) = d) ∧
      ∀ j < p - i, ¬ (ts[j]? = some t ∧ e + rise ts j = d) := by
  induction ts generalizing i e with
  | nil => simp [firstAt]
  | cons u us ih =>
    rw [firstAt]
    split
    · rename_i hu
      constructor
      · intro h
        obtain rfl := Option.some.inj h
        simpa using hu
      · rintro ⟨hle, -, hfirst⟩
        -- Nothing stands before the first token.
        have hzero : ¬ 0 < p - i := fun hlt => hfirst 0 hlt (by simpa using hu)
        exact congrArg some (by omega)
    · rename_i hu
      rw [ih]
      constructor
      · rintro ⟨hle, hfound, hfirst⟩
        have hsub : p - i = p - (i + 1) + 1 := by omega
        refine ⟨by omega, by simpa [hsub, Int.add_assoc] using hfound, ?_⟩
        intro j hj
        cases j with
        | zero => simpa using hu
        | succ j => simpa [Int.add_assoc] using hfirst j (by omega)
      · rintro ⟨hle, hfound, hfirst⟩
        have hne : p ≠ i := by
          rintro rfl
          exact hu (by simpa using hfound)
        have hsub : p - i = p - (i + 1) + 1 := by omega
        rw [hsub] at hfound hfirst
        refine ⟨by omega, by simpa [Int.add_assoc] using hfound, ?_⟩
        intro j hj
        simpa [Int.add_assoc] using hfirst (j + 1) (by omega)

theorem nextAt_eq_some_iff {t : Token} {ts : List Token} {lo p : Nat} :
    nextAt t ts lo = some p ↔ lo ≤ p ∧ IsFirst t (ts.drop lo) (p - lo) := by
  have hsame : ∀ x : Int, rise ts lo + x = rise ts lo ↔ x = 0 := fun x => by omega
  rw [nextAt, firstAt_eq_some_iff]
  simp only [hsame, IsFirst]

/-- Being before the first closing parenthesis that the table holds, or before the end of the list
where it holds none. -/
theorem lt_nextAt_iff {ts : List Token} {lo p : Nat} (hlo : lo ≤ p) (hp : p < ts.length) :
    p < (nextAt (.symbol .rparen) ts lo).getD ts.length ↔
      ∀ c, IsCloser (ts.drop lo) c → p - lo < c := by
  have hcloser : ∀ c, IsCloser (ts.drop lo) c →
      nextAt (.symbol .rparen) ts lo = some (lo + c) := by
    intro c hc
    rw [nextAt_eq_some_iff, Nat.add_sub_cancel_left]
    exact ⟨Nat.le_add_right lo c, isCloser_iff.1 hc⟩
  cases hnext : nextAt (.symbol .rparen) ts lo with
  | none =>
    refine iff_of_true hp fun c hc => ?_
    cases hnext.symm.trans (hcloser c hc)
  | some q =>
    obtain ⟨hloq, hq⟩ := nextAt_eq_some_iff.1 hnext
    rw [Option.getD_some]
    constructor
    · intro hlt c hc
      have hsame := Option.some.inj (hnext.symm.trans (hcloser c hc))
      omega
    · intro hbefore
      have hlt := hbefore (q - lo) (isCloser_iff.2 hq)
      omega

/-- Searches count from the start of their window: the closing parenthesis that is found is the
first one that takes the counter below 0, and the token that is found is the first one at counter 0
that stands before it.  Where the window holds no such token, nothing is found. -/
theorem searches_count (ts : List Token) {w : Window} (hw : w.Within ts.length) (p : Nat) :
    ((ofTokens ts).closing? w = some p ↔ w.lo ≤ p ∧ IsCloser (w.tokens ts) (p - w.lo)) ∧
      ∀ t, (ofTokens ts).find? t w = some p ↔
        w.lo ≤ p ∧ IsTopmost t (w.tokens ts) (p - w.lo) := by
  have hinside : w.lo ≤ p → (p < w.hi ↔ p - w.lo < w.length) := by
    intro hle
    rw [Window.length]
    omega
  constructor
  · rw [closing?_ofTokens hw.1 hw.2, Option.filter_eq_some_iff, nextAt_eq_some_iff, ← isCloser_iff,
      Window.tokens, isCloser_take, decide_eq_true_eq, and_assoc]
    refine and_congr_right fun hle => ?_
    rw [hinside hle, and_comm]
  · intro t
    rw [find?_ofTokens ts t hw.1 hw.2, Option.filter_eq_some_iff, nextAt_eq_some_iff,
      Window.tokens, isTopmost_take, isTopmost_iff, decide_eq_true_eq, Nat.lt_min, and_assoc]
    refine and_congr_right fun hle => ?_
    rw [hinside hle, and_left_comm]
    refine and_congr_right fun hlt => and_congr_right fun _ => ?_
    have hlast := (hinside hle).2 hlt
    exact lt_nextAt_iff hle (Nat.lt_of_lt_of_le hlast hw.2)

/-- The tokens of `a)(+b)-c)+`. -/
def unbalanced : List Token :=
  [.ident "a", .symbol .rparen, .symbol .lparen, .symbol .plus, .ident "b", .symbol .rparen,
   .symbol .minus, .ident "c", .symbol .rparen, .symbol .plus]

/-- Behind an unmatched parenthesis, where one sum is inside of parentheses and the other one behind
the parenthesis that closes the window. -/
theorem searches_count_unbalanced :
    Window.Within ⟨2, 10⟩ unbalanced.length ∧
      (ofTokens unbalanced).closing? ⟨2, 10⟩ = some 8 ∧
      (ofTokens unbalanced).find? (.symbol .minus) ⟨2, 10⟩ = some 6 ∧
      (ofTokens unbalanced).find? (.symbol .plus) ⟨2, 10⟩ = none := by
  have hw : Window.Within ⟨2, 10⟩ unbalanced.length := ⟨by decide, by decide⟩
  have hcloser : IsCloser (Window.tokens ⟨2, 10⟩ unbalanced) 6 :=
    ⟨by decide, by decide, by decide⟩
  refine ⟨hw, ((searches_count unbalanced hw 8).1).2 ⟨by decide, hcloser⟩,
    ((searches_count unbalanced hw 6).2 _).2 ⟨by decide, by decide, by decide, ?_, by decide⟩, ?_⟩
  · intro c hc
    have hearly : ∀ j ≤ 4, ¬ rise (Window.tokens ⟨2, 10⟩ unbalanced) (j + 1) < 0 := by decide
    exact Nat.lt_of_not_le fun hle => hearly c hle hc.below
  · refine Option.eq_none_iff_forall_ne_some.2 fun p hp => ?_
    obtain ⟨-, hplus⟩ := ((searches_count unbalanced hw p).2 _).1 hp
    have hinner : ∀ j < 6, (Window.tokens ⟨2, 10⟩ unbalanced)[j]? = some (.symbol .plus) →
        rise (Window.tokens ⟨2, 10⟩ unbalanced) j ≠ 0 := by decide
    exact hinner _ (hplus.before 6 hcloser) hplus.token hplus.outside

end Nesting

end Scriptlet
