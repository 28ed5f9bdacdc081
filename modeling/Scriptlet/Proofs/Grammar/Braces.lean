import Mathlib.Algebra.BigOperators.Group.List.Basic
import Mathlib.Algebra.Ring.Int.Defs
import Mathlib.Data.Nat.Find
import Scriptlet.Proofs.Grammar.ReadBack

/-!
# Two windows that start alike

Two windows, of the lexemes of one source or of two, start with the same lexemes.  Either they hold
nothing else, or in both the next lexeme is a brace that closes more than was opened: `Guarded`.
What is alike shrinks as lexemes are read, as a window is cut in two and as a block is entered.
-/

namespace Scriptlet

/-! ## The next lexeme -/

theorem Window.get?_zero_of_lt {lexemes : Array Lexeme} {lo hi : Nat} (h : lo < hi) :
    Window.get? ⟨lo, hi⟩ lexemes 0 = lexemes[lo]? := by
  rw [Window.get?, if_pos]
  · rfl
  · simp only [Window.length]
    omega

theorem Window.get?_zero_of_le {lexemes : Array Lexeme} {lo hi : Nat} (h : hi ≤ lo) :
    Window.get? ⟨lo, hi⟩ lexemes 0 = none := by
  rw [Window.get?, if_neg]
  simp only [Window.length]
  omega

/-! ## Braces -/

/-- How a token changes the number of open braces. -/
def Token.bracing : Token → Int
  | .symbol .lbrace => 1
  | .symbol .rbrace => -1
  | _ => 0

theorem Token.eq_rbrace {t : Token} (h : t.bracing < 0) : t = .symbol .rbrace := by
  unfold Token.bracing at h
  split at h
  · omega
  · rfl
  · omega

namespace Layout

variable {L L' : Layout} {d lo m k j hi hi' : Nat}

/-- Braces open before lexeme `k`. -/
def depth (L : Layout) (k : Nat) : Int :=
  ((L.lexemes.toList.take k).map fun l => l.token.bracing).sum

theorem depth_succ {l : Lexeme} (h : L.lexemes[k]? = some l) :
    L.depth (k + 1) = L.depth k + l.token.bracing := by
  have hget : L.lexemes.toList[k]? = some l := by simpa using h
  rw [depth, depth, List.take_add_one, hget]
  simp

/-- From lexeme `lo` up to `k` every brace is opened and closed. -/
structure Balanced (L : Layout) (lo k : Nat) : Prop where
  le : lo ≤ k
  depth_eq : L.depth k = L.depth lo
  above : ∀ i, lo ≤ i → i ≤ k → L.depth lo ≤ L.depth i

namespace Balanced

theorem refl (L : Layout) (k : Nat) : L.Balanced k k where
  le := Nat.le_refl k
  depth_eq := rfl
  above i hlo hhi := Int.le_of_eq (by rw [Nat.le_antisymm hhi hlo])

theorem trans (h : L.Balanced lo k) (h' : L.Balanced k j) : L.Balanced lo j where
  le := Nat.le_trans h.le h'.le
  depth_eq := h'.depth_eq.trans h.depth_eq
  above i hlo hhi := by
    rcases Nat.le_total i k with hik | hik
    · exact h.above i hlo hik
    · rw [← h.depth_eq]
      exact h'.above i hik hhi

/-- One more token that is no brace. -/
theorem step {l : Lexeme} (h : L.Balanced lo k) (hget : L.lexemes[k]? = some l)
    (hl : l.token.bracing = 0) : L.Balanced lo (k + 1) := by
  have hsucc := depth_succ hget
  rw [hl, Int.add_zero, h.depth_eq] at hsucc
  refine ⟨Nat.le_succ_of_le h.le, hsucc, fun i hlo hhi => ?_⟩
  rcases Nat.lt_or_ge k i with hki | hik
  · obtain rfl : i = k + 1 := by omega
    exact Int.le_of_eq hsucc.symm
  · exact h.above i hlo hik

/-- What is left of balanced braces behind balanced ones is balanced. -/
theorem rest (h : L.Balanced lo k) (hm : L.Balanced lo m) (hkm : k ≤ m) : L.Balanced k m where
  le := hkm
  depth_eq := hm.depth_eq.trans h.depth_eq.symm
  above i hlo hhi := by
    rw [h.depth_eq]
    exact hm.above i (Nat.le_trans h.le hlo) hhi

/-- Inside of a block that closes before `m` braces are balanced up to its end. -/
theorem exists_close {l : Lexeme} (h : L.Balanced lo m) (hsize : m ≤ L.lexemes.size)
    (hk : L.Balanced lo k) (hkm : k < m) (hopen : L.lexemes[k]? = some l)
    (hl : l.token = .symbol .lbrace) :
    ∃ c l', c < m ∧ L.Balanced (k + 1) c ∧ L.lexemes[c]? = some l' ∧
      l'.token = .symbol .rbrace := by
  have hopened := depth_succ hopen
  rw [hl] at hopened
  simp only [Token.bracing] at hopened
  have hdown : ∃ i, k + 1 ≤ i ∧ L.depth i < L.depth (k + 1) := by
    refine ⟨m, hkm, ?_⟩
    rw [h.depth_eq, hopened, hk.depth_eq]
    omega
  -- The first place where fewer braces are open is right behind the brace that closes the block.
  obtain ⟨hfirst, hless⟩ := Nat.find_spec hdown
  have hmin : ∀ i, k + 1 ≤ i → i < Nat.find hdown → L.depth (k + 1) ≤ L.depth i := by
    intro i hi hlt
    have hnot := Nat.find_min hdown hlt
    simp only [not_and, Int.not_lt] at hnot
    exact hnot hi
  have hle : Nat.find hdown ≤ m := by
    apply Nat.find_min' hdown
    refine ⟨hkm, ?_⟩
    rw [h.depth_eq, hopened, hk.depth_eq]
    omega
  obtain ⟨c, hc⟩ : ∃ c, Nat.find hdown = c + 1 := ⟨Nat.find hdown - 1, by omega⟩
  rw [hc] at hfirst hless hmin hle
  have hlt : c < L.lexemes.size := by omega
  have hget : L.lexemes[c]? = some L.lexemes[c] := Array.getElem?_eq_getElem hlt
  have hkc : k + 1 ≤ c := by
    rcases Nat.eq_or_lt_of_le hfirst with heq | hlt
    · rw [← heq] at hless
      exact absurd hless (Int.lt_irrefl _)
    · omega
  have hsucc := depth_succ hget
  have hat := hmin c hkc (Nat.lt_succ_self c)
  have hclose : L.lexemes[c].token = .symbol .rbrace := Token.eq_rbrace (by omega)
  rw [hclose] at hsucc
  simp only [Token.bracing] at hsucc
  have hlevel : L.depth c = L.depth (k + 1) := by omega
  exact ⟨c, _, by omega, ⟨hkc, hlevel, fun i hlo hhi => hmin i hlo (by omega)⟩, hget, hclose⟩

end Balanced

/-- From lexeme `k` up to `j` stands a block: two braces, and balanced ones between them. -/
def Block (L : Layout) (k j : Nat) : Prop :=
  ∃ c l l', j = c + 1 ∧ L.lexemes[k]? = some l ∧ l.token = .symbol .lbrace ∧
    L.Balanced (k + 1) c ∧ L.lexemes[c]? = some l' ∧ l'.token = .symbol .rbrace

theorem Block.balanced (h : L.Block k j) : k < j ∧ L.Balanced k j := by
  obtain ⟨c, l, l', rfl, hopen, hl, hbal, hclose, hl'⟩ := h
  have hle := hbal.le
  have hopened := depth_succ hopen
  have hclosed := depth_succ hclose
  rw [hl] at hopened
  rw [hl', hbal.depth_eq, hopened] at hclosed
  simp only [Token.bracing] at hopened hclosed
  refine ⟨by omega, by omega, by omega, fun i hlo hhi => ?_⟩
  rcases Nat.eq_or_lt_of_le hlo with rfl | hlo
  · exact Int.le_refl _
  rcases Nat.eq_or_lt_of_le hhi with rfl | hhi
  · omega
  · have habove := hbal.above i hlo (by omega)
    omega

/-! ## Windows that start alike -/

/-- From `lo` up to `m`, and from `lo + d` in the other layout, stand the same lexemes.  Either both
windows end there, or the same closing brace follows in both. -/
structure Twin (L L' : Layout) (d lo m hi hi' : Nat) : Prop where
  start : lo ≤ m
  agree : ∀ i, lo ≤ i → i < m → L'.lexemes[i + d]? = L.lexemes[i]?
  within : hi ≤ L.lexemes.size
  within' : hi' ≤ L'.lexemes.size
  stop : (hi = m ∧ hi' = m + d) ∨
    (m < hi ∧ m + d < hi' ∧ ∃ l, L.lexemes[m]? = some l ∧ L'.lexemes[m + d]? = some l ∧
      l.token = .symbol .rbrace)

/-- If a brace follows, it closes more than was opened. -/
structure Guarded (L L' : Layout) (d lo m hi hi' : Nat) : Prop extends
    Twin L L' d lo m hi hi' where
  guard : m < hi → L.Balanced lo m

namespace Twin

theorem le_hi (h : Twin L L' d lo m hi hi') : m ≤ hi ∧ m + d ≤ hi' := by
  rcases h.stop with hend | hstop <;> omega

/-- The same lexeme comes next in both windows. -/
theorem get?_eq (h : Twin L L' d lo m hi hi') (hlo : lo ≤ k) (hk : k ≤ m) :
    Window.get? ⟨k + d, hi'⟩ L'.lexemes 0 = Window.get? ⟨k, hi⟩ L.lexemes 0 := by
  rcases Nat.eq_or_lt_of_le hk with rfl | hlt
  · rcases h.stop with ⟨rfl, rfl⟩ | ⟨hlt, hlt', l, hget, hget', -⟩
    · rw [Window.get?_zero_of_le (Nat.le_refl _), Window.get?_zero_of_le (Nat.le_refl _)]
    · rw [Window.get?_zero_of_lt hlt, Window.get?_zero_of_lt hlt', hget, hget']
  · have hle := h.le_hi
    rw [Window.get?_zero_of_lt (by omega), Window.get?_zero_of_lt (by omega),
      h.agree k hlo hlt]

/-- A token that is no brace stands before the end of what is alike. -/
theorem lt_of_get (h : Twin L L' d lo m hi hi') {l : Lexeme} (hk : k ≤ m) (hlt : k < hi)
    (hget : L.lexemes[k]? = some l) (hl : l.token ≠ .symbol .rbrace) : k < m := by
  rcases Nat.eq_or_lt_of_le hk with rfl | hk
  · rcases h.stop with ⟨rfl, -⟩ | ⟨-, -, l', hget', -, hl'⟩
    · exact absurd hlt (Nat.lt_irrefl _)
    · obtain rfl : l' = l := Option.some.inj (hget'.symm.trans hget)
      exact absurd hl' hl
  · exact hk

theorem mono (h : Twin L L' d lo m hi hi') (hlo : lo ≤ k) (hk : k ≤ m) :
    Twin L L' d k m hi hi' where
  start := hk
  agree i hki hi := h.agree i (Nat.le_trans hlo hki) hi
  within := h.within
  within' := h.within'
  stop := h.stop

theorem spanOf_eq (h : Twin L L' d lo m hi hi') {start : Nat} (hstart : lo ≤ start) (hk : k ≤ m) :
    L'.spanOf (start + d) (k + d) = L.spanOf start k := by
  rw [spanOf, spanOf]
  by_cases hle : k ≤ start
  · rw [if_pos hle, if_pos (by omega)]
  · have hlast : k + d - 1 = k - 1 + d := by omega
    rw [if_neg hle, if_neg (by omega), hlast, h.agree start hstart (by omega),
      h.agree (k - 1) (by omega) (by omega)]

theorem depth_eq (h : Twin L L' d lo m hi hi') (hlo : lo ≤ k) (hk : k ≤ m)
    (hm : m ≤ L.lexemes.size) :
    L'.depth (k + d) - L'.depth (lo + d) = L.depth k - L.depth lo := by
  induction k, hlo using Nat.le_induction with
  | base => omega
  | succ k hlo ih =>
    have hget : L.lexemes[k]? = some L.lexemes[k] := Array.getElem?_eq_getElem (by omega)
    have hget' := h.agree k hlo (by omega)
    rw [hget] at hget'
    have hsucc := depth_succ hget
    have hsucc' := depth_succ hget'
    rw [Nat.add_right_comm, hsucc', hsucc]
    have hbefore := ih (by omega)
    omega

/-- Braces that are balanced in one window are balanced in the other. -/
theorem balanced (h : Twin L L' d lo m hi hi') (hbal : L.Balanced lo m)
    (hm : m ≤ L.lexemes.size) : L'.Balanced (lo + d) (m + d) where
  le := Nat.add_le_add_right h.start d
  depth_eq := by
    have hdepth := h.depth_eq h.start (Nat.le_refl m) hm
    rw [hbal.depth_eq] at hdepth
    omega
  above i hlo hhi := by
    obtain ⟨i, rfl⟩ : ∃ i', i = i' + d := ⟨i - d, by omega⟩
    have hdepth := h.depth_eq (k := i) (by omega) (by omega) hm
    have habove := hbal.above i (by omega) (by omega)
    omega

end Twin

namespace Guarded

theorem mono (h : Guarded L L' d lo m hi hi') (hk : L.Balanced lo k) (hkm : k ≤ m) :
    Guarded L L' d k m hi hi' where
  toTwin := h.toTwin.mono hk.le hkm
  guard hlt := hk.rest (h.guard hlt) hkm

/-- A cut before the end of what is alike gives windows with the same lexemes. -/
theorem cut (h : Guarded L L' d lo m hi hi') {p : Nat} (hlo : lo ≤ p) (hp : p < m) :
    Guarded L L' d lo p p (p + d) where
  start := hlo
  agree i hi hip := h.agree i hi (Nat.lt_trans hip hp)
  within := by have := h.within; have := h.le_hi; omega
  within' := by have := h.within'; have := h.le_hi; omega
  stop := .inl ⟨rfl, rfl⟩
  guard hlt := absurd hlt (Nat.lt_irrefl p)

/-- A window that goes on behind the brace, beside itself. -/
theorem behind (h : Guarded L L' d lo m hi hi') (hlt : m < hi) {p : Nat} (hp : m < p)
    (hsize : p ≤ L.lexemes.size) : Guarded L L 0 lo m p p where
  start := h.start
  agree i _ _ := rfl
  within := hsize
  within' := hsize
  stop := by
    rcases h.stop with ⟨rfl, -⟩ | ⟨-, -, l, hget, -, hl⟩
    · exact absurd hlt (Nat.lt_irrefl _)
    · exact .inr ⟨hp, hp, l, hget, hget, hl⟩
  guard _ := h.guard hlt

theorem behind' (h : Guarded L L' d lo m hi hi') (hlt : m < hi) {p : Nat} (hp : m + d < p)
    (hsize : p ≤ L'.lexemes.size) : Guarded L' L' 0 (lo + d) (m + d) p p where
  start := Nat.add_le_add_right h.start d
  agree i _ _ := rfl
  within := hsize
  within' := hsize
  stop := by
    rcases h.stop with ⟨rfl, -⟩ | ⟨-, -, l, -, hget, hl⟩
    · exact absurd hlt (Nat.lt_irrefl _)
    · exact .inr ⟨hp, hp, l, hget, hget, hl⟩
  guard _ := h.balanced (h.guard hlt) (by have := h.within; omega)

/-- Behind an opening brace the windows are alike up to the brace that closes it, or up to their
end. -/
theorem enter {l : Lexeme} (h : Guarded L L' d lo m hi hi') (hk : L.Balanced lo k) (hkm : k < m)
    (hopen : L.lexemes[k]? = some l) (hl : l.token = .symbol .lbrace) :
    ∃ m', m' ≤ m ∧ (m < hi → m' < m) ∧ Guarded L L' d (k + 1) m' hi hi' := by
  have hle := hk.le
  rcases h.stop with hend | ⟨hlt, hlt', -⟩
  · refine ⟨m, Nat.le_refl m, fun hlt => by omega, h.toTwin.mono (by omega) hkm, fun hlt => ?_⟩
    omega
  · have hsize : m ≤ L.lexemes.size := Nat.le_trans (Nat.le_of_lt hlt) h.within
    obtain ⟨c, l', hcm, hbal, hclose, hl'⟩ := (h.guard hlt).exists_close hsize hk hkm hopen hl
    have hclose' : L'.lexemes[c + d]? = some l' := by
      rw [h.agree c (by have := hbal.le; omega) hcm, hclose]
    refine ⟨c, Nat.le_of_lt hcm, fun _ => hcm, ?_, fun _ => hbal⟩
    exact
      { start := hbal.le
        agree := fun i hi hic => h.agree i (by omega) (by omega)
        within := h.within
        within' := h.within'
        stop := .inr ⟨by omega, by omega, l', hclose, hclose', hl'⟩ }

end Guarded

end Layout

/-! ## Searches -/

namespace Search

open Layout

variable {L L' : Layout} {d lo m hi hi' : Nat}

/-- Both searches find the same place before `m`, or neither finds one up to there. -/
def FindAlike (d m : Nat) (found found' : Option Nat) : Prop :=
  (∃ p, p < m ∧ found = some p ∧ found' = some (p + d)) ∨
    (∀ p, found = some p → m < p) ∧ (∀ p, found' = some p → m + d < p)

theorem findAlike_none (d m : Nat) : FindAlike d m none none := by
  simp [FindAlike]

theorem le_of_findFrom {lexemes : Array Lexeme} {t : Token} {n i depth p : Nat}
    (h : findFrom lexemes t n i depth = some p) : i ≤ p := by
  induction n generalizing i depth with
  | zero => cases h
  | succ n ih =>
    rw [findFrom] at h
    split at h
    · cases h
    · split at h
      · cases h
      · split at h
        · exact Nat.le_of_eq (Option.some.inj h)
        · exact Nat.le_of_succ_le (ih h)

theorem le_of_closingFrom {lexemes : Array Lexeme} {n i depth p : Nat}
    (h : closingFrom lexemes n i depth = some p) : i ≤ p := by
  induction n generalizing i depth with
  | zero => cases h
  | succ n ih =>
    cases hget : lexemes[i]? with
    | none =>
      rw [closingFrom_none hget] at h
      exact Nat.le_of_succ_le (ih h)
    | some l =>
      rw [closingFrom_some hget] at h
      split at h
      · exact Nat.le_of_eq (Option.some.inj h)
      · exact Nat.le_of_succ_le (ih h)

/-- The lexeme that comes next in both windows as long as they are alike. -/
theorem exists_next (h : Twin L L' d lo m hi hi') {i : Nat} (hlo : lo ≤ i) (hi : i < m) :
    ∃ l, L.lexemes[i]? = some l ∧ L'.lexemes[i + d]? = some l := by
  have hle := h.le_hi
  have hwithin := h.within
  have hget : L.lexemes[i]? = some L.lexemes[i] := Array.getElem?_eq_getElem (by omega)
  exact ⟨L.lexemes[i], hget, by rw [h.agree i hlo hi, hget]⟩

theorem findFrom_twin (h : Twin L L' d lo m hi hi') {t : Token} (ht : t ≠ .symbol .rbrace)
    {i n n' : Nat} (depth : Nat) (hlo : lo ≤ i) (him : i ≤ m) (hn : i + n = hi)
    (hn' : i + d + n' = hi') :
    FindAlike d m (findFrom L.lexemes t n i depth) (findFrom L'.lexemes t n' (i + d) depth) := by
  induction hleft : m - i generalizing i n n' depth with
  | zero =>
    obtain rfl : i = m := by omega
    rcases h.stop with hend | ⟨hlt, hlt', l, hget, hget', hl⟩
    · obtain rfl : n = 0 := by omega
      obtain rfl : n' = 0 := by omega
      exact findAlike_none d _
    · -- The brace is passed, and whatever is found is behind it.
      obtain ⟨n, rfl⟩ : ∃ n₁, n = n₁ + 1 := ⟨n - 1, by omega⟩
      obtain ⟨n', rfl⟩ : ∃ n₁, n' = n₁ + 1 := ⟨n' - 1, by omega⟩
      have hclose : ¬ (l.token = .symbol .rparen ∧ depth = 0) := by simp [hl]
      have hfound : ¬ (l.token = t ∧ depth = 0) := fun hboth => ht (hboth.1.symm.trans hl)
      simp only [findFrom, hget, hget', if_neg hclose, if_neg hfound]
      refine .inr ⟨fun p hp => ?_, fun p hp => ?_⟩
      · exact le_of_findFrom hp
      · exact le_of_findFrom hp
  | succ left ih =>
    obtain ⟨l, hget, hget'⟩ := exists_next h hlo (by omega)
    have hle := h.le_hi
    obtain ⟨n, rfl⟩ : ∃ n₁, n = n₁ + 1 := ⟨n - 1, by omega⟩
    obtain ⟨n', rfl⟩ : ∃ n₁, n' = n₁ + 1 := ⟨n' - 1, by omega⟩
    have hnext : i + d + 1 = i + 1 + d := by omega
    simp only [findFrom, hget, hget', hnext]
    by_cases hclose : l.token = .symbol .rparen ∧ depth = 0
    · simp only [if_pos hclose]
      exact findAlike_none d _
    · by_cases hfound : l.token = t ∧ depth = 0
      · simp only [if_neg hclose, if_pos hfound]
        exact .inl ⟨i, by omega, rfl, rfl⟩
      · simp only [if_neg hclose, if_neg hfound]
        exact ih _ (by omega) (by omega) (by omega) (by omega) (by omega)

theorem closingFrom_twin (h : Twin L L' d lo m hi hi') {i n n' : Nat} (depth : Nat)
    (hlo : lo ≤ i) (him : i ≤ m) (hn : i + n = hi) (hn' : i + d + n' = hi') :
    FindAlike d m (closingFrom L.lexemes n i depth) (closingFrom L'.lexemes n' (i + d) depth) := by
  induction hleft : m - i generalizing i n n' depth with
  | zero =>
    obtain rfl : i = m := by omega
    rcases h.stop with hend | ⟨hlt, hlt', l, hget, hget', hl⟩
    · obtain rfl : n = 0 := by omega
      obtain rfl : n' = 0 := by omega
      exact findAlike_none d _
    · obtain ⟨n, rfl⟩ : ∃ n₁, n = n₁ + 1 := ⟨n - 1, by omega⟩
      obtain ⟨n', rfl⟩ : ∃ n₁, n' = n₁ + 1 := ⟨n' - 1, by omega⟩
      have hclose : ¬ (l.token = .symbol .rparen ∧ depth = 0) := by simp [hl]
      rw [closingFrom_some hget, closingFrom_some hget', if_neg hclose, if_neg hclose]
      refine .inr ⟨fun p hp => ?_, fun p hp => ?_⟩
      · exact le_of_closingFrom hp
      · exact le_of_closingFrom hp
  | succ left ih =>
    obtain ⟨l, hget, hget'⟩ := exists_next h hlo (by omega)
    have hle := h.le_hi
    obtain ⟨n, rfl⟩ : ∃ n₁, n = n₁ + 1 := ⟨n - 1, by omega⟩
    obtain ⟨n', rfl⟩ : ∃ n₁, n' = n₁ + 1 := ⟨n' - 1, by omega⟩
    have hnext : i + d + 1 = i + 1 + d := by omega
    rw [closingFrom_some hget, closingFrom_some hget', hnext]
    by_cases hclose : l.token = .symbol .rparen ∧ depth = 0
    · simp only [if_pos hclose]
      exact .inl ⟨i, by omega, rfl, rfl⟩
    · simp only [if_neg hclose]
      exact ih _ (by omega) (by omega) (by omega) (by omega) (by omega)

end Search

namespace Layout

variable {L L' : Layout} {d lo m k hi hi' : Nat}

theorem Twin.find?_alike (h : Twin L L' d lo m hi hi') (hS : L.Scans) (hS' : L'.Scans)
    {t : Token} (ht : t ≠ .symbol .rbrace) (hlo : lo ≤ k) (hk : k ≤ m) :
    Search.FindAlike d m (L.find? t ⟨k, hi⟩) (L'.find? t ⟨k + d, hi'⟩) := by
  have hle := h.le_hi
  rw [hS.find t ⟨by simp only; omega, h.within⟩, hS'.find t ⟨by simp only; omega, h.within'⟩]
  apply Search.findFrom_twin h ht 0 hlo hk <;> simp only [Window.length] <;> omega

theorem Twin.closing?_alike (h : Twin L L' d lo m hi hi') (hS : L.Scans) (hS' : L'.Scans)
    (hlo : lo ≤ k) (hk : k ≤ m) :
    Search.FindAlike d m (L.closing? ⟨k, hi⟩) (L'.closing? ⟨k + d, hi'⟩) := by
  have hle := h.le_hi
  rw [hS.closing ⟨by simp only; omega, h.within⟩, hS'.closing ⟨by simp only; omega, h.within'⟩]
  apply Search.closingFrom_twin h 0 hlo hk <;> simp only [Window.length] <;> omega

end Layout

end Scriptlet
