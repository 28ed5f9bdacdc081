import Scriptlet.Grammar.Search
import Scriptlet.Grammar.Solve

/-!
# Tables agree with scans

`Nesting` answers searches from tables that are made once for a token list.  Here these answers are
shown to be those of the plain scans in `Search`, on every window.  Both sides are compared with
`Nesting.firstAt`, the first occurrence of a token at a given depth.
-/

namespace Scriptlet

namespace Nesting

/-! ## Occurrences at a depth -/

/-- The first `t` at depth `d` in a list whose first token has position `i` and depth `e`. -/
def firstAt (t : Token) (d : Int) : (i : Nat) → (e : Int) → List Token → Option Nat
  | _, _, [] => none
  | i, e, u :: us => if u = t ∧ e = d then some i else firstAt t d (i + 1) (e + u.nesting) us

/-- All positions of `t` at depth `d`, ascending. -/
def allAt (t : Token) (d : Int) : (i : Nat) → (e : Int) → List Token → List Nat
  | _, _, [] => []
  | i, e, u :: us =>
    if u = t ∧ e = d then i :: allAt t d (i + 1) (e + u.nesting) us
    else allAt t d (i + 1) (e + u.nesting) us

/-- By how much the first `k` tokens of a list change the depth. -/
def rise (ts : List Token) (k : Nat) : Int := ((ts.take k).map Token.nesting).foldr (· + ·) 0

@[simp] theorem rise_zero (ts : List Token) : rise ts 0 = 0 := by simp [rise]

@[simp] theorem rise_cons (u : Token) (us : List Token) (k : Nat) :
    rise (u :: us) (k + 1) = u.nesting + rise us k := by
  simp [rise]

theorem firstAt_bounds {t : Token} {d : Int} {ts : List Token} {i j : Nat} {e : Int}
    (h : firstAt t d i e ts = some j) : i ≤ j ∧ ts[j - i]? = some t := by
  induction ts generalizing i e with
  | nil => cases h
  | cons u us ih =>
    rw [firstAt] at h
    split at h
    · rename_i hu
      obtain rfl := Option.some.inj h
      simp [hu.1]
    · obtain ⟨hle, hget⟩ := ih h
      have hsub : j - i = (j - (i + 1)) + 1 := by omega
      refine ⟨by omega, ?_⟩
      rw [hsub, List.getElem?_cons_succ, hget]

theorem le_of_mem_allAt {t : Token} {d : Int} {ts : List Token} {i j : Nat} {e : Int}
    (h : j ∈ allAt t d i e ts) : i ≤ j := by
  induction ts generalizing i e with
  | nil => cases h
  | cons u us ih =>
    rw [allAt] at h
    split at h
    · rcases List.mem_cons.1 h with rfl | h
      · exact Nat.le_refl _
      · exact Nat.le_of_succ_le (ih h)
    · exact Nat.le_of_succ_le (ih h)

theorem pairwise_allAt (t : Token) (d : Int) (ts : List Token) (i : Nat) (e : Int) :
    (allAt t d i e ts).Pairwise (· < ·) := by
  induction ts generalizing i e with
  | nil => exact .nil
  | cons u us ih =>
    rw [allAt]
    split
    · exact .cons (fun j hj => le_of_mem_allAt hj) (ih _ _)
    · exact ih _ _

theorem find?_allAt_of_le (t : Token) (d e : Int) (ts : List Token) {i x : Nat}
    (hx : x ≤ i) : (allAt t d i e ts).find? (fun j => decide (x ≤ j)) = firstAt t d i e ts := by
  induction ts generalizing i e with
  | nil => rfl
  | cons u us ih =>
    rw [allAt, firstAt]
    split
    · simp [hx]
    · exact ih _ (Nat.le_succ_of_le hx)

/-- The first of all positions from a place on is found from that place. -/
theorem find?_allAt (t : Token) (d e : Int) (ts : List Token) (i k : Nat) :
    (allAt t d i e ts).find? (fun j => decide (i + k ≤ j)) =
      firstAt t d (i + k) (e + rise ts k) (ts.drop k) := by
  induction ts generalizing i k e with
  | nil => simp [allAt, firstAt]
  | cons u us ih =>
    cases k with
    | zero => simpa using find?_allAt_of_le t d e (u :: us) (Nat.le_refl i)
    | succ k =>
      have hnext := ih (e + u.nesting) (i + 1) k
      have hpos : i + 1 + k = i + (k + 1) := by omega
      rw [hpos] at hnext
      rw [allAt, rise_cons, List.drop_succ_cons, ← Int.add_assoc, ← hnext]
      split
      · have hskip : ¬ i + (k + 1) ≤ i := by omega
        simp [hskip]
      · rfl

/-! ## What the tables hold -/

theorem getElem?_depthsFrom {ts : List Token} {d : Int} {k : Nat} (hk : k ≤ ts.length) :
    (depthsFrom d ts)[k]? = some (d + rise ts k) := by
  induction ts generalizing d k with
  | nil =>
    obtain rfl : k = 0 := by simpa using hk
    simp [depthsFrom]
  | cons u us ih =>
    cases k with
    | zero => simp [depthsFrom]
    | succ k =>
      rw [depthsFrom, List.getElem?_cons_succ, ih (by simpa using hk), rise_cons, Int.add_assoc]

theorem depth_ofTokens {ts : List Token} {k : Nat} (hk : k ≤ ts.length) :
    (ofTokens ts).depth k = rise ts k := by
  simp [depth, ofTokens, Array.getD_eq_getD_getElem?, getElem?_depthsFrom hk]

/-- The map that is carried along holds the first closing parenthesis for every depth. -/
theorem getElem?_closersFrom_snd (size : Nat) (ts : List Token) (i : Nat) (d x : Int) :
    (closersFrom size i d ts).2[x]? = firstAt (.symbol .rparen) x i d ts := by
  induction ts generalizing i d with
  | nil => simp [closersFrom, firstAt]
  | cons u us ih =>
    rw [closersFrom, firstAt]
    by_cases hu : u = .symbol .rparen
    · by_cases hd : d = x
      · simp [hu, hd]
      · simp [hu, hd, ih, Std.HashMap.getElem?_insert]
    · simp [hu, ih]

theorem getElem?_closersFrom_fst (size : Nat) {ts : List Token} {i k : Nat} {d : Int}
    (hk : k ≤ ts.length) :
    (closersFrom size i d ts).1[k]? =
      some ((firstAt (.symbol .rparen) (d + rise ts k) (i + k) (d + rise ts k)
        (ts.drop k)).getD size) := by
  induction ts generalizing i d k with
  | nil =>
    obtain rfl : k = 0 := by simpa using hk
    simp [closersFrom, firstAt]
  | cons u us ih =>
    cases k with
    | zero =>
      -- The first entry is looked up in the map of the whole list.
      have hmap := getElem?_closersFrom_snd size (u :: us) i d d
      simp only [closersFrom] at hmap ⊢
      simp only [List.getElem?_cons_zero, Std.HashMap.getD_eq_getD_getElem?, hmap, rise_zero,
        Int.add_zero, Nat.add_zero, List.drop_zero]
    | succ k =>
      have hpos : i + 1 + k = i + (k + 1) := by omega
      have hrest := ih (i := i + 1) (d := d + u.nesting) (k := k) (by simpa using hk)
      rw [hpos, Int.add_assoc, ← rise_cons] at hrest
      rw [List.drop_succ_cons, ← hrest]
      simp [closersFrom]

theorem closer_ofTokens {ts : List Token} {k : Nat} (hk : k ≤ ts.length) :
    (ofTokens ts).closer k =
      (firstAt (.symbol .rparen) (rise ts k) k (rise ts k) (ts.drop k)).getD ts.length := by
  have hget := getElem?_closersFrom_fst ts.length (i := 0) (d := 0) hk
  simp only [Nat.zero_add, Int.zero_add] at hget
  simp [closer, ofTokens, Array.getD_eq_getD_getElem?, hget]

/-- The positions that are kept for a token and a depth. -/
theorem toList_positionsFrom (t : Token) (d : Int) (ts : List Token) (i : Nat) (e : Int)
    (found : Std.HashMap (Token × Int) (Array Nat)) :
    ((positionsFrom i e found ts)[(t, d)]?.getD #[]).toList =
      (found[(t, d)]?.getD #[]).toList ++ allAt t d i e ts := by
  induction ts generalizing i e found with
  | nil => simp [positionsFrom, allAt]
  | cons u us ih =>
    rw [positionsFrom, ih, allAt, Std.HashMap.getElem?_alter]
    by_cases hu : u = t ∧ e = d
    · simp [hu]
    · have hne : ¬ (u, e) = (t, d) := by simpa using hu
      simp [hu, hne]

/-! ## Halving -/

theorem le_of_pairwise {a : Array Nat} (ha : a.toList.Pairwise (· < ·)) {i j v w : Nat}
    (hij : i ≤ j) (hv : a[i]? = some v) (hw : a[j]? = some w) : v ≤ w := by
  obtain ⟨hi, rfl⟩ := Array.getElem?_eq_some_iff.1 hv
  obtain ⟨hj, rfl⟩ := Array.getElem?_eq_some_iff.1 hw
  rcases Nat.eq_or_lt_of_le hij with rfl | hlt
  · exact Nat.le_refl _
  · have hpair := List.pairwise_iff_getElem.1 ha i j (by simpa using hi) (by simpa using hj) hlt
    simpa using Nat.le_of_lt hpair

/-- Halving an ascending array separates the elements below `x` from the others. -/
theorem lowerBound_spec {a : Array Nat} (ha : a.toList.Pairwise (· < ·)) (x lo hi : Nat)
    (hlohi : lo ≤ hi) (hhi : hi ≤ a.size) (hbelow : ∀ j v, j < lo → a[j]? = some v → v < x)
    (habove : ∀ j v, hi ≤ j → a[j]? = some v → x ≤ v) :
    (∀ j v, j < lowerBound a x lo hi → a[j]? = some v → v < x) ∧
      ∀ j v, lowerBound a x lo hi ≤ j → a[j]? = some v → x ≤ v := by
  fun_induction lowerBound a x lo hi with
  | case1 lo hi hlt mid hmid ih =>
    -- The middle is below `x`, and with it everything before it.
    have hsize : mid < a.size := by omega
    refine ih (by omega) hhi ?_ habove
    intro j v hj hv
    have hle : v ≤ a[mid] := le_of_pairwise ha (j := mid) (by omega) hv (by simp [hsize])
    have hmid' : a[mid] < x := by simpa [Array.getD_eq_getD_getElem?, hsize] using hmid
    omega
  | case2 lo hi hlt mid hmid ih =>
    -- The middle is not below `x`, nor is anything behind it.
    have hsize : mid < a.size := by omega
    refine ih (by omega) (by omega) hbelow ?_
    intro j v hj hv
    have hle : a[mid] ≤ v := le_of_pairwise ha (i := mid) (by omega) (by simp [hsize]) hv
    have hmid' : ¬ a[mid] < x := by simpa [Array.getD_eq_getD_getElem?, hsize] using hmid
    omega
  | case3 lo hi hge =>
    exact ⟨hbelow, fun j v hj hv => habove j v (by omega) hv⟩

/-- Halving finds the first element that is not below `x`. -/
theorem getElem?_lowerBound {a : Array Nat} (ha : a.toList.Pairwise (· < ·)) (x : Nat) :
    a[lowerBound a x 0 a.size]? = a.toList.find? fun v => decide (x ≤ v) := by
  obtain ⟨hbelow, habove⟩ := lowerBound_spec ha x 0 a.size (Nat.zero_le _) (Nat.le_refl _)
    (fun j v hj => absurd hj (Nat.not_lt_zero j))
    (fun j v hj hv => by simp [Array.getElem?_eq_none hj] at hv)
  cases hget : a[lowerBound a x 0 a.size]? with
  | none =>
    -- The bound is behind the array, so all elements are below `x`.
    symm
    rw [List.find?_eq_none]
    intro v hv hle
    obtain ⟨j, hj, rfl⟩ := List.mem_iff_getElem.1 hv
    have hsize := Array.getElem?_eq_none_iff.1 hget
    have hlt := hbelow j _ (by simp at hj; omega) (Array.getElem?_eq_getElem (by simpa using hj))
    simp only [decide_eq_true_eq, Array.getElem_toList] at hle
    omega
  | some v =>
    symm
    obtain ⟨hlt, rfl⟩ := Array.getElem?_eq_some_iff.1 hget
    rw [List.find?_eq_some_iff_getElem]
    refine ⟨by simpa using habove _ _ (Nat.le_refl _) hget, lowerBound a x 0 a.size,
      by simpa using hlt, by simp, ?_⟩
    intro j hj
    have hbound := hbelow j _ hj (Array.getElem?_eq_getElem (by omega))
    simpa using hbound

/-! ## Answers from the tables -/

/-- The first `t` from position `k` on at the depth of that position. -/
def nextAt (t : Token) (ts : List Token) (k : Nat) : Option Nat :=
  firstAt t (rise ts k) k (rise ts k) (ts.drop k)

theorem closing?_ofTokens {ts : List Token} {w : Window} (hlo : w.lo ≤ w.hi)
    (hhi : w.hi ≤ ts.length) :
    (ofTokens ts).closing? w = (nextAt (.symbol .rparen) ts w.lo).filter (· < w.hi) := by
  rw [closing?, closer_ofTokens (by omega), nextAt]
  cases firstAt (.symbol .rparen) (rise ts w.lo) w.lo (rise ts w.lo) (ts.drop w.lo) with
  | none =>
    have hnot : ¬ ts.length < w.hi := by omega
    simp [hnot]
  | some c => simp [Option.filter]

theorem find?_ofTokens (ts : List Token) (t : Token) {w : Window} (hlo : w.lo ≤ w.hi)
    (hhi : w.hi ≤ ts.length) :
    (ofTokens ts).find? t w =
      (nextAt t ts w.lo).filter
        (· < min w.hi ((nextAt (.symbol .rparen) ts w.lo).getD ts.length)) := by
  have hk : w.lo ≤ ts.length := by omega
  -- What is kept for the token at this depth are all its positions, ascending.
  have hlist := toList_positionsFrom t (rise ts w.lo) ts 0 0 ∅
  have hfirst := find?_allAt t (rise ts w.lo) 0 ts 0 w.lo
  simp only [Std.HashMap.getElem?_empty, Option.getD_none, List.nil_append, Nat.zero_add,
    Int.zero_add] at hlist hfirst
  rw [find?, depth_ofTokens hk, closer_ofTokens hk, ← nextAt, nextAt.eq_1 t, ← hfirst, ← hlist]
  have hsorted : ((positionsFrom 0 0 ∅ ts)[(t, rise ts w.lo)]?.getD #[]).toList.Pairwise (· < ·) := by
    rw [hlist]
    exact pairwise_allAt _ _ _ _ _
  have hbound := getElem?_lowerBound hsorted w.lo
  rw [← hbound]
  simp only [ofTokens]
  cases (positionsFrom 0 0 ∅ ts)[(t, rise ts w.lo)]? with
  | none => simp
  | some known =>
    simp only [Option.getD_some, Option.bind_eq_bind, Option.bind_some]
    cases known[lowerBound known w.lo 0 known.size]? with
    | none => simp
    | some i => simp [Option.filter]

end Nesting

/-! ## Answers from scans -/

namespace Search

open Nesting

theorem toNat_depth_lparen (depth : Nat) :
    ((depth : Int) + Token.nesting (.symbol .lparen)).toNat = depth + 1 := by
  simp only [Token.nesting]
  omega

theorem toNat_depth_rparen (depth : Nat) :
    (((depth + 1 : Nat) : Int) + Token.nesting (.symbol .rparen)).toNat = depth := by
  simp only [Token.nesting]
  omega

theorem closingFrom_none {lexemes : Array Lexeme} {i : Nat} (h : lexemes[i]? = none)
    (n depth : Nat) : closingFrom lexemes (n + 1) i depth = closingFrom lexemes n (i + 1) depth := by
  conv => lhs; unfold closingFrom
  rw [h]
  cases depth <;> rfl

/-- One step of a scan for the closing parenthesis. -/
theorem closingFrom_some {lexemes : Array Lexeme} {i : Nat} {l : Lexeme} (h : lexemes[i]? = some l)
    (n depth : Nat) :
    closingFrom lexemes (n + 1) i depth =
      if l.token = .symbol .rparen ∧ depth = 0 then some i
      else closingFrom lexemes n (i + 1) (depth + l.token.nesting).toNat := by
  conv => lhs; unfold closingFrom
  rw [h]
  obtain ⟨token, span, text⟩ := l
  cases token with
  | symbol p =>
    cases p with
    | lparen =>
      have hclose : ¬ (Token.symbol .lparen = .symbol .rparen ∧ depth = 0) := by simp
      rw [if_neg hclose, toNat_depth_lparen]
      cases depth <;> rfl
    | rparen =>
      cases depth with
      | zero => simp
      | succ depth =>
        rw [toNat_depth_rparen]
        rfl
    | _ => cases depth <;> simp [Token.nesting]
  | _ => cases depth <;> simp [Token.nesting]

theorem drop_tokens {lexemes : List Lexeme} {i : Nat} {l : Lexeme} (h : lexemes[i]? = some l) :
    (lexemes.map Lexeme.token).drop i = l.token :: (lexemes.map Lexeme.token).drop (i + 1) := by
  obtain ⟨hlt, rfl⟩ := List.getElem?_eq_some_iff.1 h
  rw [List.drop_eq_getElem_cons (by simpa using hlt)]
  simp

theorem drop_tokens_eq_nil {lexemes : List Lexeme} {i : Nat} (h : lexemes[i]? = none) :
    (lexemes.map Lexeme.token).drop i = [] :=
  List.drop_eq_nil_of_le (by simpa using List.getElem?_eq_none_iff.1 h)

/-- The depth behind a token that does not close more than was opened. -/
theorem toNat_depth {t : Token} {depth : Nat} (h : ¬ (t = .symbol .rparen ∧ depth = 0)) :
    ((depth + t.nesting).toNat : Int) = depth + t.nesting := by
  refine Int.toNat_of_nonneg ?_
  have hcases : t = .symbol .rparen ∧ t.nesting = -1 ∨ 0 ≤ t.nesting := by
    cases t with
    | symbol p => cases p <;> simp [Token.nesting]
    | _ => simp [Token.nesting]
  rcases hcases with ⟨ht, hn⟩ | hn
  · have hdepth : depth ≠ 0 := fun hzero => h ⟨ht, hzero⟩
    omega
  · omega

/-- Being back at depth `d` means that no more parentheses are open than there. -/
theorem add_depth_eq_iff {depth : Nat} {d : Int} : d + (depth : Int) = d ↔ depth = 0 := by
  omega

/-- A scan for the closing parenthesis, with `depth` more parentheses open than at depth `d`. -/
theorem closingFrom_eq {lexemes : List Lexeme} {n i depth : Nat} {d : Int} :
    closingFrom lexemes.toArray n i depth =
      (firstAt (.symbol .rparen) d i (d + depth) ((lexemes.map Lexeme.token).drop i)).filter
        (· < i + n) := by
  induction n generalizing i depth with
  | zero =>
    rw [closingFrom]
    cases hfirst : firstAt (.symbol .rparen) d i (d + depth) ((lexemes.map Lexeme.token).drop i) with
    | none => rfl
    | some j =>
      have hle := (firstAt_bounds hfirst).1
      simp [Option.filter, Nat.not_lt.2 hle]
  | succ n ih =>
    have hpos : i + 1 + n = i + (n + 1) := by omega
    cases hget : lexemes[i]? with
    | none =>
      have hnext : lexemes[i + 1]? = none := by
        simp only [List.getElem?_eq_none_iff] at hget ⊢
        omega
      rw [closingFrom_none (by rw [List.getElem?_toArray, hget]), ih, drop_tokens_eq_nil hget,
        drop_tokens_eq_nil hnext]
      rfl
    | some l =>
      rw [closingFrom_some (by rw [List.getElem?_toArray, hget]), drop_tokens hget, firstAt]
      simp only [add_depth_eq_iff]
      by_cases hclose : l.token = .symbol .rparen ∧ depth = 0
      · rw [if_pos hclose, if_pos hclose]
        simp [Option.filter]
      · rw [if_neg hclose, if_neg hclose, ih, toNat_depth hclose, hpos, Int.add_assoc]

theorem closing?_eq {lexemes : List Lexeme} {w : Window} (hw : w.lo ≤ w.hi) :
    closing? lexemes.toArray w =
      (nextAt (.symbol .rparen) (lexemes.map Lexeme.token) w.lo).filter (· < w.hi) := by
  have hlen : w.lo + w.length = w.hi := by
    rw [Window.length]
    omega
  rw [closing?, closingFrom_eq (d := rise (lexemes.map Lexeme.token) w.lo), hlen, nextAt]
  simp

/-- A scan for a token, with `depth` more parentheses open than at depth `d`. -/
theorem findFrom_eq {lexemes : List Lexeme} {t : Token} {n i depth : Nat} {d : Int}
    (hn : i + n ≤ lexemes.length) :
    findFrom lexemes.toArray t n i depth =
      (firstAt t d i (d + depth) ((lexemes.map Lexeme.token).drop i)).filter
        (· < min (i + n) ((firstAt (.symbol .rparen) d i (d + depth)
          ((lexemes.map Lexeme.token).drop i)).getD lexemes.length)) := by
  induction n generalizing i depth with
  | zero =>
    rw [findFrom]
    cases hfirst : firstAt t d i (d + depth) ((lexemes.map Lexeme.token).drop i) with
    | none => rfl
    | some j =>
      have hle := (firstAt_bounds hfirst).1
      rw [Option.filter_some, if_neg]
      intro h
      have hlt := Nat.lt_of_lt_of_le (of_decide_eq_true h) (Nat.min_le_left _ _)
      omega
  | succ n ih =>
    have hlt : i < lexemes.length := by omega
    have hget : lexemes[i]? = some lexemes[i] := List.getElem?_eq_getElem hlt
    have hpos : i + 1 + n = i + (n + 1) := by omega
    rw [findFrom, List.getElem?_toArray, hget]
    simp only [drop_tokens hget, firstAt, add_depth_eq_iff]
    by_cases hclose : lexemes[i].token = .symbol .rparen ∧ depth = 0
    · -- The scan ends here, and every `t` that could be found is further on.
      rw [if_pos hclose, if_pos hclose, Option.getD_some]
      split
      · simp [Option.filter]
      · cases hfirst : firstAt t d (i + 1) (d + depth + lexemes[i].token.nesting)
            ((lexemes.map Lexeme.token).drop (i + 1)) with
        | none => rfl
        | some j =>
          have hle := (firstAt_bounds hfirst).1
          have hnot : ¬ j < i := by omega
          simp [Option.filter, hnot]
    · rw [if_neg hclose, if_neg hclose]
      by_cases hfound : lexemes[i].token = t ∧ depth = 0
      · rw [if_pos hfound, if_pos hfound]
        -- The closing parenthesis, if there is one, is further on.
        have hcloser : i < (firstAt (.symbol .rparen) d (i + 1)
            (d + depth + lexemes[i].token.nesting)
            ((lexemes.map Lexeme.token).drop (i + 1))).getD lexemes.length := by
          cases hfirst : firstAt (.symbol .rparen) d (i + 1) (d + depth + lexemes[i].token.nesting)
              ((lexemes.map Lexeme.token).drop (i + 1)) with
          | none => exact hlt
          | some j => exact (firstAt_bounds hfirst).1
        simp only [Option.filter, Nat.lt_min]
        rw [if_pos (by simpa using hcloser)]
      · rw [if_neg hfound, if_neg hfound, ih (by omega), toNat_depth hclose, hpos, Int.add_assoc]

theorem find?_eq {lexemes : List Lexeme} {t : Token} {w : Window} (hw : w.lo ≤ w.hi)
    (hhi : w.hi ≤ lexemes.length) :
    find? lexemes.toArray t w =
      (nextAt t (lexemes.map Lexeme.token) w.lo).filter
        (· < min w.hi ((nextAt (.symbol .rparen) (lexemes.map Lexeme.token) w.lo).getD
          lexemes.length)) := by
  have hlen : w.lo + w.length = w.hi := by
    rw [Window.length]
    omega
  rw [find?, findFrom_eq (d := rise (lexemes.map Lexeme.token) w.lo) (by omega), hlen,
    Int.natCast_zero, Int.add_zero, nextAt, nextAt]

end Search

/-! ## Agreement -/

/-- A window that lies inside of a list of `n` lexemes. -/
def Window.Within (w : Window) (n : Nat) : Prop := w.lo ≤ w.hi ∧ w.hi ≤ n

namespace Layout

/-- Tables and scans find the same closing parentheses. -/
theorem closing?_indexed {lexemes : List Lexeme} {w : Window} (hw : w.Within lexemes.length) :
    (indexed lexemes).closing? w = (scanned lexemes).closing? w := by
  refine (Nesting.closing?_ofTokens hw.1 ?_).trans (Search.closing?_eq hw.1).symm
  simpa using hw.2

/-- Tables and scans find the same operators. -/
theorem find?_indexed {lexemes : List Lexeme} {t : Token} {w : Window}
    (hw : w.Within lexemes.length) :
    (indexed lexemes).find? t w = (scanned lexemes).find? t w := by
  have htable := Nesting.find?_ofTokens (lexemes.map Lexeme.token) t hw.1
    (by simpa using hw.2)
  rw [List.length_map] at htable
  exact htable.trans (Search.find?_eq hw.1 hw.2).symm

end Layout

end Scriptlet
