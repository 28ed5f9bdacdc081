import Scriptlet.Proofs.Grammar.Abreast

/-!
# Expressions in two windows that start alike

Expressions of every level are read alike, by induction on the size of goals: `Grammar.alikeBelow`.
An operator or a closing parenthesis that is found behind the brace cuts a window in which no
expression reaches the cut, so both rules fail as if nothing had been found.
-/

namespace Scriptlet.Grammar

open Layout Rule

variable {L L' : Layout} {N d lo m k hi hi' : Nat} {same : Prop}

/-! ## Short expressions -/

section

variable (S : Setting N L L' d lo m hi hi')

include S

theorem abreast_literal :
    Abreast L L' d hi hi' same lo (L.Advances lo m lo) (literal L) (literal L') := by
  have hk := Reached.start S.toTwin
  refine abreast_bind (abreast_first S.toTwin hk) ?_
  rintro l _ lo ⟨rfl, rfl, hlt, hget⟩
  -- A literal is one token, and no brace.
  have hread : ∀ e : Expr, l.token.bracing = 0 →
      Abreast L L' d hi hi' same lo (L.Advances lo m lo) (do advance; return e)
        (do advance; return e) := by
    intro e hl
    refine abreast_bind (abreast_advance S.toTwin hk hlt) ?_
    rintro _ _ _ rfl
    exact abreast_pure ⟨rfl, Nat.lt_succ_self _, hk.step S.toTwin hlt hget hl⟩
  cases htoken : l.token with
  | int n | bool b | char c | str t => exact hread _ (by rw [htoken]; rfl)
  | _ => exact abreast_fail fun _ => rfl

theorem abreast_variableName :
    Abreast L L' d hi hi' same lo (L.Advances lo m lo) (variableName L) (variableName L') := by
  refine abreast_bind (abreast_name S.toTwin (.start S.toTwin)) ?_
  rintro n _ _ ⟨rfl, hmoved⟩
  exact abreast_pure ⟨rfl, hmoved⟩

/-- A name, a bracket, and an expression that is a question on both sides. -/
theorem abreast_element :
    Abreast L L' d hi hi' same lo (L.Advances lo m lo) (element L) (element L') := by
  refine abreast_bind abreast_here ?_
  rintro _ _ lo ⟨rfl, rfl, rfl⟩
  refine abreast_bind (abreast_name S.toTwin (.start S.toTwin)) ?_
  rintro base _ j ⟨rfl, hlt, hj⟩
  refine abreast_bind (abreast_symbol S.toTwin hj rfl) ?_
  rintro _ _ j₁ ⟨-, hlt₁, hj₁⟩
  refine abreast_bind (abreast_level S hj₁ (by omega) .expr) ?_
  rintro position _ j₂ ⟨rfl, hlt₂, hj₂⟩
  refine abreast_bind (abreast_symbol S.toTwin hj₂ rfl) ?_
  rintro _ _ j₃ ⟨-, hlt₃, hj₃⟩
  refine abreast_bind (abreast_spanFrom S.toTwin hj₃ (Nat.le_refl _)) ?_
  rintro span _ _ ⟨rfl, rfl⟩
  exact abreast_pure ⟨rfl, by omega, hj₃⟩

theorem abreast_index :
    Abreast L L' d hi hi' same lo (L.Advances lo m lo) (index L) (index L') := by
  refine abreast_bind (abreast_element S) ?_
  rintro ⟨base, position, span⟩ _ _ ⟨rfl, hmoved⟩
  exact abreast_pure ⟨rfl, hmoved⟩

theorem abreast_short :
    Abreast L L' d hi hi' same lo (L.Advances lo m lo) (short L) (short L') := by
  refine abreast_bind (abreast_first S.toTwin (.start S.toTwin)) ?_
  rintro l _ _ ⟨rfl, rfl, hlt, hget⟩
  cases l.token with
  | int n | bool b | char c | str t => exact abreast_literal S
  | ident name => exact abreast_orElse (abreast_index S) (abreast_variableName S)
  | _ => exact abreast_fail fun _ => rfl

/-! ## Operators -/

/-- A sign opens no braces, and behind it stands one question. -/
theorem abreast_sign {p : Punct} (hp : (Token.symbol p).bracing = 0) (make : Span → Expr → Expr) :
    Abreast L L' d hi hi' same lo (L.Advances lo m lo)
      (do
        let start ← here
        let _ ← expect L (.symbol p)
        let e ← level .expr
        return make (← spanFrom L start) e)
      (do
        let start ← here
        let _ ← expect L' (.symbol p)
        let e ← level .expr
        return make (← spanFrom L' start) e) := by
  refine abreast_bind abreast_here ?_
  rintro _ _ lo ⟨rfl, rfl, rfl⟩
  refine abreast_bind (abreast_symbol S.toTwin (.start S.toTwin) hp) ?_
  rintro _ _ j ⟨-, hlt, hj⟩
  refine abreast_bind (abreast_level S hj hlt .expr) ?_
  rintro e _ j₁ ⟨rfl, hlt₁, hj₁⟩
  refine abreast_bind (abreast_spanFrom S.toTwin hj₁ (Nat.le_refl _)) ?_
  rintro span _ _ ⟨rfl, rfl⟩
  exact abreast_pure ⟨rfl, by omega, hj₁⟩

theorem abreast_neg : Abreast L L' d hi hi' same lo (L.Advances lo m lo) (neg L) (neg L') :=
  abreast_sign S rfl .neg

theorem abreast_not : Abreast L L' d hi hi' same lo (L.Advances lo m lo) (not L) (not L') :=
  abreast_sign S rfl .not

/-- A window that ends where both are still alike is filled by the same expression. -/
theorem abreast_wholeIn {p q : Nat} (hk : L.Reached lo m k) (hkp : k ≤ p) (hp : p < m) (form : Form) :
    Abreast L L' d hi hi' same q (fun e e' j => e = e' ∧ j = q ∧ L.Reached lo m p)
      (wholeIn L ⟨k, p⟩ form) (wholeIn L' ⟨k + d, p + d⟩ form) := by
  have hle := S.le_hi
  have hlo := hk.lo_le
  have hsize := S.size
  have hsize' := S.size'
  have hcut := (S.mono hk.balanced hk.le).cut hkp hp
  have hgoal := Goal.size_le .expr k p
  have hgoal' := Goal.size_le .expr (k + d) (p + d)
  have hinner := S.below .expr S.sound S.scans S.sound' S.scans' hcut (by omega) (by omega)
  have hexpr : Abreast L L' d hi hi' same q
      (fun found found' j => found' = (found.1, found.2 + d) ∧ j = q ∧ L.Reached k p found.2)
      (exprIn ⟨k, p⟩) (exprIn ⟨k + d, p + d⟩) := by
    rcases hinner.cases with ⟨e, _, j, heval, heval', rfl, -, hj⟩ | ⟨e, e', heval, heval', he⟩
    · rw [Abreast, eval_exprIn, eval_exprIn, heval, heval']
      exact .ok ⟨rfl, rfl, hj⟩
    · rw [Abreast, eval_exprIn, eval_exprIn, heval, heval']
      exact .error fun _ => he trivial
  refine abreast_bind hexpr ?_
  rintro ⟨e, rest⟩ _ _ ⟨rfl, rfl, hrest⟩
  have hnext := hcut.get?_eq hrest.lo_le hrest.le
  simp only [hnext]
  cases hget : Window.get? ⟨rest, p⟩ L.lexemes 0 with
  | some l => exact abreast_fail fun _ => rfl
  | none =>
    -- Nothing is left, so the expression reaches up to the cut.
    obtain rfl : rest = p := by
      have hrp := hrest.le
      rcases Nat.eq_or_lt_of_le hrp with heq | hlt
      · exact heq
      · rw [Window.get?_zero_of_lt hlt, Array.getElem?_eq_none_iff] at hget
        have := S.within
        omega
    exact abreast_pure ⟨rfl, rfl, hk.balanced.trans hrest.balanced, Nat.le_of_lt hp⟩

end

/-- An operator that is searched for is no brace. -/
theorem bracing_op (op : BinOp) : op.token.bracing = 0 := by
  cases op <;> rfl

/-- No operator is a closing brace. -/
theorem op_ne_rbrace (op : BinOp) : op.token ≠ .symbol .rbrace := by
  intro h
  have hop := bracing_op op
  rw [h] at hop
  cases hop

section

variable (hbelow : AlikeBelow N) (hL : L.Sound) (hS : L.Scans)
  (hguard : ∀ p, m < p → p < hi → Guarded L L 0 k m p p) (hk : k ≤ hi)
  (hhi : hi ≤ L.lexemes.size)

include hbelow hL hS hguard

/-- A window that goes on behind a brace which closes more than was opened is not filled by an
expression. -/
theorem fails_wholeIn_behind {p q : Nat} (hp : m < p) (hphi : p < hi) (hN : 2 * (p - k) + 1 < N)
    (form : Form) : (wholeIn L ⟨k, p⟩ form).Fails L q hi := by
  have hguarded := hguard p hp hphi
  have hsize := Goal.size_le .expr k p
  have hinner := hbelow .expr hL hS hL hS hguarded (by omega) (by simpa using by omega)
  rcases hinner.cases with ⟨e, _, j, heval, -, -, -, hj⟩ | ⟨e, _, heval, -⟩
  · have hread : (level .expr).Gets L k p fun _ j => j < p :=
      ⟨e, j, heval, Nat.lt_of_le_of_lt hj.le hp⟩
    exact fails_wholeIn hread hguarded.within
  · exact fails_bind_left (fails_exprIn ⟨e, heval⟩)

include hk hhi

/-- A cut behind such a brace reads nothing. -/
theorem fails_binary_behind {op : BinOp} (hN : 2 * (hi - k) ≤ N)
    (hfind : ∀ p, L.find? op.token ⟨k, hi⟩ = some p → m < p) : (binary L op).Fails L k hi := by
  apply fails_bind_right gets_window
  rintro _ k ⟨rfl, rfl⟩
  cases hfound : L.find? op.token ⟨k, hi⟩ with
  | none => exact fails_fail _
  | some p =>
    obtain ⟨hkp, hphi, -⟩ := hL.find ⟨hk, hhi⟩ hfound
    simp only at hkp hphi
    exact fails_bind_left (fails_wholeIn_behind hbelow hL hS hguard (hfind p hfound) hphi
      (by omega) _)

/-- Parentheses that are closed behind such a brace are not read. -/
theorem fails_inner_behind (hN : 2 * (hi - k) ≤ N)
    (hfind : ∀ p, L.closing? ⟨k, hi⟩ = some p → m < p) (f : Nat → Expr → Rule Expr) :
    Rule.Fails L (do
      let w ← window
      match L.closing? w with
      | none => fail .endOfInput
      | some p => wholeIn L ⟨w.lo, p⟩ .parens >>= f p) k hi := by
  apply fails_bind_right gets_window
  rintro _ k ⟨rfl, rfl⟩
  cases hfound : L.closing? ⟨k, hi⟩ with
  | none => exact fails_fail _
  | some p =>
    obtain ⟨hkp, hphi⟩ := hL.closing ⟨hk, hhi⟩ hfound
    simp only at hkp hphi
    exact fails_bind_left (fails_wholeIn_behind hbelow hL hS hguard (hfind p hfound) hphi
      (by omega) _)

end

section

variable (S : Setting N L L' d lo m hi hi')

include S

/-- Both sides cut at the same operator, or at operators behind the end, and there both fail. -/
theorem abreast_binary (op : BinOp) :
    Abreast L L' d hi hi' False lo (L.Advances lo m lo) (binary L op) (binary L' op) := by
  have hle := S.le_hi
  have hstart := S.start
  have hwithin := S.within
  have hwithin' := S.within'
  rcases S.find?_alike S.scans S.scans' (op_ne_rbrace op) (Nat.le_refl lo) hstart with
    ⟨p, hp, hfound, hfound'⟩ | ⟨hfind, hfind'⟩
  · -- Both windows are cut at the same place.
    obtain ⟨hlo, -, l, hget, hl⟩ := S.sound.find ⟨by simp only; omega, hwithin⟩ hfound
    refine abreast_bind abreast_window ?_
    rintro _ _ lo ⟨rfl, rfl, rfl⟩
    simp only [hfound, hfound']
    refine abreast_bind (abreast_wholeIn S (.start S.toTwin) hlo hp _) ?_
    rintro left _ lo ⟨rfl, rfl, hreached⟩
    have hnext : p + d + 1 = p + 1 + d := by omega
    rw [hnext]
    refine abreast_bind (abreast_jump (p + 1)) ?_
    rintro _ _ _ rfl
    have hop := hreached.step S.toTwin (by omega) hget (by rw [hl, bracing_op])
    refine abreast_bind (abreast_level S hop (Nat.lt_succ_of_le hlo) .expr) ?_
    rintro right _ j ⟨rfl, hlt, hj⟩
    refine abreast_bind (abreast_spanFrom S.toTwin hj (Nat.le_refl _)) ?_
    rintro span _ _ ⟨rfl, rfl⟩
    exact abreast_pure ⟨rfl, by simp only at hlo; omega, hj⟩
  · -- Each window is cut behind the brace, or not at all.
    apply abreast_of_fails
    · exact fails_binary_behind S.below S.sound S.scans
        (fun p hp hphi => S.behind (by omega) hp (by omega)) (by omega) hwithin S.size hfind
    · have hguard : ∀ p, m + d < p → p < hi' → Guarded L' L' 0 (lo + d) (m + d) p p := by
        intro p hp hphi
        have hlt : m < hi := by
          rcases S.stop with hend | hstop <;> omega
        exact S.behind' hlt hp (by omega)
      exact fails_binary_behind S.below S.sound' S.scans' hguard (by omega) hwithin' S.size' hfind'

/-- Both sides close at the same parenthesis, or behind the end, and there both fail. -/
theorem abreast_parens :
    Abreast L L' d hi hi' False lo (L.Advances lo m lo) (parens L) (parens L') := by
  refine abreast_bind abreast_here ?_
  rintro _ _ lo ⟨rfl, rfl, rfl⟩
  refine abreast_bind (abreast_symbol S.toTwin (.start S.toTwin) rfl) ?_
  rintro _ _ k ⟨-, hlt, hk⟩
  have hle := S.le_hi
  have hkm := hk.le
  have hwithin := S.within
  have hwithin' := S.within'
  rcases S.closing?_alike S.scans S.scans' hk.lo_le hkm with
    ⟨p, hp, hfound, hfound'⟩ | ⟨hfind, hfind'⟩
  · -- Both parentheses close at the same place.
    obtain ⟨hkp, -⟩ := S.sound.closing ⟨by simp only; omega, hwithin⟩ hfound
    refine abreast_bind abreast_window ?_
    rintro _ _ k ⟨rfl, rfl, rfl⟩
    simp only [hfound, hfound']
    refine abreast_bind (abreast_wholeIn S hk hkp hp _) ?_
    rintro inner _ _ ⟨rfl, rfl, hreached⟩
    refine abreast_bind (abreast_jump p) ?_
    rintro _ _ _ rfl
    refine abreast_bind (abreast_symbol S.toTwin hreached rfl) ?_
    rintro _ _ j ⟨-, hlt', hj⟩
    refine abreast_bind (abreast_spanFrom S.toTwin hj (Nat.le_refl _)) ?_
    rintro span _ _ ⟨rfl, rfl⟩
    simp only at hkp
    exact abreast_pure ⟨rfl, by omega, hj⟩
  · -- Each one closes behind the brace, or nowhere.
    apply abreast_of_fails
    · apply fails_inner_behind (m := m) S.below S.sound S.scans
      · intro p hp hphi
        exact (S.mono hk.balanced hkm).behind (by omega) hp (by omega)
      · omega
      · exact hwithin
      · have := S.size
        omega
      · exact hfind
    · apply fails_inner_behind (m := m + d) S.below S.sound' S.scans'
      · intro p hp hphi
        have hlt : m < hi := by
          rcases S.stop with hend | hstop <;> omega
        exact (S.mono hk.balanced hkm).behind' hlt hp (by omega)
      · omega
      · exact hwithin'
      · have := S.size'
        omega
      · exact hfind'

/-! ## Alternatives -/

/-- The first alternative that reads is the same on both sides. -/
theorem abreast_firstOf (form : Form) (rules : List (Layout → Rule Expr))
    (h : ∀ r ∈ rules, Abreast L L' d hi hi' False lo (L.Advances lo m lo) (r L) (r L')) :
    Abreast L L' d hi hi' same lo (L.Advances lo m lo) (firstOf L form (rules.map (· L)))
      (firstOf L' form (rules.map (· L'))) := by
  refine abreast_bind (abreast_first S.toTwin (.start S.toTwin)) ?_
  rintro l _ lo ⟨rfl, rfl, -⟩
  induction rules with
  | nil => exact abreast_fail fun _ => rfl
  | cons r rules ih =>
    rw [List.map_cons, List.foldr_cons, List.map_cons, List.foldr_cons]
    exact abreast_orElse (h r List.mem_cons_self)
      (ih fun r' hr' => h r' (List.mem_cons_of_mem _ hr'))

/-- Each alternative reads alike, so the same one is taken. -/
theorem abreast_math : Abreast L L' d hi hi' same lo (L.Advances lo m lo) (math L) (math L') := by
  apply abreast_firstOf S .math [neg, not, (binary · .range), (binary · .sub), (binary · .add),
    (binary · .mul), (binary · .div), parens]
  simp only [List.forall_mem_cons]
  exact ⟨abreast_neg S, abreast_not S, abreast_binary S _, abreast_binary S _, abreast_binary S _,
    abreast_binary S _, abreast_binary S _, abreast_parens S, by simp⟩

theorem abreast_comparison :
    Abreast L L' d hi hi' same lo (L.Advances lo m lo) (comparison L) (comparison L') := by
  apply abreast_firstOf S .comparison
    [(binary · .and), (binary · .or), (binary · .less), (binary · .greater)]
  simp only [List.forall_mem_cons]
  exact ⟨abreast_binary S _, abreast_binary S _, abreast_binary S _, abreast_binary S _, by simp⟩

/-! ## Statements -/

theorem abreast_assignment (hk : L.Reached lo m k) :
    Abreast L L' d hi hi' same k (L.Advances lo m k) (assignment L) (assignment L') := by
  refine abreast_bind (abreast_name S.toTwin hk) ?_
  rintro n _ j ⟨rfl, hlt, hj⟩
  refine abreast_bind (abreast_symbol S.toTwin hj rfl) ?_
  rintro _ _ j₁ ⟨-, hlt₁, hj₁⟩
  have hlo := hk.lo_le
  refine abreast_bind (abreast_level S hj₁ (by omega) .expr) ?_
  rintro value _ j₂ ⟨rfl, hlt₂, hj₂⟩
  exact abreast_pure ⟨rfl, by omega, hj₂⟩

theorem abreast_assign :
    Abreast L L' d hi hi' same lo (L.Advances lo m lo) (assign L) (assign L') := by
  refine abreast_bind abreast_here ?_
  rintro _ _ lo ⟨rfl, rfl, rfl⟩
  refine abreast_bind (abreast_assignment S (.start S.toTwin)) ?_
  rintro ⟨n, value⟩ _ j ⟨rfl, hlt, hj⟩
  refine abreast_bind (abreast_spanFrom S.toTwin hj (Nat.le_refl _)) ?_
  rintro span _ _ ⟨rfl, rfl⟩
  exact abreast_pure ⟨rfl, hlt, hj⟩

/-- Behind the keyword the declaration is an assignment. -/
theorem abreast_declaration {l : Lexeme} (hlt : lo < hi) (hget : L.lexemes[lo]? = some l)
    (hl : l.token.bracing = 0) (mutable : Bool) :
    Abreast L L' d hi hi' same lo (L.Advances lo m lo) (binding.declaration L lo mutable)
      (binding.declaration L' (lo + d) mutable) := by
  have hstart := Reached.start S.toTwin
  refine abreast_bind (abreast_advance S.toTwin hstart hlt) ?_
  rintro _ _ _ rfl
  have hk := hstart.step S.toTwin hlt hget hl
  refine abreast_bind (abreast_assignment S hk) ?_
  rintro ⟨n, value⟩ _ j ⟨rfl, hlt, hj⟩
  refine abreast_bind (abreast_spanFrom S.toTwin hj (Nat.le_refl _)) ?_
  rintro span _ _ ⟨rfl, rfl⟩
  exact abreast_pure ⟨rfl, by omega, hj⟩

theorem abreast_binding :
    Abreast L L' d hi hi' same lo (L.Advances lo m lo) (binding L) (binding L') := by
  refine abreast_bind abreast_here ?_
  rintro _ _ lo ⟨rfl, rfl, rfl⟩
  refine abreast_bind (abreast_first S.toTwin (.start S.toTwin)) ?_
  rintro l _ lo ⟨rfl, rfl, hlt, hget⟩
  cases htoken : l.token with
  | keyword kw =>
    have hl : l.token.bracing = 0 := by rw [htoken]; rfl
    cases kw with
    | varKw => exact abreast_declaration S hlt hget hl true
    | valKw => exact abreast_declaration S hlt hget hl false
    | _ => exact abreast_fail fun _ => rfl
  | _ => exact abreast_fail fun _ => rfl

theorem abreast_call : Abreast L L' d hi hi' same lo (L.Advances lo m lo) (call L) (call L') := by
  refine abreast_bind abreast_here ?_
  rintro _ _ lo ⟨rfl, rfl, rfl⟩
  refine abreast_bind (abreast_name S.toTwin (.start S.toTwin)) ?_
  rintro n _ j ⟨rfl, hlt, hj⟩
  refine abreast_bind (abreast_sequence S.toTwin rfl rfl rfl
    (fun i hi hreached => abreast_level S hreached (by omega) .expr) hj) ?_
  rintro args _ j₁ ⟨rfl, hlt₁, hj₁⟩
  refine abreast_bind (abreast_spanFrom S.toTwin hj₁ (Nat.le_refl _)) ?_
  rintro span _ _ ⟨rfl, rfl⟩
  exact abreast_pure ⟨rfl, by omega, hj₁⟩

theorem abreast_store :
    Abreast L L' d hi hi' same lo (L.Advances lo m lo) (store L) (store L') := by
  refine abreast_bind abreast_here ?_
  rintro _ _ lo ⟨rfl, rfl, rfl⟩
  refine abreast_bind (abreast_element S) ?_
  rintro ⟨base, position, target⟩ _ j ⟨rfl, hlt, hj⟩
  refine abreast_bind (abreast_symbol S.toTwin hj rfl) ?_
  rintro _ _ j₁ ⟨-, hlt₁, hj₁⟩
  refine abreast_bind (abreast_level S hj₁ (by omega) .expr) ?_
  rintro value _ j₂ ⟨rfl, hlt₂, hj₂⟩
  refine abreast_bind (abreast_spanFrom S.toTwin hj₂ (Nat.le_refl _)) ?_
  rintro span _ _ ⟨rfl, rfl⟩
  exact abreast_pure ⟨rfl, by omega, hj₂⟩

theorem abreast_otherwise (hk : L.Reached lo m k) (hlt : lo < k) :
    Abreast L L' d hi hi' same k (L.Advances lo m k) (otherwise L) (otherwise L') := by
  apply abreast_orElse
  · refine abreast_bind (abreast_level S hk hlt .expr) ?_
    rintro e _ _ ⟨rfl, hmoved⟩
    exact abreast_pure ⟨rfl, hmoved⟩
  · exact abreast_body S hk

/-- An `else` comes next on both sides or on none. -/
theorem abreast_branch :
    Abreast L L' d hi hi' same lo (L.Advances lo m lo) (branch L) (branch L') := by
  refine abreast_bind abreast_here ?_
  rintro _ _ lo ⟨rfl, rfl, rfl⟩
  refine abreast_bind (abreast_keyword S.toTwin (.start S.toTwin) .ifKw) ?_
  rintro _ _ j ⟨-, hlt, hj⟩
  refine abreast_bind (abreast_symbol S.toTwin hj rfl) ?_
  rintro _ _ j₁ ⟨-, hlt₁, hj₁⟩
  refine abreast_bind (abreast_level S hj₁ (by omega) .expr) ?_
  rintro cond _ j₂ ⟨rfl, hlt₂, hj₂⟩
  refine abreast_bind (abreast_symbol S.toTwin hj₂ rfl) ?_
  rintro _ _ j₃ ⟨-, hlt₃, hj₃⟩
  refine abreast_bind (abreast_body S hj₃) ?_
  rintro thenBody _ j₄ ⟨rfl, hlt₄, hj₄⟩
  refine abreast_bind (abreast_nextIs S.toTwin hj₄ (.keyword .elseKw)) ?_
  rintro found _ _ ⟨rfl, rfl, helse⟩
  cases found with
  | true =>
    obtain ⟨l, hlt₅, hget, haccepts⟩ := helse rfl
    have hl : l.token.bracing = 0 := by rw [eq_of_accepts_keyword haccepts]; rfl
    simp only [if_true]
    refine abreast_bind (abreast_advance S.toTwin hj₄ hlt₅) ?_
    rintro _ _ _ rfl
    refine abreast_bind (abreast_otherwise S (hj₄.step S.toTwin hlt₅ hget hl) (by omega)) ?_
    rintro elseBody _ j₆ ⟨rfl, hlt₆, hj₆⟩
    refine abreast_bind (abreast_spanFrom S.toTwin hj₆ (Nat.le_refl _)) ?_
    rintro span _ _ ⟨rfl, rfl⟩
    exact abreast_pure ⟨rfl, by omega, hj₆⟩
  | false =>
    simp only [Bool.false_eq_true, if_false]
    refine abreast_bind (abreast_spanFrom S.toTwin hj₄ (Nat.le_refl _)) ?_
    rintro span _ _ ⟨rfl, rfl⟩
    exact abreast_pure ⟨rfl, by omega, hj₄⟩

theorem abreast_forIn :
    Abreast L L' d hi hi' same lo (L.Advances lo m lo) (forIn L) (forIn L') := by
  refine abreast_bind abreast_here ?_
  rintro _ _ lo ⟨rfl, rfl, rfl⟩
  refine abreast_bind (abreast_keyword S.toTwin (.start S.toTwin) .forKw) ?_
  rintro _ _ j ⟨-, hlt, hj⟩
  refine abreast_bind (abreast_symbol S.toTwin hj rfl) ?_
  rintro _ _ j₁ ⟨-, hlt₁, hj₁⟩
  refine abreast_bind (abreast_name S.toTwin hj₁) ?_
  rintro n _ j₂ ⟨rfl, hlt₂, hj₂⟩
  refine abreast_bind (abreast_keyword S.toTwin hj₂ .inKw) ?_
  rintro _ _ j₃ ⟨-, hlt₃, hj₃⟩
  refine abreast_bind (abreast_level S hj₃ (by omega) .expr) ?_
  rintro iterable _ j₄ ⟨rfl, hlt₄, hj₄⟩
  refine abreast_bind (abreast_symbol S.toTwin hj₄ rfl) ?_
  rintro _ _ j₅ ⟨-, hlt₅, hj₅⟩
  refine abreast_bind (abreast_body S hj₅) ?_
  rintro loopBody _ j₆ ⟨rfl, hlt₆, hj₆⟩
  refine abreast_bind (abreast_spanFrom S.toTwin hj₆ (Nat.le_refl _)) ?_
  rintro span _ _ ⟨rfl, rfl⟩
  exact abreast_pure ⟨rfl, by omega, hj₆⟩

theorem abreast_loop : Abreast L L' d hi hi' same lo (L.Advances lo m lo) (loop L) (loop L') := by
  refine abreast_bind abreast_here ?_
  rintro _ _ lo ⟨rfl, rfl, rfl⟩
  refine abreast_bind (abreast_keyword S.toTwin (.start S.toTwin) .whileKw) ?_
  rintro _ _ j ⟨-, hlt, hj⟩
  refine abreast_bind (abreast_symbol S.toTwin hj rfl) ?_
  rintro _ _ j₁ ⟨-, hlt₁, hj₁⟩
  refine abreast_bind (abreast_level S hj₁ (by omega) .expr) ?_
  rintro cond _ j₂ ⟨rfl, hlt₂, hj₂⟩
  refine abreast_bind (abreast_symbol S.toTwin hj₂ rfl) ?_
  rintro _ _ j₃ ⟨-, hlt₃, hj₃⟩
  refine abreast_bind (abreast_body S hj₃) ?_
  rintro loopBody _ j₄ ⟨rfl, hlt₄, hj₄⟩
  refine abreast_bind (abreast_spanFrom S.toTwin hj₄ (Nat.le_refl _)) ?_
  rintro span _ _ ⟨rfl, rfl⟩
  exact abreast_pure ⟨rfl, by omega, hj₄⟩

/-- A value is returned on both sides or on none. -/
theorem abreast_ret : Abreast L L' d hi hi' same lo (L.Advances lo m lo) (ret L) (ret L') := by
  refine abreast_bind abreast_here ?_
  rintro _ _ lo ⟨rfl, rfl, rfl⟩
  refine abreast_bind (abreast_keyword S.toTwin (.start S.toTwin) .returnKw) ?_
  rintro _ _ j ⟨-, hlt, hj⟩
  -- A value is read if there is one; that there is none is no error.
  have hvalue : Abreast L L' d hi hi' same j
      (fun value? value?' i => value? = value?' ∧ j ≤ i ∧ L.Reached lo m i)
      (orElse (do return some (← level .expr)) (return none))
      (orElse (do return some (← level .expr)) (return none)) := by
    apply abreast_orElse
    · refine abreast_bind (abreast_level S hj hlt .expr) ?_
      rintro e _ _ ⟨rfl, hlt₁, hj₁⟩
      exact abreast_pure ⟨rfl, Nat.le_of_lt hlt₁, hj₁⟩
    · exact abreast_pure ⟨rfl, Nat.le_refl _, hj⟩
  refine abreast_bind hvalue ?_
  rintro value? _ j₁ ⟨rfl, hle₁, hj₁⟩
  cases value? with
  | some value | none =>
    refine abreast_bind (abreast_spanFrom S.toTwin hj₁ (Nat.le_refl _)) ?_
    rintro span _ _ ⟨rfl, rfl⟩
    exact abreast_pure ⟨rfl, by omega, hj₁⟩

theorem abreast_control :
    Abreast L L' d hi hi' same lo (L.Advances lo m lo) (control L) (control L') := by
  refine abreast_bind (abreast_first S.toTwin (.start S.toTwin)) ?_
  rintro l _ _ ⟨rfl, rfl, -⟩
  cases l.token with
  | keyword kw =>
    cases kw with
    | ifKw => exact abreast_branch S
    | forKw => exact abreast_forIn S
    | whileKw => exact abreast_loop S
    | returnKw => exact abreast_ret S
    | _ => exact abreast_fail fun _ => rfl
  | _ => exact abreast_fail fun _ => rfl

theorem abreast_top : Abreast L L' d hi hi' same lo (L.Advances lo m lo) (top L) (top L') := by
  refine abreast_bind (abreast_first S.toTwin (.start S.toTwin)) ?_
  rintro l _ _ ⟨rfl, rfl, -⟩
  cases l.token with
  | ident name =>
    apply abreast_firstOf S .top [assign, call, store]
    simp only [List.forall_mem_cons]
    exact ⟨abreast_assign S, abreast_call S, abreast_store S, by simp⟩
  | keyword kw =>
    cases kw with
    | ifKw | forKw | whileKw | returnKw => exact abreast_control S
    | varKw | valKw => exact abreast_binding S
    | _ => exact abreast_fail fun _ => rfl
  | _ => exact abreast_fail fun _ => rfl

end

/-! ## Expressions of any level -/

/-- Both are there and `d` lexemes apart, or neither is. -/
def BestAlike (L : Layout) (d lo m : Nat) (best best' : Option (Expr × Nat)) : Prop :=
  best' = best.map (fun found => (found.1, found.2 + d)) ∧
    ∀ found ∈ best, lo < found.2 ∧ L.Reached lo m found.2

/-- The longer one of two readings is the longer one on both sides. -/
theorem longer_alike {best best' : Option (Expr × Nat)} (hbest : BestAlike L d lo m best best')
    {l : Level} (h : Abreast L L' d hi hi' True lo (L.Advances lo m lo) (level l) (level l)) :
    BestAlike L d lo m (longer best ((level l).eval L ⟨lo, hi⟩))
      (longer best' ((level l).eval L' ⟨lo + d, hi'⟩)) := by
  rcases h.cases with ⟨e, _, j, heval, heval', rfl, hmoved⟩ | ⟨e, e', heval, heval', -⟩
  · rw [heval, heval', longer_ok, longer_ok]
    obtain ⟨rfl, hfound⟩ := hbest
    cases best with
    | none => exact ⟨rfl, by simpa using hmoved⟩
    | some found =>
      simp only [Option.map_some, Nat.add_lt_add_iff_right]
      split
      · exact ⟨rfl, by simpa using hmoved⟩
      · exact ⟨rfl, hfound⟩
  · rw [heval, heval', longer_error, longer_error]
    exact hbest

/-- By induction on the levels that are left to try. -/
theorem foldl_longer_alike {best best' : Option (Expr × Nat)}
    (hbest : BestAlike L d lo m best best') {levels : List Level}
    (h : ∀ l ∈ levels,
      Abreast L L' d hi hi' True lo (L.Advances lo m lo) (level l) (level l)) :
    BestAlike L d lo m
      (levels.foldl (fun best l => longer best ((level l).eval L ⟨lo, hi⟩)) best)
      (levels.foldl (fun best l => longer best ((level l).eval L' ⟨lo + d, hi'⟩)) best') := by
  induction levels generalizing best best' with
  | nil => exact hbest
  | cons l levels ih =>
    exact ih (longer_alike hbest (h l List.mem_cons_self))
      fun l' hl' => h l' (List.mem_cons_of_mem _ hl')

section

variable (S : Setting N L L' d lo m hi hi')

include S

/-- The levels are tried in the same order, and the same one reads furthest. -/
theorem abreast_expr (hN : 2 * (hi - lo) < N) (hN' : 2 * (hi' - (lo + d)) < N) :
    Abreast L L' d hi hi' True lo (L.Advances lo m lo) (expr L) (expr L') := by
  refine abreast_bind (abreast_first S.toTwin (.start S.toTwin)) ?_
  rintro l _ lo ⟨rfl, rfl, -⟩
  have hlevels : ∀ l ∈ [Level.top, .math, .comparison, .short],
      Abreast L L' d hi hi' True lo (L.Advances lo m lo) (level l) (level l) := by
    intro l hl
    have hne : l ≠ .expr := by
      rintro rfl
      simp at hl
    apply S.below l S.sound S.scans S.sound' S.scans' S.toGuarded <;>
      simpa [Goal.size, hne, Window.length]
  have hbest : BestAlike L d lo m none none := ⟨rfl, by simp⟩
  obtain ⟨hsame, hmoved⟩ := foldl_longer_alike hbest hlevels
  rw [← eval_longest, ← eval_longest] at hsame
  rw [← eval_longest] at hmoved
  show Outcome.Alike d True _ (Query.eval _ (Query.bind _ _)) (Query.eval _ (Query.bind _ _))
  rw [Query.eval_bind, Query.eval_bind, hsame]
  cases hlongest : (longest [.top, .math, .comparison, .short] none ⟨lo, hi⟩).eval
      (Goal.answer L) with
  | none => exact .error fun _ => rfl
  | some found =>
    rw [hlongest] at hmoved
    exact .ok ⟨rfl, hmoved found rfl⟩

/-- Every goal asks smaller goals on both sides. -/
theorem abreast_ofLevel {l : Level} (hN : Goal.size ⟨l, ⟨lo, hi⟩⟩ ≤ N)
    (hN' : Goal.size ⟨l, ⟨lo + d, hi'⟩⟩ ≤ N) :
    Abreast L L' d hi hi' True lo (L.Advances lo m lo) (ofLevel L l) (ofLevel L' l) := by
  cases l with
  | expr =>
    simp only [Goal.size, Window.length, if_true] at hN hN'
    exact abreast_expr S hN hN'
  | top => exact abreast_top S
  | math => exact abreast_math S
  | comparison => exact abreast_comparison S
  | short => exact abreast_short S

end

/-- Goals have outcomes alike in windows that start alike. -/
theorem alikeBelow (N : Nat) : AlikeBelow N := by
  induction N with
  | zero =>
    intro L L' d lo m hi hi' l _ _ _ _ _ hsize
    omega
  | succ N ih =>
    intro L L' d lo m hi hi' l hL hS hL' hS' hguarded hsize hsize'
    have hle := hguarded.le_hi
    have hstart := hguarded.start
    have hsizes : 2 * (hi - lo) ≤ N ∧ 2 * (hi' - (lo + d)) ≤ N := by
      simp only [Goal.size, Window.length] at hsize hsize'
      omega
    have S : Setting N L L' d lo m hi hi' :=
      { hguarded with
        sound := hL, scans := hS, sound' := hL', scans' := hS', below := ih
        size := hsizes.1, size' := hsizes.2 }
    have hrule := abreast_ofLevel S (Nat.le_of_lt_succ hsize) (Nat.le_of_lt_succ hsize')
    rw [Abreast, eval_level, eval_level, Goal.answer_eq hL (by omega) hguarded.within,
      Goal.answer_eq hL' (by omega) hguarded.within']
    exact hrule

end Scriptlet.Grammar
