import Scriptlet.Proofs.Grammar.Braces

/-!
# Rules in two windows that start alike

No rule that starts where two windows are alike reads past the brace behind.  So what it reads in
one window it reads in the other, and where it fails in one it fails in the other: `Rule.Abreast`.
There is one lemma for each way to make a rule from others, for each rule that reads a single token,
and for sequences and blocks.
-/

namespace Scriptlet

open Layout

variable {α β γ δ : Type}

/-! ## The judgement -/

/-- Both outcomes are results that end `d` lexemes apart and are as `R` says, or both are errors,
where `same` says whether it is one and the same error. -/
inductive Outcome.Alike (d : Nat) (same : Prop) (R : α → β → Nat → Prop) :
    Outcome α → Outcome β → Prop
  | ok {a : α} {b : β} {k : Nat} : R a b k → Alike d same R (.ok (a, k)) (.ok (b, k + d))
  | error {e e' : SyntaxError} : (same → e = e') → Alike d same R (.error e) (.error e')

/-- Read from lexeme `k`, and from `k + d` in the other window, the rules have outcomes alike. -/
def Rule.Abreast (L L' : Layout) (d hi hi' : Nat) (same : Prop) (k : Nat)
    (R : α → β → Nat → Prop) (r : Rule α) (r' : Rule β) : Prop :=
  Outcome.Alike d same R (r.eval L ⟨k, hi⟩) (r'.eval L' ⟨k + d, hi'⟩)

/-- Reading has come from `lo` to `k` with all braces closed, and not past `m`. -/
structure Layout.Reached (L : Layout) (lo m k : Nat) : Prop where
  balanced : L.Balanced lo k
  le : k ≤ m

/-- Both rules give the same, and have moved on from `k`. -/
def Layout.Advances (L : Layout) (lo m k : Nat) (a b : α) (j : Nat) : Prop :=
  a = b ∧ k < j ∧ L.Reached lo m j

variable {L L' : Layout} {d lo m k hi hi' : Nat} {same : Prop}

namespace Rule

variable {R : α → β → Nat → Prop}

theorem Abreast.cases {r : Rule α} {r' : Rule β} (h : Abreast L L' d hi hi' same k R r r') :
    (∃ a b j, r.eval L ⟨k, hi⟩ = .ok (a, j) ∧ r'.eval L' ⟨k + d, hi'⟩ = .ok (b, j + d) ∧ R a b j) ∨
      ∃ e e', r.eval L ⟨k, hi⟩ = .error e ∧ r'.eval L' ⟨k + d, hi'⟩ = .error e' ∧
        (same → e = e') := by
  rw [Abreast] at h
  generalize r.eval L ⟨k, hi⟩ = o at h ⊢
  generalize r'.eval L' ⟨k + d, hi'⟩ = o' at h ⊢
  cases h with
  | ok hR => exact .inl ⟨_, _, _, rfl, rfl, hR⟩
  | error he => exact .inr ⟨_, _, rfl, rfl, he⟩

/-- A result on one side comes with a result on the other. -/
theorem Abreast.of_ok {r : Rule α} {r' : Rule β} {a : α} {j : Nat}
    (h : Abreast L L' d hi hi' same k R r r') (heval : r.eval L ⟨k, hi⟩ = .ok (a, j)) :
    ∃ b, r'.eval L' ⟨k + d, hi'⟩ = .ok (b, j + d) ∧ R a b j := by
  rcases h.cases with ⟨a', b, j', hok, heval', hR⟩ | ⟨e, e', herror, -⟩
  · obtain ⟨rfl, rfl⟩ := Prod.mk.inj (Except.ok.inj (hok.symm.trans heval))
    exact ⟨b, heval', hR⟩
  · cases herror.symm.trans heval

theorem Abreast.imp {r : Rule α} {r' : Rule β} {same' : Prop} {Q : α → β → Nat → Prop}
    (h : Abreast L L' d hi hi' same k R r r') (hsame : same' → same)
    (hRQ : ∀ a b j, R a b j → Q a b j) : Abreast L L' d hi hi' same' k Q r r' := by
  rcases h.cases with ⟨a, b, j, heval, heval', hR⟩ | ⟨e, e', heval, heval', he⟩
  · rw [Abreast, heval, heval']
    exact .ok (hRQ a b j hR)
  · rw [Abreast, heval, heval']
    exact .error fun hs => he (hsame hs)

theorem abreast_bind {r : Rule α} {r' : Rule β} {f : α → Rule γ} {f' : β → Rule δ}
    {Q : γ → δ → Nat → Prop} (h : Abreast L L' d hi hi' same k R r r')
    (hf : ∀ a b j, R a b j → Abreast L L' d hi hi' same j Q (f a) (f' b)) :
    Abreast L L' d hi hi' same k Q (r >>= f) (r' >>= f') := by
  rcases h.cases with ⟨a, b, j, heval, heval', hR⟩ | ⟨e, e', heval, heval', he⟩
  · rw [Abreast, eval_bind, eval_bind, heval, heval']
    exact hf a b j hR
  · rw [Abreast, eval_bind, eval_bind, heval, heval']
    exact .error he

/-- Which of two rules reads is the same on both sides, however the first one fails. -/
theorem abreast_orElse {r s : Rule α} {r' s' : Rule β}
    (hr : Abreast L L' d hi hi' False k R r r') (hs : Abreast L L' d hi hi' same k R s s') :
    Abreast L L' d hi hi' same k R (orElse r s) (orElse r' s') := by
  rcases hr.cases with ⟨a, b, j, heval, heval', hR⟩ | ⟨e, e', heval, heval', -⟩
  · rw [Abreast, eval_orElse, eval_orElse, heval, heval']
    exact .ok hR
  · rw [Abreast, eval_orElse, eval_orElse, heval, heval']
    exact hs

theorem abreast_pure {a : α} {b : β} (h : R a b k) :
    Abreast L L' d hi hi' same k R (pure a) (pure b) := .ok h

theorem abreast_fail {e e' : SyntaxError} (h : same → e = e') :
    Abreast L L' d hi hi' same k R (fail e) (fail e') := .error h

/-- Rules that both fail are alike, if not in their errors. -/
theorem abreast_of_fails {r : Rule α} {r' : Rule β} (h : r.Fails L k hi)
    (h' : r'.Fails L' (k + d) hi') : Abreast L L' d hi hi' False k R r r' := by
  obtain ⟨e, he⟩ := h
  obtain ⟨e', he'⟩ := h'
  rw [Abreast, he, he']
  exact .error False.elim

theorem abreast_here :
    Abreast L L' d hi hi' same k (fun a b j => a = k ∧ b = k + d ∧ j = k) here here :=
  .ok ⟨rfl, rfl, rfl⟩

theorem abreast_window :
    Abreast L L' d hi hi' same k (fun a b j => a = ⟨k, hi⟩ ∧ b = ⟨k + d, hi'⟩ ∧ j = k)
      window window :=
  .ok ⟨rfl, rfl, rfl⟩

theorem abreast_jump (p : Nat) :
    Abreast L L' d hi hi' same k (fun _ _ j => j = p) (jump p) (jump (p + d)) := .ok rfl

theorem abreast_sized {r : Nat → Rule α} {r' : Nat → Rule β}
    (h : Abreast L L' d hi hi' same k R (r (hi - k + 1)) (r' (hi' - (k + d) + 1))) :
    Abreast L L' d hi hi' same k R (sized r) (sized r') := h

end Rule

namespace Layout

theorem Reached.start (h : Twin L L' d lo m hi hi') : L.Reached lo m lo :=
  ⟨.refl L lo, h.start⟩

theorem Reached.lo_le (h : L.Reached lo m k) : lo ≤ k := h.balanced.le

/-- Passing over a token that is no brace. -/
theorem Reached.step {l : Lexeme} (h : L.Reached lo m k) (htwin : Twin L L' d lo m hi hi')
    (hlt : k < hi) (hget : L.lexemes[k]? = some l) (hl : l.token.bracing = 0) :
    L.Reached lo m (k + 1) := by
  refine ⟨h.balanced.step hget hl, htwin.lt_of_get h.le hlt hget ?_⟩
  intro hclose
  rw [hclose] at hl
  cases hl

/-- If one window goes on so does the other. -/
theorem Twin.lt_right (h : Twin L L' d lo m hi hi') (hk : k ≤ m) (hlt : k < hi) :
    k + d < hi' := by
  rcases h.stop with hend | hstop <;> omega

end Layout

namespace Grammar

open Rule

/-! ## Single tokens -/

section

variable (htwin : Twin L L' d lo m hi hi') (hk : L.Reached lo m k)

include htwin hk

theorem abreast_first :
    Abreast L L' d hi hi' same k (fun l l' j => l = l' ∧ j = k ∧ k < hi ∧ L.lexemes[k]? = some l)
      (first L) (first L') := by
  simp only [Abreast, Rule.eval, first, Window.first, htwin.get?_eq hk.lo_le hk.le]
  cases hget : Window.get? ⟨k, hi⟩ L.lexemes 0 with
  | none => exact .error fun _ => rfl
  | some l => exact .ok ⟨rfl, rfl, get?_zero hget⟩

theorem abreast_peek? :
    Abreast L L' d hi hi' same k
      (fun l? l?' j => l? = l?' ∧ j = k ∧ l? = Window.get? ⟨k, hi⟩ L.lexemes 0)
      (peek? L) (peek? L') := by
  simp only [Abreast, Rule.eval, peek?, htwin.get?_eq hk.lo_le hk.le]
  exact .ok ⟨rfl, rfl, rfl⟩

theorem abreast_advance (hlt : k < hi) :
    Abreast L L' d hi hi' same k (fun _ _ j => j = k + 1) advance advance := by
  have hlt' := htwin.lt_right hk.le hlt
  have hleft : (Window.drop ⟨k, hi⟩ 1).lo = k + 1 := Nat.min_eq_left hlt
  have hright : (Window.drop ⟨k + d, hi'⟩ 1).lo = k + 1 + d := by
    show min (k + d + 1) hi' = k + 1 + d
    omega
  simp only [Abreast, Rule.eval, advance, hleft, hright]
  exact .ok rfl

theorem abreast_expect (x : Expected) :
    Abreast L L' d hi hi' same k (fun l l' j => l = l' ∧ j = k + 1 ∧ k < hi ∧
      L.lexemes[k]? = some l ∧ x.accepts l.token = true) (expect L x) (expect L' x) := by
  refine abreast_bind (abreast_first htwin hk) ?_
  rintro l _ _ ⟨rfl, rfl, hlt, hget⟩
  by_cases haccepts : x.accepts l.token = true
  · simp only [if_pos haccepts]
    refine abreast_bind (abreast_advance htwin hk hlt) ?_
    rintro _ _ _ rfl
    exact abreast_pure ⟨rfl, rfl, hlt, hget, haccepts⟩
  · simp only [if_neg haccepts]
    exact abreast_fail fun _ => rfl

/-- A token that is waited for, and is no brace. -/
theorem abreast_token {x : Expected} (hx : ∀ t, x.accepts t = true → t.bracing = 0) :
    Abreast L L' d hi hi' same k (L.Advances lo m k) (expect L x) (expect L' x) := by
  apply (abreast_expect htwin hk x).imp id
  rintro l _ _ ⟨rfl, rfl, hlt, hget, haccepts⟩
  exact ⟨rfl, Nat.lt_succ_self k, hk.step htwin hlt hget (hx _ haccepts)⟩

theorem abreast_symbol {p : Punct} (hp : (Token.symbol p).bracing = 0) :
    Abreast L L' d hi hi' same k (L.Advances lo m k) (expect L (.symbol p))
      (expect L' (.symbol p)) :=
  abreast_token htwin hk fun t ht => by rw [eq_of_accepts_symbol ht, hp]

theorem abreast_keyword (kw : Keyword) :
    Abreast L L' d hi hi' same k (L.Advances lo m k) (expect L (.keyword kw))
      (expect L' (.keyword kw)) :=
  abreast_token htwin hk fun t ht => by rw [eq_of_accepts_keyword ht]; rfl

/-- A token that is read if it is there: a brace, too, may be. -/
theorem abreast_accept (p : Punct) :
    Abreast L L' d hi hi' same k (fun found found' j => found = found' ∧
        (found = true ∧ j = k + 1 ∧ k < hi ∧
            (∃ l, L.lexemes[k]? = some l ∧ l.token = .symbol p) ∨
          found = false ∧ j = k))
      (accept L (.symbol p)) (accept L' (.symbol p)) := by
  refine abreast_bind (abreast_first htwin hk) ?_
  rintro l _ _ ⟨rfl, rfl, hlt, hget⟩
  by_cases haccepts : (Expected.symbol p).accepts l.token = true
  · simp only [if_pos haccepts]
    refine abreast_bind (abreast_advance htwin hk hlt) ?_
    rintro _ _ _ rfl
    exact abreast_pure ⟨rfl, .inl ⟨rfl, rfl, hlt, l, hget, eq_of_accepts_symbol haccepts⟩⟩
  · simp only [if_neg haccepts]
    exact abreast_pure ⟨rfl, .inr ⟨rfl, rfl⟩⟩

/-- A token that is read if it is there, and is no brace. -/
theorem abreast_option {p : Punct} (hp : (Token.symbol p).bracing = 0) :
    Abreast L L' d hi hi' same k (fun found found' j => found = found' ∧ k ≤ j ∧ L.Reached lo m j)
      (accept L (.symbol p)) (accept L' (.symbol p)) := by
  apply (abreast_accept htwin hk p).imp id
  rintro found _ _ ⟨rfl, ⟨-, rfl, hlt, l, hget, hl⟩ | ⟨-, rfl⟩⟩
  · exact ⟨rfl, Nat.le_succ k, hk.step htwin hlt hget (by rw [hl, hp])⟩
  · exact ⟨rfl, Nat.le_refl _, hk⟩

theorem abreast_nextIs (x : Expected) :
    Abreast L L' d hi hi' same k (fun found found' j => found = found' ∧ j = k ∧
        (found = true → ∃ l, k < hi ∧ L.lexemes[k]? = some l ∧ x.accepts l.token = true))
      (nextIs L x) (nextIs L' x) := by
  refine abreast_bind (abreast_peek? htwin hk) ?_
  rintro l? _ _ ⟨rfl, rfl, hnext⟩
  cases l? with
  | none => exact abreast_pure ⟨rfl, rfl, fun h => by cases h⟩
  | some l =>
    obtain ⟨hlt, hget⟩ := get?_zero hnext.symm
    exact abreast_pure ⟨rfl, rfl, fun haccepts => ⟨l, hlt, hget, haccepts⟩⟩

theorem abreast_spanFrom {start : Nat} (hstart : lo ≤ start) :
    Abreast L L' d hi hi' same k (fun s s' j => s = s' ∧ j = k) (spanFrom L start)
      (spanFrom L' (start + d)) := by
  refine abreast_bind abreast_here ?_
  rintro _ _ _ ⟨rfl, rfl, rfl⟩
  exact abreast_pure ⟨(htwin.spanOf_eq hstart hk.le).symm, rfl⟩

theorem abreast_name : Abreast L L' d hi hi' same k (L.Advances lo m k) (name L) (name L') := by
  refine abreast_bind (abreast_first htwin hk) ?_
  rintro l _ _ ⟨rfl, rfl, hlt, hget⟩
  cases htoken : l.token with
  | ident text =>
    refine abreast_bind (abreast_advance htwin hk hlt) ?_
    rintro _ _ _ rfl
    exact abreast_pure ⟨rfl, Nat.lt_succ_self _, hk.step htwin hlt hget (by rw [htoken]; rfl)⟩
  | _ => exact abreast_fail fun _ => rfl

end

/-- Line ends are passed over alike, since no line end is a brace. -/
theorem newlineRun_twin (htwin : Twin L L' d lo m hi hi') {n n' : Nat} (hk : L.Reached lo m k)
    (hn : k + n = hi) (hn' : k + d + n' = hi') :
    L'.newlineRun n' (k + d) = L.newlineRun n k + d ∧ k ≤ L.newlineRun n k ∧
      L.Reached lo m (L.newlineRun n k) := by
  induction n generalizing k n' with
  | zero =>
    have hlast : n' = 0 := by
      have := htwin.lt_right (k := k) hk.le
      have := htwin.le_hi
      rcases htwin.stop with hend | hstop
      · have := hk.le
        omega
      · have := hk.le
        omega
    rw [hlast]
    exact ⟨rfl, Nat.le_refl k, hk⟩
  | succ n ih =>
    have hlt' := htwin.lt_right hk.le (show k < hi by omega)
    obtain ⟨n', rfl⟩ : ∃ n₁, n' = n₁ + 1 := ⟨n' - 1, by omega⟩
    have hsame := htwin.get?_eq hk.lo_le hk.le
    rw [Window.get?_zero_of_lt (by omega), Window.get?_zero_of_lt (by omega)] at hsame
    rw [newlineRun, newlineRun, hsame]
    cases hget : L.lexemes[k]? with
    | none => exact ⟨rfl, Nat.le_refl k, hk⟩
    | some l =>
      simp only
      by_cases hnewline : l.token = .newline
      · have hstep := hk.step htwin (by omega) hget (by rw [hnewline]; rfl)
        obtain ⟨heq, hle, hreached⟩ := @ih (k + 1) n' hstep (by omega) (by omega)
        rw [if_pos hnewline, if_pos hnewline, Nat.add_right_comm, heq]
        exact ⟨rfl, by omega, hreached⟩
      · rw [if_neg hnewline, if_neg hnewline]
        exact ⟨rfl, Nat.le_refl k, hk⟩

theorem abreast_skipNewlines (htwin : Twin L L' d lo m hi hi') (hk : L.Reached lo m k) :
    Abreast L L' d hi hi' same k (fun _ _ j => k ≤ j ∧ L.Reached lo m j) (skipNewlines L)
      (skipNewlines L') := by
  refine abreast_bind abreast_window ?_
  rintro _ _ k ⟨rfl, rfl, rfl⟩
  have hle := htwin.le_hi
  have hkm := hk.le
  have hlen : k + Window.length ⟨k, hi⟩ = hi := by simp only [Window.length]; omega
  have hlen' : k + d + Window.length ⟨k + d, hi'⟩ = hi' := by simp only [Window.length]; omega
  obtain ⟨heq, hmoved⟩ := newlineRun_twin htwin hk hlen hlen'
  rw [heq]
  apply (abreast_jump _).imp id
  rintro _ _ _ rfl
  exact hmoved

/-! ## Sequences -/

/-- Elements are read alike as long as there are rounds enough for what is alike. -/
theorem abreast_elements (htwin : Twin L L' d lo m hi hi') {close separator : Punct}
    (hclose : (Token.symbol close).bracing = 0) (hseparator : (Token.symbol separator).bracing = 0)
    {element element' : Rule α}
    (helement : ∀ j, k ≤ j → L.Reached lo m j →
      Abreast L L' d hi hi' same j (L.Advances lo m j) element element')
    {rounds rounds' : Nat} (hrounds : m - k < rounds) (hrounds' : m - k < rounds')
    (hk : L.Reached lo m k) :
    Abreast L L' d hi hi' same k (fun xs xs' j => xs = xs' ∧ L.Reached lo m j ∧ k ≤ j)
      (elements L close separator element rounds)
      (elements L' close separator element' rounds') := by
  induction rounds generalizing k rounds' with
  | zero => omega
  | succ rounds ih =>
    obtain ⟨rounds', rfl⟩ : ∃ n, rounds' = n + 1 := ⟨rounds' - 1, by omega⟩
    rw [elements, elements]
    refine abreast_bind (abreast_option htwin hk hclose) ?_
    rintro found _ j₁ ⟨rfl, hle₁, hk₁⟩
    cases found with
    | true => exact abreast_pure ⟨rfl, hk₁, hle₁⟩
    | false =>
      simp only [Bool.false_eq_true, if_false]
      refine abreast_bind (helement j₁ hle₁ hk₁) ?_
      rintro x _ j₂ ⟨rfl, hlt₂, hk₂⟩
      refine abreast_bind (abreast_option htwin hk₂ hseparator) ?_
      rintro _ _ j₃ ⟨-, hle₃, hk₃⟩
      -- At least one lexeme was read in this round, so one round less is enough.
      have hle := hk₃.le
      refine abreast_bind (ih (fun j hj => helement j (by omega)) (by omega)
        (show m - j₃ < rounds' by omega) hk₃) ?_
      rintro xs _ j₄ ⟨rfl, hk₄, hle₄⟩
      exact abreast_pure ⟨rfl, hk₄, by omega⟩

theorem abreast_sequence (htwin : Twin L L' d lo m hi hi') {opening close separator : Punct}
    (hopening : (Token.symbol opening).bracing = 0) (hclose : (Token.symbol close).bracing = 0)
    (hseparator : (Token.symbol separator).bracing = 0) {element element' : Rule α}
    (helement : ∀ j, k < j → L.Reached lo m j →
      Abreast L L' d hi hi' same j (L.Advances lo m j) element element')
    (hk : L.Reached lo m k) :
    Abreast L L' d hi hi' same k (L.Advances lo m k)
      (sequence L opening close separator element)
      (sequence L' opening close separator element') := by
  refine abreast_bind (abreast_symbol htwin hk hopening) ?_
  rintro _ _ j ⟨-, hlt, hj⟩
  have hle := htwin.le_hi
  have hjm := hj.le
  have hinner : ∀ i, j ≤ i → L.Reached lo m i →
      Abreast L L' d hi hi' same i (L.Advances lo m i) element element' :=
    fun i hji => helement i (Nat.lt_of_lt_of_le hlt hji)
  apply (abreast_sized (abreast_elements htwin hclose hseparator hinner (by omega) (by omega)
    hj)).imp id
  rintro xs _ i ⟨rfl, hi, hji⟩
  exact ⟨rfl, Nat.lt_of_lt_of_le hlt hji, hi⟩

/-! ## Goals -/

/-- Goals smaller than `N` have outcomes alike in windows that start alike. -/
def AlikeBelow (N : Nat) : Prop :=
  ∀ {L L' : Layout} {d lo m hi hi' : Nat} (l : Level), L.Sound → L.Scans → L'.Sound → L'.Scans →
    Guarded L L' d lo m hi hi' →
    Goal.size ⟨l, ⟨lo, hi⟩⟩ < N → Goal.size ⟨l, ⟨lo + d, hi'⟩⟩ < N →
    Abreast L L' d hi hi' True lo (L.Advances lo m lo) (level l) (level l)

/-- What rules need that read from the start of two windows which start alike. -/
structure Setting (N : Nat) (L L' : Layout) (d lo m hi hi' : Nat) : Prop extends
    Guarded L L' d lo m hi hi' where
  sound : L.Sound
  scans : L.Scans
  sound' : L'.Sound
  scans' : L'.Scans
  below : AlikeBelow N
  size : 2 * (hi - lo) ≤ N
  size' : 2 * (hi' - (lo + d)) ≤ N

variable {N : Nat}

theorem abreast_levelWithin (S : Setting N L L' d lo m hi hi') (hk : L.Reached lo m k) (l : Level)
    (hN : 2 * (hi - k) + 1 < N) (hN' : 2 * (hi' - (k + d)) + 1 < N) :
    Abreast L L' d hi hi' same k (L.Advances lo m k) (level l) (level l) := by
  have hsize := Goal.size_le l k hi
  have hsize' := Goal.size_le l (k + d) hi'
  have hlevel := S.below l S.sound S.scans S.sound' S.scans' (S.mono hk.balanced hk.le)
    (by omega) (by omega)
  apply hlevel.imp (fun _ => trivial)
  rintro e _ j ⟨rfl, hlt, hj⟩
  exact ⟨rfl, hlt, hk.balanced.trans hj.balanced, hj.le⟩

/-- Behind the first lexeme, expressions are read alike. -/
theorem abreast_level (S : Setting N L L' d lo m hi hi') (hk : L.Reached lo m k) (hlt : lo < k)
    (l : Level) : Abreast L L' d hi hi' same k (L.Advances lo m k) (level l) (level l) := by
  have hle := S.le_hi
  have hkm := hk.le
  have hsize := S.size
  have hsize' := S.size'
  exact abreast_levelWithin S hk l (by omega) (by omega)

/-! ## Blocks -/

/-- Statements are read up to the brace that closes the block. -/
theorem abreast_statements (S : Setting N L L' d lo m hi hi') (hN : 2 * (hi - lo) + 1 < N)
    (hN' : 2 * (hi' - (lo + d)) + 1 < N) {rounds rounds' : Nat} (hrounds : m - k < rounds)
    (hrounds' : m - k < rounds') (hk : L.Reached lo m k) :
    Abreast L L' d hi hi' same k (fun es es' j => es = es' ∧ ∃ c l, j = c + 1 ∧ c < hi ∧
        L.Reached lo m c ∧ L.lexemes[c]? = some l ∧ l.token = .symbol .rbrace)
      (statements L rounds) (statements L' rounds') := by
  induction rounds generalizing k rounds' with
  | zero => omega
  | succ rounds ih =>
    obtain ⟨rounds', rfl⟩ : ∃ n, rounds' = n + 1 := ⟨rounds' - 1, by omega⟩
    rw [statements, statements]
    refine abreast_bind (abreast_skipNewlines S.toTwin hk) ?_
    rintro _ _ j ⟨hkj, hj⟩
    refine abreast_bind (abreast_accept S.toTwin hj .rbrace) ?_
    rintro found _ i ⟨rfl, ⟨rfl, rfl, hlt, l, hget, hl⟩ | ⟨rfl, rfl⟩⟩
    · exact abreast_pure ⟨rfl, j, l, rfl, hlt, hj, hget, hl⟩
    · simp only [Bool.false_eq_true, if_false]
      have hlo := hj.lo_le
      refine abreast_bind (abreast_levelWithin S hj .top (by omega) (by omega)) ?_
      rintro e _ i' ⟨rfl, hlt, hi'⟩
      have hle := hi'.le
      refine abreast_bind (ih (by omega) (show m - i' < rounds' by omega) hi') ?_
      rintro es _ _ ⟨rfl, hend⟩
      exact abreast_pure ⟨rfl, hend⟩

/-- A block is read alike if its inside is. -/
theorem abreast_inside (htwin : Twin L L' d lo m hi hi') (hk : L.Reached lo m k) {m' : Nat}
    (S : Setting N L L' d (k + 1) m' hi hi') (hN : 2 * (hi - (k + 1)) + 1 < N)
    (hN' : 2 * (hi' - (k + 1 + d)) + 1 < N) :
    Abreast L L' d hi hi' same k
      (fun es es' j => es = es' ∧ j ≤ m' + 1 ∧ j ≤ hi ∧ L.Block k j) (body L) (body L') := by
  refine abreast_bind (abreast_expect htwin hk (.symbol .lbrace)) ?_
  rintro l _ _ ⟨rfl, rfl, -, hopen, haccepts⟩
  have hends := S.le_hi
  have hstart := S.start
  have hrounds : m' - (k + 1) < hi - (k + 1) + 1 := by omega
  have hrounds' : m' - (k + 1) < hi' - (k + 1 + d) + 1 := by omega
  apply (abreast_sized (abreast_statements S hN hN' hrounds hrounds' (.start S.toTwin))).imp id
  rintro es _ _ ⟨rfl, c, l', rfl, hc, hreached, hclose, hl'⟩
  exact ⟨rfl, Nat.succ_le_succ hreached.le, hc, c, l, l', rfl, hopen,
    eq_of_accepts_symbol haccepts, hreached.balanced, hclose, hl'⟩

/-- A block is read alike: inside, the windows are alike up to the brace that closes it. -/
theorem abreast_block (S : Setting N L L' d lo m hi hi') (hk : L.Reached lo m k) :
    Abreast L L' d hi hi' same k (fun es es' j => L.Advances lo m k es es' j ∧ L.Block k j)
      (body L) (body L') := by
  by_cases hopen : ∃ l, k < hi ∧ L.lexemes[k]? = some l ∧ l.token = .symbol .lbrace
  · obtain ⟨l, hlt, hget, hl⟩ := hopen
    have hkm : k < m := S.lt_of_get hk.le hlt hget (by rw [hl]; simp)
    obtain ⟨m', hle, hinside, hguarded⟩ := S.enter hk.balanced hkm hget hl
    have hends := S.le_hi
    have hlo := hk.lo_le
    have hsize := S.size
    have hsize' := S.size'
    have hstart := hguarded.start
    have S' : Setting N L L' d (k + 1) m' hi hi' :=
      { hguarded, S with size := by omega, size' := by omega }
    apply (abreast_inside S.toTwin hk S' (by omega) (by omega)).imp id
    rintro es _ j ⟨rfl, hjm, hjhi, hblock⟩
    obtain ⟨hkj, hbal⟩ := hblock.balanced
    refine ⟨⟨rfl, hkj, hk.balanced.trans hbal, ?_⟩, hblock⟩
    -- The closing brace itself stands before `m`.
    rcases Nat.lt_or_ge m hi with hstop | hend
    · have := hinside hstop
      omega
    · omega
  · refine abreast_bind (abreast_expect S.toTwin hk (.symbol .lbrace)) ?_
    rintro l _ _ ⟨rfl, rfl, hlt, hget, haccepts⟩
    exact absurd ⟨l, hlt, hget, eq_of_accepts_symbol haccepts⟩ hopen

theorem abreast_body (S : Setting N L L' d lo m hi hi') (hk : L.Reached lo m k) :
    Abreast L L' d hi hi' same k (L.Advances lo m k) (body L) (body L') :=
  (abreast_block S hk).imp id fun _ _ _ h => h.1

end Grammar

end Scriptlet
