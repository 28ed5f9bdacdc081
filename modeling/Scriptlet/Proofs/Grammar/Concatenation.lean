import Scriptlet.Proofs.Grammar.Levels
import Scriptlet.Proofs.Grammar.RoundTrip

/-!
# Programs one behind the other

The lexemes of a program followed by those of another are read as the functions of both, and an error
of the second is an error of the whole: `Program.splitLexemes_append`.  A function ends with the brace
that closes its body, so what stands behind the lexemes of the first program makes no difference to
it; the second program is read as on its own, further on.
-/

namespace Scriptlet

open Layout

namespace Grammar

open Rule

variable {L L' : Layout} {N d lo m k hi hi' : Nat} {same : Prop}

/-! ## Headers -/

theorem abreast_typeWithin (htwin : Twin L L' d lo m hi hi') {depth depth' : Nat}
    (hdepth : m - k < depth) (hdepth' : m - k < depth') (hk : L.Reached lo m k) :
    Abreast L L' d hi hi' same k (L.Advances lo m k) (typeWithin L depth)
      (typeWithin L' depth') := by
  induction depth generalizing k depth' with
  | zero => omega
  | succ depth ih =>
    obtain ⟨depth', rfl⟩ : ∃ n, depth' = n + 1 := ⟨depth' - 1, by omega⟩
    rw [typeWithin, typeWithin]
    refine abreast_bind abreast_here ?_
    rintro _ _ k ⟨rfl, rfl, rfl⟩
    refine abreast_bind (abreast_name htwin hk) ?_
    rintro n _ j ⟨rfl, hlt, hj⟩
    refine abreast_bind (abreast_nextIs htwin hj (.symbol .less)) ?_
    rintro found _ j ⟨rfl, rfl, -⟩
    cases found with
    | false => exact abreast_pure ⟨rfl, hlt, hj⟩
    | true =>
      simp only [if_true]
      -- The arguments stand further on, where less depth is enough.
      have harg : ∀ i, j < i → L.Reached lo m i → Abreast L L' d hi hi' same i
          (L.Advances lo m i) (typeWithin L depth) (typeWithin L' depth') := by
        intro i hji hi
        have hle := hi.le
        exact ih (by omega) (by omega) hi
      refine abreast_bind (abreast_sequence htwin rfl rfl rfl harg hj) ?_
      rintro args _ j₁ ⟨rfl, hlt₁, hj₁⟩
      refine abreast_bind (abreast_spanFrom htwin hj₁ hk.lo_le) ?_
      rintro span _ _ ⟨rfl, rfl⟩
      exact abreast_pure ⟨rfl, by omega, hj₁⟩

/-- Reads a function up to its body: its name, its parameters and its result type. -/
def header (L : Layout) : Rule (Name × List Param × Option TypeRef) := do
  let _ ← expect L (.keyword .funKw)
  let n ← name L
  let params ← sequence L .lparen .rparen .comma (param L)
  let result ← resultType L
  return (n, params, result)

section

variable (htwin : Twin L L' d lo m hi hi') (hk : L.Reached lo m k)

include htwin hk

theorem abreast_type :
    Abreast L L' d hi hi' same k (L.Advances lo m k) (type L) (type L') := by
  have hle := htwin.le_hi
  have hkm := hk.le
  exact abreast_sized (abreast_typeWithin htwin (by omega) (by omega) hk)

theorem abreast_param :
    Abreast L L' d hi hi' same k (L.Advances lo m k) (param L) (param L') := by
  refine abreast_bind abreast_here ?_
  rintro _ _ k ⟨rfl, rfl, rfl⟩
  refine abreast_bind (abreast_name htwin hk) ?_
  rintro n _ j ⟨rfl, hlt, hj⟩
  refine abreast_bind (abreast_symbol htwin hj rfl) ?_
  rintro _ _ j₁ ⟨-, hlt₁, hj₁⟩
  refine abreast_bind (abreast_type htwin hj₁) ?_
  rintro t _ j₂ ⟨rfl, hlt₂, hj₂⟩
  refine abreast_bind (abreast_spanFrom htwin hj₂ hk.lo_le) ?_
  rintro span _ _ ⟨rfl, rfl⟩
  exact abreast_pure ⟨rfl, by omega, hj₂⟩

theorem abreast_resultType :
    Abreast L L' d hi hi' same k (fun t? t?' j => t? = t?' ∧ k ≤ j ∧ L.Reached lo m j)
      (resultType L) (resultType L') := by
  refine abreast_bind (abreast_nextIs htwin hk (.symbol .colon)) ?_
  rintro found _ k ⟨rfl, rfl, hcolon⟩
  cases found with
  | false => exact abreast_pure ⟨rfl, Nat.le_refl _, hk⟩
  | true =>
    obtain ⟨l, hlt, hget, haccepts⟩ := hcolon rfl
    have hl : l.token.bracing = 0 := by rw [eq_of_accepts_symbol haccepts]; rfl
    simp only [if_true]
    refine abreast_bind (abreast_advance htwin hk hlt) ?_
    rintro _ _ _ rfl
    refine abreast_bind (abreast_type htwin (hk.step htwin hlt hget hl)) ?_
    rintro t _ j ⟨rfl, hlt₁, hj⟩
    exact abreast_pure ⟨rfl, by omega, hj⟩

theorem abreast_header :
    Abreast L L' d hi hi' same k (L.Advances lo m k) (header L) (header L') := by
  refine abreast_bind (abreast_keyword htwin hk .funKw) ?_
  rintro _ _ j ⟨-, hlt, hj⟩
  refine abreast_bind (abreast_name htwin hj) ?_
  rintro n _ j₁ ⟨rfl, hlt₁, hj₁⟩
  refine abreast_bind (abreast_sequence htwin rfl rfl rfl
    (fun i _ hi => abreast_param htwin hi) hj₁) ?_
  rintro params _ j₂ ⟨rfl, hlt₂, hj₂⟩
  refine abreast_bind (abreast_resultType htwin hj₂) ?_
  rintro result _ j₃ ⟨rfl, hle₃, hj₃⟩
  exact abreast_pure ⟨rfl, by omega, hj₃⟩

end

/-! ## Functions -/

theorem eval_pure {α : Type} (a : α) (w : Window) : (pure a : Rule α).eval L w = .ok (a, w.lo) :=
  rfl

/-- A function is its header and its body. -/
theorem eval_function (L : Layout) (lo hi : Nat) :
    (function L).eval L ⟨lo, hi⟩ =
      match (header L).eval L ⟨lo, hi⟩ with
      | .ok ((n, params, result), b) =>
        match (body L).eval L ⟨b, hi⟩ with
        | .ok (es, j) => .ok (⟨L.spanOf lo j, n.text, params, result, es⟩, j)
        | .error e => .error e
      | .error e => .error e := by
  have hhere : here.eval L ⟨lo, hi⟩ = .ok (lo, lo) := rfl
  simp only [function, header, eval_bind, hhere]
  cases (expect L (.keyword .funKw)).eval L ⟨lo, hi⟩ with
  | error e => rfl
  | ok found =>
    simp only
    cases (name L).eval L ⟨found.2, hi⟩ with
    | error e => rfl
    | ok found =>
      simp only
      cases (sequence L .lparen .rparen .comma (param L)).eval L ⟨found.2, hi⟩ with
      | error e => rfl
      | ok found =>
        simp only
        cases (resultType L).eval L ⟨found.2, hi⟩ with
        | error e => rfl
        | ok found =>
          simp only [eval_pure]
          cases (body L).eval L ⟨found.2, hi⟩ with
          | error e => rfl
          | ok found => rfl

/-- Goals of every size are alike, so any two windows that start alike will do. -/
theorem Setting.of_guarded (h : Guarded L L' d lo m hi hi') (hL : L.Sound) (hS : L.Scans)
    (hL' : L'.Sound) (hS' : L'.Scans) (hN : 2 * (hi - lo) ≤ N) (hN' : 2 * (hi' - (lo + d)) ≤ N) :
    Setting N L L' d lo m hi hi' :=
  { h with
    sound := hL, scans := hS, sound' := hL', scans' := hS', below := alikeBelow N
    size := hN, size' := hN' }

theorem Setting.mono (S : Setting N L L' d lo m hi hi') (hk : L.Reached lo m k) :
    Setting N L L' d k m hi hi' := by
  have hlo := hk.lo_le
  have hsize := S.size
  have hsize' := S.size'
  exact { S.toGuarded.mono hk.balanced hk.le, S with size := by omega, size' := by omega }

theorem abreast_function (S : Setting N L L' d lo m hi hi') :
    Abreast L L' d hi hi' same lo (L.Advances lo m lo) (function L) (function L') := by
  have hheader : Abreast L L' d hi hi' same lo (L.Advances lo m lo) (header L) (header L') :=
    abreast_header S.toTwin (.start S.toTwin)
  rw [Abreast, eval_function, eval_function]
  rcases hheader.cases with
    ⟨⟨n, params, result⟩, _, b, heval, heval', rfl, hlt, hb⟩ | ⟨e, e', heval, heval', he⟩
  · rw [heval, heval']
    simp only
    have hbody : Abreast L L' d hi hi' same b (L.Advances lo m b) (body L) (body L') :=
      abreast_body S hb
    rcases hbody.cases with
      ⟨es, _, j, hbody, hbody', rfl, hlt', hj⟩ | ⟨e, e', hbody, hbody', he⟩
    · rw [hbody, hbody']
      refine .ok ⟨?_, Nat.lt_trans hlt hlt', hj⟩
      rw [S.spanOf_eq (Nat.le_refl lo) hj.le]
    · rw [hbody, hbody']
      exact .error he
  · rw [heval, heval']
    exact .error he

/-- Windows that are the whole of what they have in common. -/
theorem guarded_same (hlo : lo ≤ hi) (hhi : hi ≤ L.lexemes.size) (hhi' : hi + d ≤ L'.lexemes.size)
    (hagree : ∀ i, lo ≤ i → i < hi → L'.lexemes[i + d]? = L.lexemes[i]?) :
    Guarded L L' d lo hi hi (hi + d) where
  start := hlo
  agree := hagree
  within := hhi
  within' := hhi'
  stop := .inl ⟨rfl, rfl⟩
  guard hlt := absurd hlt (Nat.lt_irrefl hi)

/-- A function that was read has a header, and its body is a block. -/
theorem exists_block (hL : L.Sound) (hS : L.Scans) (hlo : lo ≤ hi) (hhi : hi ≤ L.lexemes.size)
    {f : Fun} {j : Nat} (h : (function L).eval L ⟨lo, hi⟩ = .ok (f, j)) :
    ∃ n params result b es, (header L).eval L ⟨lo, hi⟩ = .ok ((n, params, result), b) ∧
      (body L).eval L ⟨b, hi⟩ = .ok (es, j) ∧
      f = ⟨L.spanOf lo j, n.text, params, result, es⟩ ∧ lo ≤ b ∧ j ≤ hi ∧ L.Block b j := by
  rw [eval_function] at h
  cases hheader : (header L).eval L ⟨lo, hi⟩ with
  | error e =>
    rw [hheader] at h
    cases h
  | ok found =>
    obtain ⟨⟨n, params, result⟩, b⟩ := found
    rw [hheader] at h
    cases hbody : (body L).eval L ⟨b, hi⟩ with
    | error e =>
      simp only [hbody] at h
      cases h
    | ok found =>
      simp only [hbody, Except.ok.injEq, Prod.mk.injEq] at h
      obtain ⟨rfl, rfl⟩ := h
      -- Beside itself, the function shows what it has read.
      have S : Setting (2 * (hi - lo)) L L 0 lo hi hi hi :=
        .of_guarded (guarded_same (d := 0) hlo hhi hhi fun _ _ _ => rfl) hL hS hL hS
          (Nat.le_refl _) (Nat.le_refl _)
      have hheaderSelf : Abreast L L 0 hi hi True lo (L.Advances lo hi lo) (header L) (header L) :=
        abreast_header S.toTwin (.start S.toTwin)
      obtain ⟨-, -, -, -, hb⟩ := hheaderSelf.of_ok hheader
      have hbodySelf : Abreast L L 0 hi hi True b
          (fun es es' j => L.Advances lo hi b es es' j ∧ L.Block b j) (body L) (body L) :=
        abreast_block S hb
      obtain ⟨-, -, ⟨-, -, hj⟩, hblock⟩ := hbodySelf.of_ok hbody
      exact ⟨n, params, result, b, found.1, rfl, hbody, rfl, hb.lo_le, hj.le, hblock⟩

/-- What stands behind a function makes no difference to it. -/
theorem eval_function_extend (hL : L.Sound) (hS : L.Scans) (hL' : L'.Sound) (hS' : L'.Scans)
    (hlo : lo ≤ hi) (hhi : hi ≤ L.lexemes.size) (hhi' : hi ≤ hi') (hsize' : hi' ≤ L'.lexemes.size)
    (hagree : ∀ i, i < hi → L'.lexemes[i]? = L.lexemes[i]?) {f : Fun} {j : Nat}
    (h : (function L).eval L ⟨lo, hi⟩ = .ok (f, j)) :
    (function L').eval L' ⟨lo, hi'⟩ = .ok (f, j) := by
  obtain ⟨n, params, result, b, es, hheader, hbody, rfl, hlob, hjhi, hblock⟩ :=
    exists_block hL hS hlo hhi h
  obtain ⟨c, l, l', rfl, -, -, hbal, hclose, hl'⟩ := hblock
  have hbc := hbal.le
  -- Up to the brace that closes the body both windows are alike.
  have htwin : Twin L L' 0 lo c hi hi' :=
    { start := by omega
      agree := fun i _ hi => hagree i (by omega)
      within := hhi
      within' := hsize'
      stop := .inr ⟨hjhi, by omega, l', hclose, by rw [← hclose]; exact hagree c hjhi, hl'⟩ }
  have hheaders : Abreast L L' 0 hi hi' True lo (L.Advances lo c lo) (header L) (header L') :=
    abreast_header htwin (.start htwin)
  obtain ⟨_, hheader', rfl, -, hb⟩ := hheaders.of_ok hheader
  have S : Setting (2 * (hi' - b)) L L' 0 (b + 1) c hi hi' :=
    .of_guarded { htwin.mono (by omega) hbc with guard := fun _ => hbal } hL hS hL' hS'
      (by omega) (by omega)
  have hbodies : Abreast L L' 0 hi hi' True b
      (fun es es' j => es = es' ∧ j ≤ c + 1 ∧ j ≤ hi ∧ L.Block b j) (body L) (body L') :=
    abreast_inside htwin hb S (by omega) (by omega)
  obtain ⟨_, hbody', rfl, -⟩ := hbodies.of_ok hbody
  have hspan : L'.spanOf lo (c + 1) = L.spanOf lo (c + 1) :=
    (guarded_same (d := 0) hlo hhi (by omega) fun i _ hi => hagree i hi).spanOf_eq
      (Nat.le_refl lo) hjhi
  rw [eval_function, show (header L').eval L' ⟨lo, hi'⟩ = _ from hheader']
  simp only
  rw [show (body L').eval L' ⟨b + 0, hi'⟩ = _ from hbody']
  simp only [Nat.add_zero, hspan]

/-! ## Programs -/

/-- In windows with the same lexemes the same functions are read, with rounds enough. -/
theorem abreast_functions (S : Setting N L L' d lo hi hi (hi + d)) {rounds rounds' : Nat}
    (hrounds : hi - k < rounds) (hrounds' : hi - k < rounds') (hk : L.Reached lo hi k) :
    Abreast L L' d hi (hi + d) True k (fun fs fs' _ => fs = fs') (functions L rounds)
      (functions L' rounds') := by
  induction rounds generalizing k rounds' with
  | zero => omega
  | succ rounds ih =>
    obtain ⟨rounds', rfl⟩ : ∃ n, rounds' = n + 1 := ⟨rounds' - 1, by omega⟩
    rw [functions, functions]
    refine abreast_bind (abreast_skipNewlines S.toTwin hk) ?_
    rintro _ _ j ⟨hkj, hj⟩
    refine abreast_bind (abreast_peek? S.toTwin hj) ?_
    rintro l? _ j ⟨rfl, rfl, -⟩
    cases l? with
    | none => exact abreast_pure rfl
    | some l =>
      refine abreast_bind (abreast_function (S.mono hj)) ?_
      rintro f _ j₁ ⟨rfl, hlt, hj₁⟩
      have hle := hj₁.le
      have hreached : L.Reached lo hi j₁ := ⟨hj.balanced.trans hj₁.balanced, hle⟩
      refine abreast_bind (ih (by omega) (show hi - j₁ < rounds' by omega) hreached) ?_
      rintro fs _ _ rfl
      exact abreast_pure rfl

/-- More rounds than lexemes make no difference. -/
theorem eval_functions_rounds (hL : L.Sound) (hS : L.Scans) (hk : k ≤ hi)
    (hhi : hi ≤ L.lexemes.size) {rounds rounds' : Nat} (hrounds : hi - k < rounds)
    (hrounds' : hi - k < rounds') :
    (functions L rounds).eval L ⟨k, hi⟩ = (functions L rounds').eval L ⟨k, hi⟩ := by
  have S : Setting (2 * (hi - k)) L L 0 k hi hi (hi + 0) :=
    .of_guarded (guarded_same (d := 0) hk hhi hhi fun _ _ _ => rfl) hL hS hL hS
      (Nat.le_refl _) (Nat.le_refl _)
  rcases (abreast_functions S hrounds hrounds' (.start S.toTwin)).cases with
    ⟨fs, _, j, heval, heval', rfl⟩ | ⟨e, e', heval, heval', he⟩
  · rw [heval]
    exact heval'.symm
  · rw [heval, he trivial]
    exact heval'.symm

/-- How functions are read one by one. -/
theorem eval_functions_succ (L : Layout) (rounds k hi : Nat) :
    (functions L (rounds + 1)).eval L ⟨k, hi⟩ =
      match Window.get? ⟨L.newlineRun (hi - k) k, hi⟩ L.lexemes 0 with
      | none => .ok ([], L.newlineRun (hi - k) k)
      | some _ =>
        match (function L).eval L ⟨L.newlineRun (hi - k) k, hi⟩ with
        | .error e => .error e
        | .ok (f, j) =>
          match (functions L rounds).eval L ⟨j, hi⟩ with
          | .error e => .error e
          | .ok (fs, i) => .ok (f :: fs, i) := by
  have hskip : (skipNewlines L).eval L ⟨k, hi⟩ = .ok ((), L.newlineRun (hi - k) k) := rfl
  rw [functions, eval_bind, hskip]
  simp only
  rw [eval_bind, show (peek? L).eval L ⟨L.newlineRun (hi - k) k, hi⟩ =
    .ok (Window.get? ⟨L.newlineRun (hi - k) k, hi⟩ L.lexemes 0, L.newlineRun (hi - k) k) from rfl]
  simp only
  cases Window.get? ⟨L.newlineRun (hi - k) k, hi⟩ L.lexemes 0 with
  | none => rfl
  | some l =>
    simp only
    rw [eval_bind]
    cases (function L).eval L ⟨L.newlineRun (hi - k) k, hi⟩ with
    | error e => rfl
    | ok found =>
      simp only
      rw [eval_bind]
      cases (functions L rounds).eval L ⟨found.2, hi⟩ <;> rfl

section

variable (hL : L.Sound) (hS : L.Scans) (hL' : L'.Sound) (hS' : L'.Scans)
  (hhi : hi ≤ L.lexemes.size) (hhi' : hi ≤ hi') (hsize' : hi' ≤ L'.lexemes.size)
  (hagree : ∀ i, i < hi → L'.lexemes[i]? = L.lexemes[i]?)

include hhi hhi' hagree

/-- Line ends at the end of a window go on behind it. -/
theorem newlineRun_extend (hk : k ≤ hi) :
    L'.newlineRun (hi' - k) k =
      if L.newlineRun (hi - k) k = hi then L'.newlineRun (hi' - hi) hi
      else L.newlineRun (hi - k) k := by
  induction hleft : hi - k generalizing k with
  | zero =>
    obtain rfl : k = hi := by omega
    rw [newlineRun, if_pos rfl]
  | succ left ih =>
    have hlt : k < L.lexemes.size := by omega
    have hleft' : hi' - k = hi' - (k + 1) + 1 := by omega
    rw [hleft', newlineRun, newlineRun, hagree k (by omega), Array.getElem?_eq_getElem hlt]
    simp only
    by_cases hnewline : L.lexemes[k].token = .newline
    · rw [if_pos hnewline, if_pos hnewline]
      exact ih (by omega) (by omega)
    · rw [if_neg hnewline, if_neg hnewline, if_neg (by omega)]

include hL hS hL' hS' hsize'

/-- Behind functions that were read up to the end of a window, reading goes on in a longer one as
from that end. -/
theorem eval_functions_extend {rounds rounds' j : Nat} {fs : List Fun} (hk : k ≤ hi)
    (hrounds : hi' - k < rounds') (h : (functions L rounds).eval L ⟨k, hi⟩ = .ok (fs, j)) :
    (functions L' rounds').eval L' ⟨k, hi'⟩ =
      match (functions L' (hi' - hi + 1)).eval L' ⟨hi, hi'⟩ with
      | .error e => .error e
      | .ok (gs, i) => .ok (fs ++ gs, i) := by
  induction rounds generalizing k rounds' fs with
  | zero => cases h
  | succ rounds ih =>
    obtain ⟨rounds', rfl⟩ : ∃ n, rounds' = n + 1 := ⟨rounds' - 1, by omega⟩
    have hrun := newlineRun_extend hhi hhi' hagree hk
    obtain ⟨hle, hlast, -⟩ := reads_newlineRun (L := L) (show k + (hi - k) ≤ hi by omega)
    by_cases hend : L.newlineRun (hi - k) k = hi
    · -- Only line ends were left, so reading starts behind them, as from the end of the window.
      rw [eval_functions_succ, hend, Window.get?_zero_of_le (Nat.le_refl hi)] at h
      obtain ⟨rfl, -⟩ := Prod.mk.inj (Except.ok.inj h)
      have hsame : (functions L' (rounds' + 1)).eval L' ⟨k, hi'⟩ =
          (functions L' (rounds' + 1)).eval L' ⟨hi, hi'⟩ := by
        rw [eval_functions_succ, eval_functions_succ, hrun, if_pos hend]
      rw [hsame, eval_functions_rounds hL' hS' hhi' hsize' (show hi' - hi < rounds' + 1 by omega)
        (Nat.lt_succ_self (hi' - hi))]
      cases (functions L' (hi' - hi + 1)).eval L' ⟨hi, hi'⟩ <;> rfl
    · -- The next function is read in both windows, and then the rest.
      have hlt : L.newlineRun (hi - k) k < L.lexemes.size := by omega
      rw [if_neg hend] at hrun
      rw [eval_functions_succ, Window.get?_zero_of_lt (by omega),
        Array.getElem?_eq_getElem hlt] at h
      rw [eval_functions_succ, hrun, Window.get?_zero_of_lt (by omega), hagree _ (by omega),
        Array.getElem?_eq_getElem hlt]
      simp only at h ⊢
      cases hfunction : (function L).eval L ⟨L.newlineRun (hi - k) k, hi⟩ with
      | error e =>
        rw [hfunction] at h
        cases h
      | ok found =>
        obtain ⟨f, j₁⟩ := found
        rw [hfunction] at h
        rw [eval_function_extend hL hS hL' hS' hlast hhi hhi' hsize' hagree hfunction]
        obtain ⟨-, -, -, b, -, -, -, -, hb, hj₁, hblock⟩ := exists_block hL hS hlast hhi hfunction
        have hlt₁ := hblock.balanced.1
        simp only at h ⊢
        cases hrest : (functions L rounds).eval L ⟨j₁, hi⟩ with
        | error e =>
          rw [hrest] at h
          cases h
        | ok found =>
          rw [hrest] at h
          obtain ⟨rfl, rfl⟩ := Prod.mk.inj (Except.ok.inj h)
          rw [ih hj₁ (by omega) hrest]
          cases (functions L' (hi' - hi + 1)).eval L' ⟨hi, hi'⟩ <;> rfl

end

end Grammar

/-! ## Whole sources -/

namespace Program

/-- Reading a program is reading its functions. -/
theorem splitLexemes_eq_functions (lexemes : List Lexeme) :
    splitLexemes lexemes =
      match (Grammar.functions (Layout.indexed lexemes) (lexemes.length + 1)).eval
          (Layout.indexed lexemes) ⟨0, lexemes.length⟩ with
      | .error e => .error e
      | .ok (fs, j) => .ok (⟨(Layout.indexed lexemes).spanOf 0 j, fs⟩, lexemes.drop j) := by
  rw [splitLexemes_eq_eval, wholeWindow, Grammar.program, Rule.eval_bind]
  have hhere : Rule.here.eval (Layout.indexed lexemes) ⟨0, lexemes.length⟩ = .ok (0, 0) := rfl
  have hsized : (Rule.sized (Grammar.functions (Layout.indexed lexemes))).eval
      (Layout.indexed lexemes) ⟨0, lexemes.length⟩ =
    (Grammar.functions (Layout.indexed lexemes) (lexemes.length + 1)).eval
      (Layout.indexed lexemes) ⟨0, lexemes.length⟩ := rfl
  rw [hhere]
  simp only
  rw [Rule.eval_bind, hsized]
  cases (Grammar.functions (Layout.indexed lexemes) (lexemes.length + 1)).eval
    (Layout.indexed lexemes) ⟨0, lexemes.length⟩ <;> rfl

section

variable (before after : List Lexeme)

/-- The first lexemes of a longer list. -/
theorem getElem?_indexed_left {i : Nat} (hi : i < before.length) :
    (Layout.indexed (before ++ after)).lexemes[i]? = (Layout.indexed before).lexemes[i]? := by
  simp [Layout.indexed, List.getElem?_append_left hi]

/-- The last lexemes of a longer list. -/
theorem getElem?_indexed_right (i : Nat) :
    (Layout.indexed (before ++ after)).lexemes[i + before.length]? =
      (Layout.indexed after).lexemes[i]? := by
  simp [Layout.indexed, List.getElem?_append_right]

/-- Behind the first lexemes, functions are read as from the others alone. -/
theorem abreast_functions_after :
    Rule.Abreast (Layout.indexed after) (Layout.indexed (before ++ after)) before.length
      after.length (after.length + before.length) True 0 (fun fs fs' _ => fs = fs')
      (Grammar.functions (Layout.indexed after) (after.length + 1))
      (Grammar.functions (Layout.indexed (before ++ after)) (after.length + 1)) := by
  have hguarded : Guarded (Layout.indexed after) (Layout.indexed (before ++ after)) before.length
      0 after.length after.length (after.length + before.length) := by
    apply Grammar.guarded_same (Nat.zero_le _)
    · simp [Layout.indexed]
    · simp [Layout.indexed, Nat.add_comm]
    · exact fun i _ _ => getElem?_indexed_right before after i
  have S : Grammar.Setting (2 * after.length) (Layout.indexed after)
      (Layout.indexed (before ++ after)) before.length 0 after.length after.length
      (after.length + before.length) :=
    .of_guarded hguarded (sound_indexed _) (scans_indexed _) (sound_indexed _) (scans_indexed _)
      (by omega) (by omega)
  exact Grammar.abreast_functions S (by omega) (by omega) (.start S.toTwin)

end

/-- The lexemes of a program followed by others are read as its functions followed by theirs; where
the others are no program, reading fails as it fails for them alone. -/
theorem splitLexemes_append {before after rest : List Lexeme} {p : Program}
    (h : splitLexemes before = .ok (p, rest)) :
    (∀ q rest', splitLexemes after = .ok (q, rest') →
      ∃ r, splitLexemes (before ++ after) = .ok (r, rest') ∧
        r.functions = p.functions ++ q.functions) ∧
    ∀ e, splitLexemes after = .error e → splitLexemes (before ++ after) = .error e := by
  rw [splitLexemes_eq_functions] at h
  cases hbefore : (Grammar.functions (Layout.indexed before) (before.length + 1)).eval
      (Layout.indexed before) ⟨0, before.length⟩ with
  | error e =>
    rw [hbefore] at h
    cases h
  | ok found =>
    obtain ⟨fs, j⟩ := found
    rw [hbefore] at h
    obtain ⟨rfl, -⟩ := Prod.mk.inj (Except.ok.inj h)
    have hlen : (before ++ after).length = after.length + before.length := by
      rw [List.length_append, Nat.add_comm]
    have hsize : ∀ lexemes : List Lexeme, (Layout.indexed lexemes).lexemes.size = lexemes.length :=
      fun lexemes => by simp [Layout.indexed]
    -- Reading goes on behind the first lexemes, and there as from the others alone.
    have hwhole := Grammar.eval_functions_extend (sound_indexed before) (scans_indexed before)
      (sound_indexed (before ++ after)) (scans_indexed (before ++ after))
      (Nat.le_of_eq (hsize before).symm) (show before.length ≤ after.length + before.length by omega)
      (by rw [hsize, hlen]) (fun i hi => getElem?_indexed_left before after hi) (Nat.zero_le _)
      (Nat.lt_succ_self _) hbefore
    rw [Nat.sub_zero, Nat.add_sub_cancel] at hwhole
    rw [splitLexemes_eq_functions after, splitLexemes_eq_functions (before ++ after), hlen, hwhole]
    rcases (abreast_functions_after before after).cases with
      ⟨gs, _, i, hafter, hafter', rfl⟩ | ⟨e, _, hafter, hafter', he⟩
    · rw [Nat.zero_add] at hafter'
      rw [hafter, hafter']
      constructor
      · intro q rest' hq
        obtain ⟨rfl, rfl⟩ := Prod.mk.inj (Except.ok.inj hq)
        have hrest : (before ++ after).drop (i + before.length) = after.drop i := by
          rw [Nat.add_comm, List.drop_length_add_append]
        simp only [hrest]
        exact ⟨_, rfl, rfl⟩
      · intro e he
        cases he
    · rw [Nat.zero_add] at hafter'
      rw [hafter, hafter']
      obtain rfl := he trivial
      constructor
      · intro q rest' hq
        cases hq
      · intro e' he'
        exact he'

/-- The lexemes of a program with a statement of every form, as if read from nowhere. -/
def everyFormLexemes : List Lexeme := everyForm.tokens.map fun t => ⟨t, .zero, ""⟩

/-- An operator where a function should start. -/
def strayPlus : Lexeme := ⟨.symbol .plus, ⟨0, 1⟩, "+"⟩

theorem splitLexemes_append_everyForm :
    ∃ p, splitLexemes everyFormLexemes = .ok (p, []) ∧
      (∃ r, splitLexemes (everyFormLexemes ++ everyFormLexemes) = .ok (r, []) ∧
        r.functions = p.functions ++ p.functions) ∧
      splitLexemes (everyFormLexemes ++ [strayPlus]) =
        .error (.unexpected strayPlus (.keyword .funKw)) := by
  have htokens : everyFormLexemes.map Lexeme.token = everyForm.tokens := by
    rw [everyFormLexemes, List.map_map]
    exact List.map_id _
  obtain ⟨p, hp, -⟩ := exists_ofLexemes everyForm
    (fun f hf => (Expr.plainStatements_iff f.body).1 (everyForm_plain f hf)) htokens
  have hsplit : splitLexemes everyFormLexemes = .ok (p, []) := by
    rw [ofLexemes] at hp
    cases hfound : splitLexemes everyFormLexemes with
    | error e =>
      rw [hfound] at hp
      cases hp
    | ok found =>
      obtain ⟨q, rest⟩ := found
      rw [hfound] at hp
      cases rest with
      | nil => rw [show q = p from Except.ok.inj hp]
      | cons l rest => cases hp
  have hstray : splitLexemes [strayPlus] = .error (.unexpected strayPlus (.keyword .funKw)) := by
    rw [splitLexemes_eq_functions]
    rfl
  exact ⟨p, hsplit, (splitLexemes_append hsplit).1 p [] hsplit,
    (splitLexemes_append hsplit).2 _ hstray⟩

end Program

end Scriptlet
