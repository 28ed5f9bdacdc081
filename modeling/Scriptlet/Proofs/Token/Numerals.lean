import Mathlib.Data.List.Basic
import Mathlib.Data.Nat.Digits.Defs
import Scriptlet.Proofs.Token.Reading

/-!
# Which numbers can be written

A numeral is a run of decimal digits, the mark `0x` and hexadecimal digits, or the mark `0b` and
binary digits.  Where a digit stands, a number is read exactly if a numeral stands there that is not
too large and ends before a character other than a letter or a digit: `Scan.nextAt_int_iff`.

Two things set the reader apart from this grammar.  Behind the mark of a base it passes over a
second one, and it refuses decimal digits when there are more than `Literal.maxDecimalDigits` of
them.
-/

namespace Scriptlet.Literal

/-! ## Numerals -/

/-- The value of a digit, a letter in either case: its place among the sixteen digits. -/
def digitValue (c : Char) : Nat := "0123456789abcdef".toList.idxOf c.toLower

/-- Digits of a base, at least one and the most significant first, and the number they denote. -/
structure Digits (base : Nat) (cs : List Char) (n : Nat) : Prop where
  ne_nil : cs ≠ []
  lt : ∀ c ∈ cs, digitValue c < base
  value : n = Nat.ofDigits base (cs.map digitValue).reverse

/-- A numeral and the number it denotes. -/
inductive Numeral : List Char → Nat → Prop
  | decimal {cs : List Char} {n : Nat} : Digits 10 cs n → Numeral cs n
  | hexadecimal {cs : List Char} {n : Nat} : Digits 16 cs n → Numeral ('0' :: 'x' :: cs) n
  | binary {cs : List Char} {n : Nat} : Digits 2 cs n → Numeral ('0' :: 'b' :: cs) n

/-- More decimal digits than a number may have. -/
def Overlong (cs : List Char) : Prop :=
  (∀ c ∈ cs, digitValue c < 10) ∧ maxDecimalDigits < cs.length

/-- Digits behind two marks of their base. -/
inductive MarkedTwice : List Char → Nat → Prop
  | hexadecimal {cs : List Char} {n : Nat} : Digits 16 cs n →
      MarkedTwice ('0' :: 'x' :: '0' :: 'x' :: cs) n
  | binary {mark : Char} {cs : List Char} {n : Nat} : mark = 'b' ∨ mark = 'B' → Digits 2 cs n →
      MarkedTwice ('0' :: 'b' :: '0' :: mark :: cs) n

variable {base n : Nat} {c : Char} {cs : List Char}

/-! ## Digits -/

/-- What holds of each character of ASCII, one by one, holds of a character of ASCII. -/
theorem of_ascii {P : Char → Prop} (h : ∀ k : Fin 128, P (Char.ofNat k)) (hc : c.toNat < 128) :
    P c := by
  have hk := h ⟨c.toNat, hc⟩
  rwa [Char.ofNat_toNat] at hk

theorem digitValue_of_not_ascii (hc : ¬ c.toNat < 128) : digitValue c = 16 := by
  have hlower : c.toLower = c := by
    refine dif_neg ?_
    rintro ⟨-, hle⟩
    have : c.toNat ≤ 90 := hle
    omega
  have hmem : c ∉ "0123456789abcdef".toList := by
    have hascii : ∀ d ∈ "0123456789abcdef".toList, d.toNat < 128 := by simp
    exact fun h => hc (hascii c h)
  rw [digitValue, hlower, List.idxOf_of_notMem hmem]
  rfl

/-- The digits are three ranges of characters. -/
theorem digitValue_eq (c : Char) : digitValue c =
    if '0' ≤ c ∧ c ≤ '9' then c.toNat - '0'.toNat
    else if 'a' ≤ c ∧ c ≤ 'f' then c.toNat - 'a'.toNat + 10
    else if 'A' ≤ c ∧ c ≤ 'F' then c.toNat - 'A'.toNat + 10
    else 16 := by
  by_cases hc : c.toNat < 128
  · revert hc
    apply of_ascii
    decide +kernel
  · have hle : ∀ lo hi : Char, hi.toNat < 128 → ¬ (lo ≤ c ∧ c ≤ hi) := by
      rintro lo hi hhi ⟨-, hle⟩
      have : c.toNat ≤ hi.toNat := hle
      omega
    rw [digitValue_of_not_ascii hc, if_neg (hle '0' '9' (by decide)),
      if_neg (hle 'a' 'f' (by decide)), if_neg (hle 'A' 'F' (by decide))]

theorem digit?_eq (hbase : base ≤ 16) (c : Char) :
    digit? base c = if digitValue c < base then some (digitValue c) else none := by
  rw [digitValue_eq, digit?]
  by_cases hdigit : '0' ≤ c ∧ c ≤ '9'
  · rw [if_pos hdigit, if_pos hdigit]
  by_cases hlower : 'a' ≤ c ∧ c ≤ 'f'
  · rw [if_neg hdigit, if_neg hdigit, if_pos hlower, if_pos hlower]
  by_cases hupper : 'A' ≤ c ∧ c ≤ 'F'
  · simp only [hdigit, hlower, hupper, and_self, if_true, if_false]
  · simp only [hdigit, hlower, hupper, if_false, Nat.lt_irrefl]
    rw [if_neg (by omega)]

/-- A run of digits is read from its most significant one on. -/
theorem foldl_digit? (hbase : base ≤ 16) (acc : Nat) :
    cs.foldl (fun acc c => acc.bind fun n => (digit? base c).map (n * base + ·)) (some acc) =
        some n ↔
      (∀ c ∈ cs, digitValue c < base) ∧
        n = (cs.map digitValue).foldl (fun n d => d + base * n) acc := by
  induction cs generalizing acc with
  | nil => simp [eq_comm]
  | cons c cs ih =>
    rw [List.foldl_cons, Option.bind_some, digit?_eq hbase, List.forall_mem_cons, List.map_cons,
      List.foldl_cons]
    by_cases hc : digitValue c < base
    · rw [if_pos hc, Option.map_some, ih, Nat.add_comm, Nat.mul_comm acc]
      simp only [hc, true_and]
    · -- What is no digit spoils the whole run.
      have hnone : ∀ ds : List Char, ds.foldl
          (fun acc c => acc.bind fun n => (digit? base c).map (n * base + ·)) none = none := by
        intro ds
        induction ds with
        | nil => rfl
        | cons d ds ih => exact ih
      rw [if_neg hc, Option.map_none, hnone]
      simp [hc]

theorem number?_iff (hbase : base ≤ 16) : number? base cs = some n ↔ Digits base cs n := by
  have hvalue : Nat.ofDigits base (cs.map digitValue).reverse =
      (cs.map digitValue).foldl (fun n d => d + base * n) 0 := by
    rw [Nat.ofDigits_eq_foldr, List.foldr_reverse]
    rfl
  rw [number?]
  by_cases hcs : cs = []
  · subst hcs
    exact ⟨fun h => absurd h (by simp), fun h => absurd rfl h.ne_nil⟩
  · rw [if_neg (by simpa using hcs), foldl_digit? hbase, ← hvalue]
    exact ⟨fun h => ⟨hcs, h.1, h.2⟩, fun h => ⟨h.lt, h.value⟩⟩

/-! ## Reading numerals -/

theorem decimal?_iff : decimal? cs = some n ↔ Digits 10 cs n ∧ ¬ Overlong cs := by
  rw [decimal?]
  by_cases hlen : cs.length ≤ maxDecimalDigits
  · rw [if_pos hlen, number?_iff (by decide)]
    exact ⟨fun h => ⟨h, fun hlong => absurd hlong.2 (by omega)⟩, And.left⟩
  · rw [if_neg hlen]
    exact ⟨fun h => absurd h (by simp), fun h => absurd ⟨h.1.lt, by omega⟩ h.2⟩

theorem hexadecimal?_iff : hexadecimal? cs = some n ↔
    Digits 16 cs n ∨ ∃ ds, cs = '0' :: 'x' :: ds ∧ Digits 16 ds n := by
  rw [hexadecimal?.eq_def]
  split
  · -- The second mark is no digit, so what holds it is no number by itself.
    rename_i ds
    have hmark : ¬ Digits 16 ('0' :: 'x' :: ds) n :=
      fun h => absurd (h.lt 'x' (by simp)) (by decide)
    rw [number?_iff (by decide)]
    simp [hmark]
  · rename_i hmark
    rw [number?_iff (by decide)]
    exact ⟨.inl, fun h => h.elim id fun ⟨ds, hds, _⟩ => absurd hds (hmark ds)⟩

theorem binary?_iff : binary? cs = some n ↔ Digits 2 cs n ∨
    ∃ mark ds, (mark = 'b' ∨ mark = 'B') ∧ cs = '0' :: mark :: ds ∧ Digits 2 ds n := by
  have hmark : ∀ mark ds, mark = 'b' ∨ mark = 'B' → ¬ Digits 2 ('0' :: mark :: ds) n := by
    rintro mark ds (rfl | rfl) h
    · exact absurd (h.lt 'b' (by simp)) (by decide)
    · exact absurd (h.lt 'B' (by simp)) (by decide)
  rw [binary?.eq_def]
  split
  · rename_i ds
    rw [number?_iff (by decide)]
    simp [hmark 'b' ds (.inl rfl)]
  · rename_i ds
    rw [number?_iff (by decide)]
    simp [hmark 'B' ds (.inr rfl)]
  · rename_i hlower hupper
    rw [number?_iff (by decide)]
    refine ⟨.inl, ?_⟩
    rintro (h | ⟨mark, ds, rfl | rfl, hcs, _⟩)
    · exact h
    · exact absurd hcs (hlower ds)
    · exact absurd hcs (hupper ds)

/-- The runs that are read as numbers. -/
theorem int?_iff : int? cs = some n ↔
    (Numeral cs n ∧ ¬ Overlong cs ∨ MarkedTwice cs n) ∧ n ≤ maxInt := by
  -- a mark is a letter, so digits with a mark are not decimal
  have hletter : ∀ d, 10 ≤ digitValue d → ∀ ds, ¬ ∀ c ∈ '0' :: d :: ds, digitValue c < 10 := by
    intro d hd ds h
    have := h d (by simp)
    omega
  have hlimit : ∀ n? : Option Nat, n?.filter (· ≤ maxInt) = some n ↔ n? = some n ∧ n ≤ maxInt := by
    intro n?
    rw [Option.filter_eq_some_iff, decide_eq_true_eq]
  unfold int?
  rw [hlimit]
  refine and_congr_left fun _ => ?_
  split
  · -- Behind the mark of base sixteen.
    rename_i ds
    rw [hexadecimal?_iff]
    constructor
    · rintro (h | ⟨ds, rfl, h⟩)
      · exact .inl ⟨.hexadecimal h, fun hlong => hletter 'x' (by decide) ds hlong.1⟩
      · exact .inr (.hexadecimal h)
    · rintro (⟨h, -⟩ | h)
      · cases h with
        | decimal h => exact absurd h.lt (hletter 'x' (by decide) ds)
        | hexadecimal h => exact .inl h
      · cases h with
        | hexadecimal h => exact .inr ⟨_, rfl, h⟩
  · -- Behind the mark of base two.
    rename_i ds
    rw [binary?_iff]
    constructor
    · rintro (h | ⟨mark, ds, hmark, rfl, h⟩)
      · exact .inl ⟨.binary h, fun hlong => hletter 'b' (by decide) ds hlong.1⟩
      · exact .inr (.binary hmark h)
    · rintro (⟨h, -⟩ | h)
      · cases h with
        | decimal h => exact absurd h.lt (hletter 'b' (by decide) ds)
        | binary h => exact .inl h
      · cases h with
        | binary hmark h => exact .inr ⟨_, _, hmark, rfl, h⟩
  · -- Without a mark the digits can only be decimal.
    rename_i hx hb
    rw [decimal?_iff]
    constructor
    · exact fun ⟨h, hlong⟩ => .inl ⟨.decimal h, hlong⟩
    · rintro (⟨h, hlong⟩ | h)
      · cases h with
        | decimal h => exact ⟨h, hlong⟩
        | hexadecimal => exact absurd rfl (hx _)
        | binary => exact absurd rfl (hb _)
      · cases h with
        | hexadecimal => exact absurd rfl (hx _)
        | binary => exact absurd rfl (hb _)

end Scriptlet.Literal

namespace Scriptlet.Scan

open Literal

variable {base n k : Nat} {c : Char} {cs : List Char}

/-- A run goes on as long as the characters allow it, and no longer. -/
theorem run_eq_iff {p : Char → Bool} : run p cs = k ↔
    k ≤ cs.length ∧ (∀ c ∈ cs.take k, p c = true) ∧ ∀ d, cs[k]? = some d → p d = false := by
  rw [run]
  induction cs generalizing k with
  | nil =>
    rw [List.takeWhile_nil, List.length_nil]
    constructor
    · rintro rfl
      simp
    · exact fun h => (Nat.le_zero.1 h.1).symm
  | cons c cs ih =>
    by_cases hc : p c = true
    · rw [List.takeWhile_cons_of_pos hc, List.length_cons]
      cases k with
      | zero => simp [hc]
      | succ k => simp [ih, hc]
    · rw [List.takeWhile_cons_of_neg hc, List.length_nil]
      cases k with
      | zero => simp [hc]
      | succ k => simp [hc]

/-! ## Where a number ends -/

theorem isDigitOrMark_iff : isDigitOrMark c = true ↔ digitValue c < 16 ∨ c = 'x' := by
  rw [isDigitOrMark, digit?_eq (Nat.le_refl 16), Bool.or_eq_true, decide_eq_true_eq]
  split <;> simp [*]

theorem isAlphanum_of_isDigitOrMark (hc : isDigitOrMark c = true) : c.isAlphanum = true := by
  rcases isDigitOrMark_iff.1 hc with hc | rfl
  · have hascii : c.toNat < 128 := by
      by_contra hascii
      rw [digitValue_of_not_ascii hascii] at hc
      omega
    exact of_ascii (P := fun c => digitValue c < 16 → c.isAlphanum = true) (by decide +kernel)
      hascii hc
  · decide

/-- A number is a run of its own. -/
theorem isDigitOrMark_of_int? (h : Literal.int? cs = some n) :
    ∀ c ∈ cs, isDigitOrMark c = true := by
  have hdigits : ∀ {base ds}, base ≤ 16 → Digits base ds n → ∀ c ∈ ds, isDigitOrMark c = true := by
    intro base ds hbase h c hc
    have hlt := h.lt c hc
    exact isDigitOrMark_iff.2 (.inl (by omega))
  have hmarked : ∀ {mark ds}, isDigitOrMark mark = true → (∀ c ∈ ds, isDigitOrMark c = true) →
      ∀ c ∈ '0' :: mark :: ds, isDigitOrMark c = true := by
    intro mark ds hmark hds
    rw [List.forall_mem_cons, List.forall_mem_cons]
    exact ⟨by decide, hmark, hds⟩
  rcases (int?_iff.1 h).1 with ⟨h, -⟩ | h
  · cases h with
    | decimal h => exact hdigits (by decide) h
    | hexadecimal h => exact hmarked (by decide) (hdigits (by decide) h)
    | binary h => exact hmarked (by decide) (hdigits (by decide) h)
  · cases h with
    | hexadecimal h => exact hmarked (by decide) (hmarked (by decide) (hdigits (by decide) h))
    | binary hmark h =>
      refine hmarked (by decide) (hmarked ?_ (hdigits (by decide) h))
      rcases hmark with rfl | rfl <;> decide

/-- Where a digit stands, the run of digits and marks is a number to which nothing is glued, or it
cannot be read. -/
theorem next_of_digit (hc : c.isDigit = true) :
    (∀ n k, next (c :: cs) = (.token (.int n), k) ↔
      run isDigitOrMark (c :: cs) = k ∧ run Char.isAlphanum ((c :: cs).drop k) = 0 ∧
        Literal.int? ((c :: cs).take k) = some n) ∧
    ((∀ n, (next (c :: cs)).1 ≠ .token (.int n)) → (next (c :: cs)).1 = .token .unexpected) := by
  have hlength : run isDigitOrMark (c :: cs) ≠ 0 := by
    simp [run, isDigitOrMark_of_isDigit hc]
  have hnext : ∀ found, int? (c :: cs) = some found → next (c :: cs) = found := by
    intro found hint
    rw [next, recognise?_of_digit hc hint, Option.getD_some]
  simp only [int?, if_neg hlength] at hnext
  split at hnext
  · -- Nothing is glued to the run, and it is a number.
    rename_i v hglued hv
    rw [hnext _ rfl]
    refine ⟨fun n k => ⟨?_, ?_⟩, fun h => absurd rfl (h v)⟩
    · intro h
      cases h
      exact ⟨rfl, hglued, hv⟩
    · rintro ⟨rfl, -, hn⟩
      obtain rfl := Option.some.inj (hv.symm.trans hn)
      rfl
  · rename_i hno
    rw [hnext _ rfl]
    refine ⟨fun n k => ⟨fun h => absurd h (by simp), ?_⟩, fun _ => rfl⟩
    rintro ⟨rfl, hglued, hn⟩
    exact absurd hn (hno n hglued)

theorem next_int_iff (hc : c.isDigit = true) : next (c :: cs) = (.token (.int n), k) ↔
    k ≤ (c :: cs).length ∧
      (Numeral ((c :: cs).take k) n ∧ ¬ Overlong ((c :: cs).take k) ∨
        MarkedTwice ((c :: cs).take k) n) ∧
      n ≤ maxInt ∧ ∀ d, (c :: cs)[k]? = some d → d.isAlphanum = false := by
  have hglued : run Char.isAlphanum ((c :: cs).drop k) = 0 ↔
      ∀ d, (c :: cs)[k]? = some d → d.isAlphanum = false := by
    rw [run_eq_iff, List.getElem?_drop, Nat.add_zero]
    simp
  rw [(next_of_digit hc).1, hglued, ← and_assoc (a := _ ∨ _), ← int?_iff]
  constructor
  · rintro ⟨hrun, hbehind, hn⟩
    exact ⟨(run_eq_iff.1 hrun).1, hn, hbehind⟩
  · rintro ⟨hk, hn, hbehind⟩
    refine ⟨run_eq_iff.2 ⟨hk, isDigitOrMark_of_int? hn, ?_⟩, hbehind, hn⟩
    -- What is neither a letter nor a digit does not go on with the run.
    intro d hd
    by_contra hmark
    have halnum := isAlphanum_of_isDigitOrMark (Bool.eq_true_of_not_eq_false hmark)
    rw [hbehind d hd] at halnum
    cases halnum

/-- Where a digit stands, a number is read exactly if a numeral stands there that denotes it, is not
too large and ends before a character that is no letter and no digit; otherwise nothing can be read
there.  The numeral is not overlong, and the mark of its base may stand twice. -/
theorem nextAt_int_iff (source : List Char) (pos : Nat) {c : Char} (hc : source[pos]? = some c)
    (hdigit : c.isDigit = true) :
    (∀ n e, nextAt source pos = (.token (.int n), e) ↔
      e ≤ source.length ∧
        (Numeral (source.extract pos e) n ∧ ¬ Overlong (source.extract pos e) ∨
          MarkedTwice (source.extract pos e) n) ∧
        n ≤ maxInt ∧ ∀ d, source[e]? = some d → d.isAlphanum = false) ∧
    ((∀ n, (nextAt source pos).1 ≠ .token (.int n)) →
      (nextAt source pos).1 = .token .unexpected) := by
  obtain ⟨hlt, rfl⟩ := List.getElem?_eq_some_iff.1 hc
  have hdrop := List.drop_eq_getElem_cons hlt
  refine ⟨fun n e => ?_, ?_⟩
  · by_cases hpos : pos ≤ e
    · obtain ⟨k, rfl⟩ := Nat.exists_eq_add_of_le hpos
      have hnext : nextAt source pos = (.token (.int n), pos + k) ↔
          next (source.drop pos) = (.token (.int n), k) := by
        rw [nextAt, Prod.ext_iff, Prod.ext_iff]
        simp
      rw [hnext, hdrop, next_int_iff hdigit, ← hdrop, List.extract_eq_take_drop,
        Nat.add_sub_cancel_left, List.getElem?_drop, List.length_drop]
      refine and_congr_left fun _ => ?_
      omega
    · -- Nothing stands before the position.
      have hempty : source.extract pos e = [] := by
        rw [List.extract_eq_take_drop, Nat.sub_eq_zero_of_le (by omega), List.take_zero]
      rw [hempty]
      constructor
      · intro h
        have hend : pos + _ = e := congrArg Prod.snd h
        omega
      · rintro ⟨-, ⟨h, -⟩ | h, -⟩
        · cases h with
          | decimal h => exact absurd rfl h.ne_nil
        · cases h
  · rw [nextAt, hdrop]
    exact (next_of_digit hdigit).2

/-- `x-0x1F*2` with its number in the middle. -/
theorem nextAt_int_iff_middle : "x-0x1F*2".toList[2]? = some '0' ∧ '0'.isDigit = true ∧
    nextAt "x-0x1F*2".toList 2 = (.token (.int 31), 6) := by
  have hnumeral : Numeral ['0', 'x', '1', 'F'] 31 :=
    .hexadecimal ⟨nofun, List.forall_iff_forall_mem.1 (by decide), by decide⟩
  have hshort : ¬ Overlong ['0', 'x', '1', 'F'] := fun h => absurd h.2 (by decide)
  have hstar : ∀ d, "x-0x1F*2".toList[6]? = some d → d.isAlphanum = false := by
    rintro d ⟨⟩
    rfl
  exact ⟨rfl, rfl, ((nextAt_int_iff "x-0x1F*2".toList 2 rfl rfl).1 31 6).2
    ⟨by decide, .inl ⟨hnumeral, hshort⟩, by decide, hstar⟩⟩

/-- Zeros alone are a numeral. -/
theorem numeral_zeros (k : Nat) : Numeral (List.replicate (k + 1) '0') 0 := by
  refine .decimal ⟨nofun, ?_, ?_⟩
  · intro c hc
    rw [List.eq_of_mem_replicate hc]
    decide
  · have hzero : digitValue '0' = 0 := by decide
    rw [List.map_replicate, hzero, List.reverse_replicate, Nat.ofDigits_replicate_zero]

/-- Too many of them are not read as a number. -/
theorem nextAt_zeros {k : Nat} (hk : maxDecimalDigits ≤ k) :
    (nextAt (List.replicate (k + 1) '0') 0).1 = .token .unexpected := by
  show (next (List.replicate (k + 1) '0')).1 = .token .unexpected
  rw [List.replicate_succ]
  refine (next_of_digit (by decide)).2 fun n hn => ?_
  obtain ⟨e, he⟩ : ∃ e, next ('0' :: List.replicate k '0') = (.token (.int n), e) :=
    ⟨_, Prod.ext hn rfl⟩
  obtain ⟨hle, h, -, hbehind⟩ := (next_int_iff (by decide)).1 he
  rw [← List.replicate_succ] at hle h hbehind
  rw [List.length_replicate] at hle
  -- The number would have to take all of the zeros.
  obtain rfl : e = k + 1 := by
    by_contra hne
    have hzero : (List.replicate (k + 1) '0')[e]? = some '0' := by
      rw [List.getElem?_replicate, if_pos (by omega)]
    exact absurd (hbehind '0' hzero) (by decide)
  rw [List.take_of_length_le (by simp)] at h
  rcases h with ⟨-, hlong⟩ | h
  · refine hlong ⟨?_, by rw [List.length_replicate]; omega⟩
    intro c hc
    rw [List.eq_of_mem_replicate hc]
    decide
  · generalize hzeros : List.replicate (k + 1) '0' = cs at h
    have hmem : ∀ c ∈ cs, c = '0' := fun c hc => List.eq_of_mem_replicate (hzeros ▸ hc)
    cases h with
    | hexadecimal => exact absurd (hmem 'x' (by simp)) (by decide)
    | binary => exact absurd (hmem 'b' (by simp)) (by decide)

/-- Two marks are read though they make no numeral, and too many zeros are not. -/
theorem marksAndZeros_astray :
    (nextAt "0x0x1".toList 0 = (.token (.int 1), 5) ∧ ¬ ∃ n, Numeral "0x0x1".toList n) ∧
    (nextAt "0b0B1".toList 0 = (.token (.int 1), 5) ∧ ¬ ∃ n, Numeral "0b0B1".toList n) ∧
    (Numeral (List.replicate 4301 '0') 0 ∧
      (nextAt (List.replicate 4301 '0') 0).1 = .token .unexpected) := by
  refine ⟨⟨rfl, ?_⟩, ⟨rfl, ?_⟩, numeral_zeros 4300, ?_⟩
  · rintro ⟨n, h⟩
    cases h with
    | decimal h => exact absurd (h.lt 'x' (by decide)) (by decide)
    | hexadecimal h => exact absurd (h.lt 'x' (by decide)) (by decide)
  · rintro ⟨n, h⟩
    cases h with
    | decimal h => exact absurd (h.lt 'b' (by decide)) (by decide)
    | binary h => exact absurd (h.lt 'B' (by decide)) (by decide)
  · exact nextAt_zeros (Nat.le_refl maxDecimalDigits)

end Scriptlet.Scan
