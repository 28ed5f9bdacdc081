import Scriptlet.Eval.Builtins
import Scriptlet.Proofs.Eval.Proper
import Scriptlet.Proofs.Token.LineEnds
import Scriptlet.Proofs.Token.Numerals

/-!
# Reading what was printed

Numbers, truth values and texts of one line that stand in a line of the input as they are printed
are read back, numbers and truth values also with blanks around them.  No other line than a number
in range is read as one: `Builtin.read_back`.

Every other line is a fault, with one exception.  Digits are refused when there are more than
`Literal.maxDecimalDigits` of them, and then the run stops with something that is no fault, whether or
not the number is in range (`Builtin.readlnInt_overlong`).

Printing and reading share no code, so both are measured by a third notion: `Text.Signed` says which
number an optional sign and digits denote.
-/

namespace Scriptlet.Text

/-! ## Numbers with a sign -/

/-- Decimal digits behind an optional sign, and the number they denote. -/
inductive Signed : List Char → Int → Prop
  | bare {cs : List Char} {n : Nat} : Literal.Digits 10 cs n → Signed cs n
  | plus {cs : List Char} {n : Nat} : Literal.Digits 10 cs n → Signed ('+' :: cs) n
  | minus {cs : List Char} {n : Nat} : Literal.Digits 10 cs n → Signed ('-' :: cs) (-n)

variable {c : Char} {cs before behind line more : List Char} {n : Int}

theorem isDigit_of_digitValue (hc : Literal.digitValue c < 10) : c.isDigit = true := by
  rw [Literal.digitValue_eq] at hc
  split at hc
  · next hdigit =>
    rw [Char.isDigit, Bool.and_eq_true, decide_eq_true_eq, decide_eq_true_eq]
    exact hdigit
  · split at hc
    · omega
    · split at hc <;> omega

/-- The digits of a line are read as those of a program are. -/
theorem digits?_eq_number? (cs : List Char) : digits? cs = Literal.number? 10 cs := by
  rw [digits?]
  split
  · next h =>
    rw [Scan.number?_of_digits (List.all_eq_true.1 h.2) h.1, Nat.ofDigitChars]
    simp only [Nat.mul_comm]
  · next h =>
    symm
    rw [Option.eq_none_iff_forall_ne_some]
    intro n hn
    have hdigits := (Literal.number?_iff (by decide)).1 hn
    exact h ⟨hdigits.ne_nil, List.all_eq_true.2 fun c hc => isDigit_of_digitValue (hdigits.lt c hc)⟩

theorem digits?_iff {n : Nat} : digits? cs = some n ↔ Literal.Digits 10 cs n := by
  rw [digits?_eq_number?, Literal.number?_iff (by decide)]

theorem signed?_iff : signed? cs = some n ↔ Signed cs n := by
  constructor
  · fun_cases signed? cs with
    | case1 cs =>
      intro h
      obtain ⟨k, hk, rfl⟩ : ∃ k, digits? cs = some k ∧ -(k : Int) = n := by
        simpa [Option.bind_eq_some_iff] using h
      exact .minus (digits?_iff.1 hk)
    | case2 cs =>
      rw [Option.map_eq_some_iff]
      rintro ⟨k, hk, rfl⟩
      exact .plus (digits?_iff.1 hk)
    | case3 cs =>
      rw [Option.map_eq_some_iff]
      rintro ⟨k, hk, rfl⟩
      exact .bare (digits?_iff.1 hk)
  · intro h
    cases h with
    | minus h => rw [signed?, digits?_iff.2 h]; rfl
    | plus h => rw [signed?, digits?_iff.2 h]; rfl
    | bare h =>
      -- A sign is no digit, so the cases of a sign are passed over.
      rw [signed?, digits?_iff.2 h]
      · rfl
      · rintro ds rfl
        exact absurd (h.lt '-' List.mem_cons_self) (by decide)
      · rintro ds rfl
        exact absurd (h.lt '+' List.mem_cons_self) (by decide)

/-- Digits alone have no sign before them. -/
theorem unsigned_of_digits {k : Nat} (h : Literal.Digits 10 cs k) : unsigned cs = cs := by
  rw [unsigned]
  · rintro ds rfl
    exact absurd (h.lt '-' List.mem_cons_self) (by decide)
  · rintro ds rfl
    exact absurd (h.lt '+' List.mem_cons_self) (by decide)

/-- What stands behind the sign are digits. -/
theorem Signed.digits (h : Signed cs n) : ∃ k, Literal.Digits 10 (unsigned cs) k := by
  cases h with
  | plus h | minus h => exact ⟨_, h⟩
  | bare h => exact ⟨_, (unsigned_of_digits h).symm ▸ h⟩

theorem Signed.overlong_iff (h : Signed cs n) :
    Literal.Overlong (unsigned cs) ↔ Literal.maxDecimalDigits < (unsigned cs).length := by
  obtain ⟨k, hdigits⟩ := h.digits
  exact and_iff_right hdigits.lt

/-- Too many digits denote a number all the same. -/
theorem exists_signed_of_overlong (h : Literal.Overlong (unsigned cs)) : ∃ n, Signed cs n := by
  have hdigits : Literal.Digits 10 (unsigned cs) _ :=
    ⟨List.ne_nil_of_length_pos (Nat.lt_of_le_of_lt (Nat.zero_le _) h.2), h.1, rfl⟩
  revert hdigits
  fun_cases unsigned cs with
  | case1 ds => exact fun hdigits => ⟨_, .minus hdigits⟩
  | case2 ds => exact fun hdigits => ⟨_, .plus hdigits⟩
  | case3 ds => exact fun hdigits => ⟨_, .bare hdigits⟩

/-- A line is read as a number if it denotes one in range and has not too many digits. -/
theorem readInt_eq_ok_iff {line : String} :
    readInt line = .ok n ↔ Signed (strip line.toList) n ∧ Word.InRange n ∧
      ¬ Literal.Overlong (unsigned (strip line.toList)) := by
  rw [← signed?_iff]
  simp only [readInt]
  cases hsigned : signed? (strip line.toList) with
  | none => simp
  | some k =>
    rw [(signed?_iff.1 hsigned).overlong_iff]
    by_cases hlong : Literal.maxDecimalDigits < (unsigned (strip line.toList)).length
    · simp [hlong]
    · by_cases hrange : Word.InRange k
      · simp only [hlong, hrange, if_false, if_true, Except.ok.injEq, Option.some_inj]
        exact ⟨fun h => ⟨h, h ▸ hrange, not_false⟩, fun h => h.1⟩
      · simp only [hlong, hrange, if_false, reduceCtorEq, Option.some_inj, false_iff, not_and]
        rintro rfl hin
        exact absurd hin hrange

/-- A line is overlong if it consists of too many digits, a sign and blanks left aside. -/
theorem isOverlong_iff {line : String} :
    IsOverlong line ↔ Literal.Overlong (unsigned (strip line.toList)) := by
  constructor
  · rintro ⟨hsome, hlong⟩
    obtain ⟨n, hn⟩ := Option.isSome_iff_exists.1 hsome
    exact (signed?_iff.1 hn).overlong_iff.2 hlong
  · intro h
    obtain ⟨n, hn⟩ := exists_signed_of_overlong h
    exact ⟨Option.isSome_iff_exists.2 ⟨n, signed?_iff.2 hn⟩, h.2⟩

/-! ## Printed numbers -/

theorem digits_toDigits (n : Nat) : Literal.Digits 10 (Nat.toDigits 10 n) n := by
  rw [← Literal.number?_iff (by decide), Scan.number?_of_digits _ Nat.toDigits_ne_nil,
    Nat.ofDigitChars_ten_toDigits]
  exact fun c hc => Nat.isDigit_of_mem_toDigits (by decide) (by decide) hc

theorem toList_toString_negSucc (n : Nat) :
    (toString (Int.negSucc n)).toList = '-' :: Nat.toDigits 10 (n + 1) := by
  show ("-" ++ (n + 1).repr).toList = _
  rw [String.toList_append, Nat.toList_repr]
  rfl

/-- A number is printed as its sign, if it is negative, and its digits. -/
theorem signed_toString (n : Int) : Signed (toString n).toList n := by
  cases n with
  | ofNat n =>
    show Signed n.repr.toList n
    rw [Nat.toList_repr]
    exact .bare (digits_toDigits n)
  | negSucc n =>
    rw [toList_toString_negSucc, Int.negSucc_eq]
    exact .minus (digits_toDigits (n + 1))

theorem Signed.ne_nil (h : Signed cs n) : cs ≠ [] := by
  cases h with
  | bare h => exact h.ne_nil
  | plus | minus => exact List.cons_ne_nil _ _

/-! ## Blanks -/

theorem isBlank_of_digitValue (hc : Literal.digitValue c < 10) : isBlank c = false := by
  obtain ⟨-, hlower, hupper⟩ := Scan.toNat_bounds_of_isDigit (isDigit_of_digitValue hc)
  simp only [isBlank, blankRanges, List.any_cons, List.any_nil, Bool.or_eq_false_iff,
    Bool.and_eq_false_iff, decide_eq_false_iff_not, and_true]
  omega

/-- No blank stands within a number. -/
theorem Signed.solid (h : Signed cs n) : ∀ c ∈ cs, isBlank c = false := by
  cases h with
  | bare h => exact fun c hc => isBlank_of_digitValue (h.lt c hc)
  | plus h | minus h =>
    rw [List.forall_mem_cons]
    exact ⟨by decide, fun c hc => isBlank_of_digitValue (h.lt c hc)⟩

/-- The text `cs` with blanks, if any, on both sides. -/
def Padded (cs line : List Char) : Prop :=
  ∃ before behind, (∀ c ∈ before, isBlank c = true) ∧ (∀ c ∈ behind, isBlank c = true) ∧
    line = before ++ cs ++ behind

theorem dropWhile_isBlank (hbefore : ∀ c ∈ before, isBlank c = true)
    (hcs : ∀ c ∈ cs, isBlank c = false) (hne : cs ≠ []) :
    (before ++ (cs ++ behind)).dropWhile isBlank = cs ++ behind := by
  obtain ⟨c, cs, rfl⟩ := List.exists_cons_of_ne_nil hne
  rw [List.dropWhile_append_of_pos hbefore, List.cons_append, List.dropWhile_cons_of_neg]
  simp [hcs c List.mem_cons_self]

theorem strip_of_padded (hcs : ∀ c ∈ cs, isBlank c = false) (hne : cs ≠ [])
    (h : Padded cs line) : strip line = cs := by
  obtain ⟨before, behind, hbefore, hbehind, rfl⟩ := h
  rw [strip, List.append_assoc, dropWhile_isBlank hbefore hcs hne, List.reverse_append]
  -- From the other end the text looks the same, with nothing behind it.
  have hback : (behind.reverse ++ (cs.reverse ++ [])).dropWhile isBlank = cs.reverse ++ [] :=
    dropWhile_isBlank (by simpa using hbehind) (by simpa using hcs) (by simpa using hne)
  rw [List.append_nil] at hback
  rw [hback, List.reverse_reverse]

/-- A number in range is printed with at most ten digits. -/
theorem length_toString_le (hn : Word.InRange n) : (toString n).toList.length ≤ 11 := by
  have hdigits : ∀ k, k < 10 ^ 10 → (Nat.toDigits 10 k).length ≤ 10 := fun k hk =>
    (Nat.length_toDigits_le_iff (by decide) (by decide)).2 hk
  simp only [Word.InRange, Word.least, Word.greatest] at hn
  cases n with
  | ofNat k =>
    show k.repr.toList.length ≤ 11
    rw [Nat.toList_repr]
    exact Nat.le_succ_of_le (hdigits k (by rw [Int.ofNat_eq_natCast] at hn; omega))
  | negSucc k =>
    rw [toList_toString_negSucc, List.length_cons]
    exact Nat.succ_le_succ (hdigits (k + 1) (by omega))

theorem length_unsigned_le (cs : List Char) : (unsigned cs).length ≤ cs.length := by
  fun_cases unsigned cs with
  | case1 cs | case2 cs => exact Nat.le_succ _
  | case3 cs => exact Nat.le_refl _

theorem not_overlong_toString (hn : Word.InRange n) :
    ¬ Literal.Overlong (unsigned (toString n).toList) := by
  rintro ⟨-, hlong⟩
  have hshort := Nat.le_trans (length_unsigned_le _) (length_toString_le hn)
  rw [Literal.maxDecimalDigits] at hlong
  omega

theorem readInt_of_padded {line : String} (hn : Word.InRange n)
    (h : Padded (toString n).toList line.toList) : readInt line = .ok n := by
  have hsigned := signed_toString n
  rw [readInt_eq_ok_iff, strip_of_padded hsigned.solid hsigned.ne_nil h]
  exact ⟨hsigned, hn, not_overlong_toString hn⟩

theorem readBoolean?_of_padded {line : String} {b : Bool}
    (h : Padded (if b then "true" else "false").toList line.toList) :
    readBoolean? line = some b := by
  have hsolid : ∀ c ∈ (if b then "true" else "false").toList, isBlank c = false := by
    cases b <;> simp [isBlank, blankRanges]
  have hne : (if b then "true" else "false").toList ≠ [] := by
    cases b <;> decide
  rw [readBoolean?, strip_of_padded hsolid hne h]
  cases b <;> rfl

/-- A line of so many nines. -/
def nines (k : Nat) : String := String.ofList (List.replicate k '9')

theorem toList_nines (k : Nat) : (nines k).toList = List.replicate k '9' := String.toList_ofList

theorem ofDigits_nines (k : Nat) : Nat.ofDigits 10 (List.replicate k 9) + 1 = 10 ^ k := by
  induction k with
  | zero => rfl
  | succ k ih =>
    rw [List.replicate_succ, Nat.ofDigits_cons, Nat.pow_succ, ← ih]
    omega

/-- Nines denote the number before a power of ten. -/
theorem digits_nines {k : Nat} (hk : 0 < k) :
    Literal.Digits 10 (nines k).toList (Nat.ofDigits 10 (List.replicate k 9)) := by
  rw [toList_nines]
  refine ⟨List.ne_nil_of_length_pos (by rwa [List.length_replicate]), ?_, ?_⟩
  · intro c hc
    obtain rfl := List.eq_of_mem_replicate hc
    decide
  · rw [List.map_replicate, List.reverse_replicate]
    rfl

theorem strip_nines {k : Nat} (hk : 0 < k) : strip (nines k).toList = (nines k).toList := by
  have hsigned := Signed.bare (digits_nines hk)
  exact strip_of_padded hsigned.solid hsigned.ne_nil ⟨[], [], by simp, by simp, by simp⟩

theorem overlong_nines {k : Nat} (hk : Literal.maxDecimalDigits < k) :
    Literal.Overlong (unsigned (strip (nines k).toList)) := by
  have hdigits := digits_nines (Nat.lt_of_le_of_lt (Nat.zero_le _) hk)
  rw [strip_nines (by omega), (Signed.bare hdigits).overlong_iff, unsigned_of_digits hdigits,
    toList_nines, List.length_replicate]
  exact hk

/-- Nines, ten or more of them, are not in range. -/
theorem not_inRange_nines {k : Nat} (hk : 10 ≤ k) (h : Signed (strip (nines k).toList) n) :
    ¬ Word.InRange n := by
  have hsigned := Signed.bare (digits_nines (k := k) (by omega))
  rw [strip_nines (by omega)] at h
  obtain rfl := Option.some.inj ((signed?_iff.2 hsigned).symm.trans (signed?_iff.2 h))
  have hpow := Nat.pow_le_pow_right (n := 10) (by decide) hk
  have hnines := ofDigits_nines k
  rintro ⟨-, hgreatest⟩
  rw [Word.greatest] at hgreatest
  omega

/-! ## Lines -/

/-- `line` is the first line of a text and `more` is the text behind its line end.  The last line
needs no line end unless it is empty. -/
inductive FirstLine (line : List Char) : (text more : List Char) → Prop
  | feed {more : List Char} : FirstLine line (line ++ '\n' :: more) more
  | returnFeed {more : List Char} : FirstLine line (line ++ '\r' :: '\n' :: more) more
  | returned {more : List Char} : more.head? ≠ some '\n' →
      FirstLine line (line ++ '\r' :: more) more
  | last : line ≠ [] → FirstLine line line []

theorem lines_append_feed (hline : '\n' ∉ line) :
    lines (line ++ '\n' :: more) = line :: lines more := by
  induction line with
  | nil => simp [lines]
  | cons c line ih =>
    rw [List.mem_cons, not_or] at hline
    rw [List.cons_append, lines, if_neg (Ne.symm hline.1), ih hline.2]

theorem lines_last (hline : '\n' ∉ line) (hne : line ≠ []) : lines line = [line] := by
  induction line with
  | nil => exact absurd rfl hne
  | cons c line ih =>
    rw [List.mem_cons, not_or] at hline
    rw [lines, if_neg (Ne.symm hline.1)]
    cases line with
    | nil => rfl
    | cons d line => rw [ih hline.2 (List.cons_ne_nil _ _)]

theorem lines_firstLine {text : List Char} (hfeed : '\n' ∉ line) (hreturn : '\r' ∉ line)
    (h : FirstLine line text more) :
    lines (unifyLineEnds text) = line :: lines (unifyLineEnds more) := by
  cases h with
  | feed =>
    rw [unifyLineEnds_append hreturn, unifyLineEnds_cons (by decide), lines_append_feed hfeed]
  | returnFeed => rw [unifyLineEnds_append hreturn, unifyLineEnds, lines_append_feed hfeed]
  | returned hmore =>
    rw [unifyLineEnds_append hreturn, unifyLineEnds_return hmore, lines_append_feed hfeed]
  | last hne =>
    have hsame : unifyLineEnds (line ++ []) = line ++ [] := unifyLineEnds_append hreturn
    rw [List.append_nil] at hsame
    rw [hsame, lines_last hfeed hne]
    rfl

end Scriptlet.Text

namespace Scriptlet

theorem Console.input_firstLine {line text more : String} (hfeed : '\n' ∉ line.toList)
    (hreturn : '\r' ∉ line.toList) (h : Text.FirstLine line.toList text.toList more.toList) :
    (ofInput text).input = line :: (ofInput more).input := by
  rw [ofInput, Text.lines_firstLine hfeed hreturn h, List.map_cons, String.ofList_toList]
  rfl

theorem Console.ofInput_nines {k : Nat} (hk : 0 < k) :
    ofInput (Text.nines k) = ⟨[Text.nines k], ""⟩ := by
  have hother : ∀ c, c ≠ '9' → c ∉ (Text.nines k).toList := by
    intro c hc hmem
    rw [Text.toList_nines] at hmem
    exact hc (List.eq_of_mem_replicate hmem)
  have hne : (Text.nines k).toList ≠ [] := by
    rw [Text.toList_nines]
    exact List.ne_nil_of_length_pos (by rwa [List.length_replicate])
  have hinput : (ofInput (Text.nines k)).input = Text.nines k :: (ofInput "").input :=
    input_firstLine (hother _ (by decide)) (hother _ (by decide)) (.last hne)
  have hconsole : ∀ text, ofInput text = ⟨(ofInput text).input, ""⟩ := fun _ => rfl
  rw [hconsole, hinput]
  rfl

/-! ## Running the readers -/

/-- The state with other lines to be read. -/
def State.awaiting (s : State) (lines : List String) : State :=
  { s with console := { s.console with input := lines } }

namespace Builtin

variable {s : State} {line : String} {rest : List String}

theorem run_readLine (h : s.console.input = line :: rest) :
    Run.readLine.run s = (.ok line, s.awaiting rest) := by
  rw [Run.readLine, Run.run_get_bind, Console.readLine?, h]
  rfl

theorem run_readln (h : s.console.input = line :: rest) :
    (readln.apply []).run s = (.ok (.str line), s.awaiting rest) :=
  Run.run_bind_ok (run_readLine h) _

theorem run_readlnInt (h : s.console.input = line :: rest) :
    (readlnInt.apply []).run s = ((Text.readInt line).map .int, s.awaiting rest) := by
  refine (Run.run_bind_ok (run_readLine h) _).trans ?_
  cases Text.readInt line <;> rfl

theorem run_readlnBoolean (h : s.console.input = line :: rest) :
    (readlnBoolean.apply []).run s =
      ((Text.readBoolean? line).elim (.error (.fault .notABoolean)) (.ok ∘ .bool),
        s.awaiting rest) := by
  refine (Run.run_bind_ok (run_readLine h) _).trans ?_
  cases Text.readBoolean? line <;> rfl

/-- A number is read exactly where an optional sign and digits, not too many, denote one in range. -/
theorem run_readlnInt_ok_iff (h : s.console.input = line :: rest) {v : Value} {t : State} :
    (readlnInt.apply []).run s = (.ok v, t) ↔ t = s.awaiting rest ∧
      ∃ n, v = .int n ∧ Text.Signed (Text.strip line.toList) n ∧ Word.InRange n ∧
        ¬ Literal.Overlong (Text.unsigned (Text.strip line.toList)) := by
  simp only [← Text.readInt_eq_ok_iff]
  rw [run_readlnInt h]
  constructor
  · intro hrun
    have hstate := congrArg Prod.snd hrun
    have hvalue := congrArg Prod.fst hrun
    cases hread : Text.readInt line with
    | error stop =>
      rw [hread] at hvalue
      exact nomatch hvalue
    | ok n =>
      rw [hread] at hvalue
      exact ⟨hstate.symm, n, (Except.ok.inj hvalue).symm, rfl⟩
  · rintro ⟨rfl, n, rfl, hread⟩
    rw [hread]
    rfl

/-- What reading `line` gives from the state `s`, each time with the state `after` left. -/
structure ReadsBack (line : String) (s after : State) : Prop where
  /-- A number is read from the line it is printed in, blanks left aside. -/
  int : ∀ n, Word.InRange n → ∃ printed, s.heap.text? (.int n) = some (CodeText.ofString printed) ∧
    (Text.Padded printed.toList line.toList →
      (readlnInt.apply []).run s = (.ok (.int n), after))
  /-- A truth value is read from the line it is printed in, blanks left aside. -/
  boolean : ∀ b, ∃ printed, s.heap.text? (.bool b) = some (CodeText.ofString printed) ∧
    (Text.Padded printed.toList line.toList →
      (readlnBoolean.apply []).run s = (.ok (.bool b), after))
  /-- A text is read from the line it is printed in. -/
  string : ∀ text, s.heap.text? (.str text) = some (CodeText.ofString line) →
    (readln.apply []).run s = (.ok (.str text), after)
  /-- Only numbers in range are read as numbers, and they are unless they have too many digits. -/
  int_iff : ∀ v t, (readlnInt.apply []).run s = (.ok v, t) ↔
    t = after ∧ ∃ n, v = .int n ∧ Text.Signed (Text.strip line.toList) n ∧ Word.InRange n ∧
      ¬ Literal.Overlong (Text.unsigned (Text.strip line.toList))
  /-- Every other line without too many digits is refused with a fault. -/
  refused : (∀ n, Text.Signed (Text.strip line.toList) n → ¬ Word.InRange n) →
    ¬ Literal.Overlong (Text.unsigned (Text.strip line.toList)) →
    ∃ fault : Fault, (readlnInt.apply []).run s = (.error (.fault fault), after) ∧
      fault.message = "Failed to parse Int from input"
  /-- Too many digits are refused in another way. -/
  overlong : Literal.Overlong (Text.unsigned (Text.strip line.toList)) →
    (readlnInt.apply []).run s = (.error .overlong, after)

/-- The first line of the input is what stands before its first line end.  What was printed is read
back from it, numbers and truth values also with blanks around them; a number is read only where an
optional sign and digits, not too many, denote one in range. -/
theorem read_back (line : String) :
    (∀ text more : String, '\n' ∉ line.toList → '\r' ∉ line.toList →
      Text.FirstLine line.toList text.toList more.toList →
        (Console.ofInput text).input = line :: (Console.ofInput more).input) ∧
    ∀ (s : State) (rest : List String), s.console.input = line :: rest →
      ReadsBack line s (s.awaiting rest) := by
  refine ⟨fun text more hfeed hreturn h => Console.input_firstLine hfeed hreturn h, ?_⟩
  intro s rest hline
  constructor
  case int =>
    intro n hn
    refine ⟨toString n, rfl, fun h => ?_⟩
    rw [run_readlnInt hline, Text.readInt_of_padded hn h]
    rfl
  case boolean =>
    intro b
    refine ⟨if b then "true" else "false", by cases b <;> rfl, fun h => ?_⟩
    rw [run_readlnBoolean hline, Text.readBoolean?_of_padded h]
    rfl
  case string =>
    intro text htext
    rw [run_readln hline, Option.some.inj htext]
  case int_iff =>
    intro v t
    exact run_readlnInt_ok_iff hline
  case refused =>
    intro hnone hshort
    refine ⟨.notAnInt, ?_, rfl⟩
    rw [run_readlnInt hline]
    -- a line that is not read is a fault or has too many digits
    cases hread : Text.readInt line with
    | ok n =>
      obtain ⟨hsigned, hrange, -⟩ := Text.readInt_eq_ok_iff.1 hread
      exact absurd hrange (hnone n hsigned)
    | error stop =>
      obtain rfl | rfl := Text.readInt_error hread
      · rfl
      · exact absurd (Text.isOverlong_iff.1 (Text.readInt_eq_overlong_iff.1 hread)) hshort
  case overlong =>
    intro hlong
    rw [run_readlnInt hline, Text.readInt_eq_overlong_iff.2 (Text.isOverlong_iff.2 hlong)]
    rfl

/-- The least number, between a tab and a space, in a line that ends with both characters. -/
theorem read_back_least :
    let s : State := { console := .ofInput "\t-2147483648 \r\nmore", trace := { verbosity := 0 } }
    s.console.input = ["\t-2147483648 ", "more"] ∧
      (readlnInt.apply []).run s = (.ok (.int Word.least), s.awaiting ["more"]) := by
  intro s
  have hinput : s.console.input = ["\t-2147483648 ", "more"] := by
    refine ((read_back "\t-2147483648 ").1 _ "more" (by decide) (by decide) ?_).trans ?_
    · exact .returnFeed
    · rw [(read_back "more").1 "more" "" (by decide) (by decide) (.last (by decide))]
      rfl
  refine ⟨hinput, ?_⟩
  obtain ⟨printed, hprinted, hread⟩ := ((read_back _).2 s _ hinput).int Word.least (by decide)
  apply hread
  obtain rfl := CodeText.ofString_inj.1 (Option.some.inj hprinted)
  refine ⟨['\t'], [' '], ?_, ?_, by decide⟩ <;> simp [Text.isBlank, Text.blankRanges]

/-- Too many digits are no fault: here it is a line of nines, of which there is one more than digits
are converted. -/
theorem readlnInt_overlong :
    let s : State := { console := .ofInput (Text.nines 4301), trace := ⟨0, #[]⟩ }
    s.console.input = [Text.nines 4301] ∧
      (∀ n, Text.Signed (Text.strip (Text.nines 4301).toList) n → ¬ Word.InRange n) ∧
      (readlnInt.apply []).run s = (.error .overlong, s.awaiting []) := by
  intro s
  have hlong := Text.isOverlong_iff.2 (Text.overlong_nines (k := 4301) (by decide))
  have hinput : s.console.input = [Text.nines 4301] :=
    congrArg Console.input (Console.ofInput_nines (by decide))
  refine ⟨hinput, fun n hn => Text.not_inRange_nines (by decide) hn, ?_⟩
  rw [run_readlnInt hinput, Text.readInt_eq_overlong_iff.2 hlong]
  rfl

end Builtin

end Scriptlet
