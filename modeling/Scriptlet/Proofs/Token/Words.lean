import Scriptlet.Proofs.Token.Spacing

/-!
# Words

Names hold letters and digits, reserved words and truth values only letters, and these are looked
for first.  So a word of letters and digits is read whole unless the letters that it starts with are
reserved: then they are read on their own, and what is left of the word is read as a number or is
none.  `Scan.lexemes_word` says so of sources made of words, spaces and line feeds.
-/

namespace Scriptlet

namespace Token

/-- What a word stands for that is read whole. -/
def ofWord (w : List Char) : Token :=
  match Keyword.ofSpelling? (String.ofList w) with
  | some k => .keyword k
  | none =>
    if String.ofList w = "true" then .bool true
    else if String.ofList w = "false" then .bool false
    else .ident (String.ofList w)

/-- What letters and digits stand for that start with a digit. -/
def ofDigits (ds : List Char) : Token :=
  match Literal.int? ds with
  | some n => .int n
  | none => .unexpected

/-- The letters that `w` starts with decide whether it is a name. -/
theorem ofWord_of_freeWord {w : List Char} (hfree : FreeWord w) :
    ofWord w = .ident (String.ofList w) := by
  -- A word that is itself reserved holds nothing but letters, so it is the word that is looked up.
  have hletters : w.all Char.isAlpha = true → w.takeWhile Char.isAlpha = w := fun h =>
    List.takeWhile_eq_self_iff.2 (List.all_eq_true.1 h)
  obtain ⟨hkeyword, htrue, hfalse⟩ := hfree
  have hkeyword' : Keyword.ofSpelling? (String.ofList w) = none := by
    cases hk : Keyword.ofSpelling? (String.ofList w) with
    | none => rfl
    | some k =>
      have hspelling : k.spelling = String.ofList w := by simpa using List.find?_some hk
      have hw : w = k.spelling.toList := by rw [hspelling, String.toList_ofList]
      have hall : w.all Char.isAlpha = true := by
        rw [hw]
        cases k <;> decide
      rw [hletters hall, hk] at hkeyword
      cases hkeyword
  have htrue' : String.ofList w ≠ "true" := by
    intro h
    obtain rfl : w = "true".toList := by rw [← h, String.toList_ofList]
    exact htrue rfl
  have hfalse' : String.ofList w ≠ "false" := by
    intro h
    obtain rfl : w = "false".toList := by rw [← h, String.toList_ofList]
    exact hfalse rfl
  rw [ofWord, hkeyword']
  dsimp only
  rw [if_neg htrue', if_neg hfalse']

end Token

namespace Scan

variable {before w after rest letters : List Char} {c : Char} {pos : Nat}

/-! ## Words at the start of a text -/

/-- A reserved word or a truth value is read where no letter follows. -/
theorem stands_of_reserved (hletters : ∀ c ∈ letters, c.isAlpha = true)
    (hreserved : ¬ Token.FreeWord letters) (hrest : ∀ c ∈ rest.head?, c.isAlpha = false) :
    Stands letters (.ofWord letters) rest := by
  have htake : letters.takeWhile Char.isAlpha = letters := List.takeWhile_eq_self_iff.2 hletters
  rw [Token.FreeWord, htake] at hreserved
  rw [Token.ofWord]
  split
  · rename_i k hk
    have hspelling : k.spelling = String.ofList letters := by simpa using List.find?_some hk
    obtain rfl : k.spelling.toList = letters := by rw [hspelling, String.toList_ofList]
    exact .keyword hrest
  · rename_i hk
    split
    · rename_i htrue
      obtain rfl : (Token.bool true).spell = letters := String.ofList_injective htrue.symm
      exact .bool hrest
    · rename_i htrue
      split
      · rename_i hfalse
        obtain rfl : (Token.bool false).spell = letters := String.ofList_injective hfalse.symm
        exact .bool hrest
      · rename_i hfalse
        exact absurd ⟨hk, htrue, hfalse⟩ hreserved

/-- A name is read where neither a letter nor a digit follows. -/
theorem stands_of_free (hc : c.isAlpha = true) (hw : ∀ d ∈ w, d.isAlphanum = true)
    (hfree : Token.FreeWord (c :: w)) (hrest : ∀ d ∈ rest.head?, d.isAlphanum = false) :
    Stands (c :: w) (.ofWord (c :: w)) rest := by
  rw [Token.ofWord_of_freeWord hfree]
  exact stands_name hc hw hfree hrest

/-- A run of characters, and from where it ends a run of characters of a larger kind. -/
theorem run_add_run {p q : Char → Bool} (hpq : ∀ c, p c = true → q c = true) (cs : List Char) :
    run p cs + run q (cs.drop (run p cs)) = run q cs := by
  induction cs with
  | nil => rfl
  | cons c cs ih =>
    by_cases hc : p c = true
    · have hp : run p (c :: cs) = run p cs + 1 := by simp [run, hc]
      have hq : run q (c :: cs) = run q cs + 1 := by simp [run, hpq c hc]
      rw [hp, hq, List.drop_succ_cons, ← ih]
      omega
    · have hp : run p (c :: cs) = 0 := by simp [run, hc]
      rw [hp, List.drop_zero, Nat.zero_add]

/-- From a digit on, the letters and digits are one number, or else they are all astray. -/
theorem next_ofDigits (hc : c.isDigit = true) (hw : ∀ d ∈ c :: w, d.isAlphanum = true)
    (hrest : ∀ d ∈ rest.head?, d.isAlphanum = false) :
    next (c :: w ++ rest) = (.token (.ofDigits (c :: w)), (c :: w).length) := by
  rw [Token.ofDigits]
  split
  · rename_i n hint
    exact next_numeral hc hint hrest
  · rename_i hint
    have hwhole := run_add_run (fun d => isAlphanum_of_isDigitOrMark (c := d)) (c :: w ++ rest)
    rw [run_append_of_head hrest hw] at hwhole
    have hpos : run Literal.isDigitOrMark (c :: w ++ rest) ≠ 0 := by
      simp [run, isDigitOrMark_of_isDigit hc]
    apply next_of_recognise?
    apply recognise?_of_digit hc
    show int? (c :: w ++ rest) = _
    simp only [int?, if_neg hpos]
    split
    · -- A number that nothing is glued to would be the whole word, which is none.
      rename_i n hglued hn
      rw [hglued, Nat.add_zero] at hwhole
      rw [hwhole, List.take_left, hint] at hn
      cases hn
    · rw [hwhole]

/-- How letters and digits are read that start with a letter and stand from `lo` on: whole, or the
reserved letters that they start with and then the rest. -/
def wordLexemes (lo : Nat) (w : List Char) : List Lexeme :=
  let letters := w.takeWhile Char.isAlpha
  let digits := w.dropWhile Char.isAlpha
  if Token.FreeWord w ∨ digits = [] then
    [⟨.ofWord w, ⟨lo, lo + w.length⟩, String.ofList w⟩]
  else
    [⟨.ofWord letters, ⟨lo, lo + letters.length⟩, String.ofList letters⟩,
     ⟨.ofDigits digits, ⟨lo + letters.length, lo + w.length⟩, String.ofList digits⟩]

/-- What is left of a word behind its first letters starts with a digit. -/
theorem isDigit_of_dropWhile {d : Char} {ds : List Char} (hw : ∀ c ∈ w, c.isAlphanum = true)
    (hds : w.dropWhile Char.isAlpha = d :: ds) : d.isDigit = true := by
  have hd := List.head?_dropWhile_not Char.isAlpha w
  have halnum := hw d ((List.dropWhile_suffix _).mem (by rw [hds]; exact List.mem_cons_self))
  rw [hds] at hd
  rw [Char.isAlphanum, hd, Bool.false_or] at halnum
  exact halnum

/-- Letters that are reserved are read on their own, whatever else belongs to the word. -/
theorem stands_of_not_free (hfree : ¬ Token.FreeWord w)
    (hrest : ∀ c ∈ rest.head?, c.isAlphanum = false) :
    Stands (w.takeWhile Char.isAlpha) (.ofWord (w.takeWhile Char.isAlpha))
      (w.dropWhile Char.isAlpha ++ rest) := by
  refine stands_of_reserved (fun c hc => List.mem_takeWhile_imp hc) ?_ ?_
  · rw [Token.FreeWord, List.takeWhile_idem]
    exact hfree
  · intro c hc
    have hstop := List.head?_dropWhile_not Char.isAlpha w
    cases hdigits : w.dropWhile Char.isAlpha with
    | nil =>
      rw [hdigits] at hc
      exact (Bool.or_eq_false_iff.1 (hrest c hc)).1
    | cons d ds =>
      rw [hdigits] at hc hstop
      obtain rfl : d = c := Option.some.inj hc
      exact hstop

/-- Letters and digits are read up to their end. -/
theorem lexemesFrom_word (hc : c.isAlpha = true) (hw : ∀ d ∈ c :: w, d.isAlphanum = true)
    (hrest : ∀ d ∈ rest.head?, d.isAlphanum = false) (pos : Nat) :
    lexemesFrom (c :: w ++ rest) pos 0 =
      wordLexemes pos (c :: w) ++ lexemesFrom rest (pos + (c :: w).length) 0 := by
  by_cases hfree : Token.FreeWord (c :: w)
  · have hstands := stands_of_free hc (fun d hd => hw d (List.mem_cons_of_mem _ hd)) hfree hrest
    rw [wordLexemes, if_pos (.inl hfree), lexemesFrom_stands hstands]
    rfl
  have hstands := stands_of_not_free hfree hrest
  have hsplit : (c :: w).takeWhile Char.isAlpha ++ (c :: w).dropWhile Char.isAlpha = c :: w :=
    List.takeWhile_append_dropWhile
  rw [wordLexemes]
  generalize (c :: w).takeWhile Char.isAlpha = letters at *
  generalize hdigits : (c :: w).dropWhile Char.isAlpha = digits at *
  cases digits with
  | nil =>
    rw [List.append_nil] at hsplit
    rw [hsplit, List.nil_append] at hstands
    rw [if_pos (.inr rfl), lexemesFrom_stands hstands]
    rfl
  | cons d ds =>
    have hd : d.isDigit = true := isDigit_of_dropWhile hw hdigits
    have hds : ∀ e ∈ d :: ds, e.isAlphanum = true := fun e he =>
      hw e (hsplit ▸ List.mem_append_right letters he)
    have hlength : pos + (c :: w).length = pos + letters.length + (d :: ds).length := by
      rw [← hsplit, List.length_append, Nat.add_assoc]
    have hnot : ¬ (Token.FreeWord (c :: w) ∨ d :: ds = []) := by simpa using hfree
    rw [if_neg hnot, hlength, ← hsplit, List.append_assoc, lexemesFrom_stands hstands,
      lexemesFrom_of_token (next_ofDigits hd hds hrest), List.take_left, List.drop_left]
    rfl

/-! ## Words in a source -/

/-- Letters, digits, spaces and line feeds. -/
def IsPlain (c : Char) : Prop := c.isAlphanum = true ∨ c = ' ' ∨ c = '\n'

instance : DecidablePred IsPlain := fun _ => inferInstanceAs (Decidable (_ ∨ _))

/-- Between `before` and `after` stand letters and digits, as many as there are, the first of them a
letter. -/
structure IsWord (before w after : List Char) : Prop where
  first : ∃ c cs, w = c :: cs ∧ c.isAlpha = true
  all : ∀ c ∈ w, c.isAlphanum = true
  left : ∀ c ∈ before.getLast?, c.isAlphanum = false
  right : ∀ c ∈ after.head?, c.isAlphanum = false

theorem mem_getLast?_drop {n : Nat} (h : c ∈ (before.drop n).getLast?) : c ∈ before.getLast? := by
  rw [List.getLast?_drop] at h
  split at h
  · cases h
  · exact h

/-- Letters and digits start with a token, which does not go beyond them. -/
theorem exists_next_word (hw : ∀ d ∈ c :: w, d.isAlphanum = true)
    (hrest : ∀ d ∈ rest.head?, d.isAlphanum = false) :
    ∃ t n, next (c :: w ++ rest) = (.token t, n) ∧ 0 < n ∧ n ≤ (c :: w).length := by
  rcases Bool.or_eq_true_iff.1 (hw c List.mem_cons_self) with hc | hc
  · by_cases hfree : Token.FreeWord (c :: w)
    · have hstands := stands_of_free hc (fun d hd => hw d (List.mem_cons_of_mem _ hd)) hfree hrest
      exact ⟨_, _, hstands.next_eq, Nat.succ_pos _, Nat.le_refl _⟩
    · have hnext := (stands_of_not_free hfree hrest).next_eq
      rw [← List.append_assoc, List.takeWhile_append_dropWhile] at hnext
      refine ⟨_, _, hnext, ?_, (List.takeWhile_prefix _).length_le⟩
      simp [hc]
  · exact ⟨_, _, next_ofDigits hc hw hrest, Nat.succ_pos _, Nat.le_refl _⟩

/-- Letters and digits at the start of a text end inside of it if its last character is none. -/
theorem exists_end_of_word {cs : List Char} (hc : c.isAlphanum = true)
    (hlast : ∀ d ∈ (c :: cs).getLast?, d.isAlphanum = false) :
    ∃ w d ds, c :: cs = c :: w ++ d :: ds ∧ (∀ e ∈ c :: w, e.isAlphanum = true) ∧
      d.isAlphanum = false := by
  have hstop := List.head?_dropWhile_not Char.isAlphanum (c :: cs)
  have hfirst : (c :: cs).takeWhile Char.isAlphanum = c :: cs.takeWhile Char.isAlphanum := by
    rw [List.takeWhile_cons, if_pos hc]
  cases hbehind : (c :: cs).dropWhile Char.isAlphanum with
  | nil =>
    have hall := List.dropWhile_eq_nil_iff.1 hbehind
    have hnone := hlast _ (List.getLast?_eq_some_getLast (List.cons_ne_nil c cs))
    rw [hall _ (List.getLast_mem _)] at hnone
    cases hnone
  | cons d ds =>
    rw [hbehind] at hstop
    refine ⟨cs.takeWhile Char.isAlphanum, d, ds, ?_, ?_, hstop⟩
    · rw [← hfirst, ← hbehind, List.takeWhile_append_dropWhile]
    · rw [← hfirst]
      exact fun e he => List.mem_takeWhile_imp he

/-- One piece of what stands before a word: it does not go into the word, whatever this is. -/
theorem exists_piece_before (hne : before ≠ []) (hplain : ∀ c ∈ before, IsPlain c)
    (hleft : ∀ c ∈ before.getLast?, c.isAlphanum = false) (rest : List Char) (pos : Nat) :
    ∃ n ls, 0 < n ∧ n ≤ before.length ∧ (∀ l ∈ ls, l.span.hi ≤ pos + n) ∧
      lexemesFrom (before ++ rest) pos 0 = ls ++ lexemesFrom (before.drop n ++ rest) (pos + n) 0 := by
  obtain ⟨c, cs, rfl⟩ := List.exists_cons_of_ne_nil hne
  rcases hplain c List.mem_cons_self with hc | rfl | rfl
  · obtain ⟨w, d, ds, hsplit, hw, hd⟩ := exists_end_of_word hc hleft
    have hrest : ∀ e ∈ (d :: ds ++ rest).head?, e.isAlphanum = false := by
      rintro e ⟨⟩
      exact hd
    obtain ⟨t, n, hnext, hpos, hle⟩ := exists_next_word hw hrest
    have hle' : n ≤ (c :: cs).length := by
      rw [hsplit, List.length_append]
      exact Nat.le_add_right_of_le hle
    rw [← List.append_assoc, ← hsplit] at hnext
    refine ⟨n, [⟨t, ⟨pos, pos + n⟩, String.ofList ((c :: cs ++ rest).take n)⟩], hpos, hle',
      by simp, ?_⟩
    rw [lexemesFrom_of_token hnext, List.drop_append_of_le_length hle']
    rfl
  · exact ⟨1, [], Nat.one_pos, by simp, nofun, lexemesFrom_cons_space (cs ++ rest) pos⟩
  · refine ⟨1, [⟨.newline, ⟨pos, pos + 1⟩, "\n"⟩], Nat.one_pos, by simp, by simp, ?_⟩
    exact lexemesFrom_stands .lineFeed pos

/-- What stands before a word is read up to the word, and then the word itself. -/
theorem lexemesFrom_upTo_word (hplain : ∀ c ∈ before, IsPlain c) (hword : IsWord before w after)
    (pos : Nat) : ∃ front, (∀ l ∈ front, l.span.hi ≤ pos + before.length) ∧
      lexemesFrom (before ++ (w ++ after)) pos 0 =
        front ++ (wordLexemes (pos + before.length) w ++
          lexemesFrom after (pos + before.length + w.length) 0) := by
  -- Each piece takes a character at least, so less stands between it and the word.
  induction hlen : before.length using Nat.strong_induction_on generalizing before pos with
  | _ len ih =>
    by_cases hne : before = []
    · subst hne
      obtain ⟨c, cs, rfl, hc⟩ := hword.first
      rw [← hlen]
      exact ⟨[], nofun, lexemesFrom_word hc hword.all hword.right pos⟩
    · obtain ⟨n, ls, hpos, hle, hls, hread⟩ :=
        exists_piece_before hne hplain hword.left (w ++ after) pos
      have hlength : (before.drop n).length = before.length - n := List.length_drop
      have hword' : IsWord (before.drop n) w after :=
        { hword with left := fun c hc => hword.left c (mem_getLast?_drop hc) }
      have hplain' : ∀ c ∈ before.drop n, IsPlain c := fun c hc =>
        hplain c (List.mem_of_mem_drop hc)
      obtain ⟨front, hfront, hrest⟩ := ih _ (by omega) hplain' hword' (pos + n) rfl
      have hreach : pos + n + (before.drop n).length = pos + before.length := by omega
      rw [hreach] at hfront hrest
      rw [← hlen]
      refine ⟨ls ++ front, ?_, ?_⟩
      · intro l hl
        rcases List.mem_append.1 hl with hl | hl
        · exact Nat.le_trans (hls l hl) (Nat.add_le_add_left hle pos)
        · exact hfront l hl
      · rw [hread, hrest, List.append_assoc]

/-- In a source of letters, digits, spaces and line feeds, each word that starts with a letter is
read whole, unless it goes on with a digit behind letters that are reserved. -/
theorem lexemes_word (source : String) (hplain : ∀ c ∈ source.toList, IsPlain c)
    (before w after : List Char) (hsource : source.toList = before ++ (w ++ after))
    (hword : IsWord before w after) :
    ∃ front back, lexemes source = front ++ wordLexemes before.length w ++ back ∧
      (∀ l ∈ front, l.span.hi ≤ before.length) ∧
      ∀ l ∈ back, before.length + w.length ≤ l.span.lo := by
  have hplain' : ∀ c ∈ before, IsPlain c := fun c hc =>
    hplain c (by rw [hsource]; exact List.mem_append_left _ hc)
  obtain ⟨front, hfront, hread⟩ := lexemesFrom_upTo_word hplain' hword 0
  rw [Nat.zero_add] at hfront hread
  refine ⟨front, lexemesFrom after (before.length + w.length) 0, ?_, hfront, ?_⟩
  · rw [lexemes, hsource, hread, List.append_assoc]
  · exact fun l hl => (bounds_of_mem hl).1

/-- Words of every kind, one of them behind a number that letters are glued to. -/
def mixedWords : String := "if 12abz\n trueValue val7x x1"

theorem lexemes_word_mixedWords :
    (∀ c ∈ mixedWords.toList, IsPlain c) ∧
      mixedWords.toList = "if 12abz\n trueValue ".toList ++ ("val7x".toList ++ " x1".toList) ∧
      IsWord "if 12abz\n trueValue ".toList "val7x".toList " x1".toList ∧
      ∃ front back, lexemes mixedWords = front ++ wordLexemes 20 "val7x".toList ++ back ∧
        (∀ l ∈ front, l.span.hi ≤ 20) ∧ ∀ l ∈ back, 25 ≤ l.span.lo := by
  have hall : mixedWords.toList.all (fun c => decide (IsPlain c)) = true := by decide +kernel
  have hplain : ∀ c ∈ mixedWords.toList, IsPlain c := fun c hc =>
    of_decide_eq_true (List.all_eq_true.1 hall c hc)
  have hsource : mixedWords.toList =
      "if 12abz\n trueValue ".toList ++ ("val7x".toList ++ " x1".toList) := by decide +kernel
  have hword : IsWord "if 12abz\n trueValue ".toList "val7x".toList " x1".toList :=
    { first := ⟨'v', "al7x".toList, by decide, by decide⟩
      all := List.all_eq_true.1 (by decide)
      left := by rintro _ ⟨rfl⟩; rfl
      right := by rintro _ ⟨rfl⟩; rfl }
  exact ⟨hplain, hsource, hword, lexemes_word mixedWords hplain _ _ _ hsource hword⟩

/-- The word `if1` is not read whole: the letters are reserved, and a number is left. -/
theorem reservedWord_splits :
    (∀ c ∈ "if1".toList, IsPlain c) ∧ IsWord [] "if1".toList [] ∧
      lexemes "if1" = [⟨.keyword .ifKw, ⟨0, 2⟩, "if"⟩, ⟨.int 1, ⟨2, 3⟩, "1"⟩] ∧
      ¬ ∃ front back,
        lexemes "if1" = front ++ [⟨.ofWord "if1".toList, ⟨0, 3⟩, "if1"⟩] ++ back := by
  have hread : lexemes "if1" = [⟨.keyword .ifKw, ⟨0, 2⟩, "if"⟩, ⟨.int 1, ⟨2, 3⟩, "1"⟩] := by
    decide +kernel
  have halnum : ∀ c ∈ "if1".toList, c.isAlphanum = true := List.all_eq_true.1 (by decide)
  refine ⟨fun c hc => .inl (halnum c hc), ?_, hread, ?_⟩
  · exact ⟨⟨'i', "f1".toList, by decide, by decide⟩, halnum, nofun, nofun⟩
  rintro ⟨front, back, hwhole⟩
  have hmem : (⟨.ofWord "if1".toList, ⟨0, 3⟩, "if1"⟩ : Lexeme) ∈ lexemes "if1" := by
    rw [hwhole]
    simp
  rw [hread] at hmem
  exact absurd hmem (by decide +kernel)

end Scan

end Scriptlet
