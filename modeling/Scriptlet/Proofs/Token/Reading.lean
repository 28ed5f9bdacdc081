import Mathlib.Data.List.TakeWhile
import Scriptlet.Token.Scan
import Scriptlet.Token.Spelling

/-!
# Written tokens are read back

A token that is written and followed by a space or by nothing is read back whole.  So tokens written
with a space between any two are read back one by one, each from where it was written:
`Scan.lexemes_spellAll`.
-/

namespace Scriptlet.Token

/-! ## Tokens that can be written -/

instance (cs : List Char) : Decidable (FreeWord cs) := inferInstanceAs (Decidable (_ ∧ _ ∧ _))

theorem isName_iff (name : String) : IsName name ↔
    name.toList.head?.any Char.isAlpha = true ∧ name.toList.tail.all Char.isAlphanum = true ∧
      FreeWord name.toList := by
  constructor
  · rintro ⟨c, cs, hcons, hc, hcs, hfree⟩
    exact ⟨by simpa [hcons] using hc, by simpa [hcons] using hcs, hfree⟩
  · rintro ⟨hhead, hcs, hfree⟩
    cases hname : name.toList with
    | nil => simp [hname] at hhead
    | cons c cs =>
      rw [hname] at hhead hcs
      exact ⟨c, cs, hname, hhead, hcs, hfree⟩

instance (name : String) : Decidable (IsName name) := decidable_of_iff' _ (isName_iff name)

instance : DecidablePred IsWritable
  | .ident name => inferInstanceAs (Decidable (IsName name))
  | .int n => Nat.decLe n Literal.maxInt
  | .unexpected => inferInstanceAs (Decidable False)
  | .newline | .symbol _ | .str _ | .char _ | .bool _ | .andOp | .orOp | .rangeOp | .keyword _ =>
    inferInstanceAs (Decidable True)

/-- Tokens where they stand if they are written from `pos` on, with a space between any two. -/
def placed (pos : Nat) : List Token → List Lexeme
  | [] => []
  | t :: ts =>
    ⟨t, ⟨pos, pos + t.spell.length⟩, String.ofList t.spell⟩ :: placed (pos + t.spell.length + 1) ts

theorem token_placed (pos : Nat) (ts : List Token) : (placed pos ts).map Lexeme.token = ts := by
  induction ts generalizing pos with
  | nil => rfl
  | cons t ts ih => rw [placed, List.map_cons, ih]

end Scriptlet.Token

namespace Scriptlet.Scan

/-- A text that is empty or starts with a space. -/
def Spaced (rest : List Char) : Prop := ∀ c, rest.head? = some c → c = ' '

theorem spaced_nil : Spaced [] := fun _ h => by cases h

theorem spaced_cons (cs : List Char) : Spaced (' ' :: cs) := fun _ h => (Option.some.inj h).symm

/-- A run of characters ends at the latest before a character that does not belong to it. -/
theorem takeWhile_append_of_head {p : Char → Bool} {rest : List Char}
    (hrest : ∀ c ∈ rest.head?, p c = false) (cs : List Char) :
    (cs ++ rest).takeWhile p = cs.takeWhile p := by
  induction cs with
  | nil =>
    cases rest with
    | nil => rfl
    | cons c rest => simp [hrest c rfl]
  | cons c cs ih =>
    rw [List.cons_append, List.takeWhile_cons, List.takeWhile_cons, ih]

/-- What a space does not belong to ends before a space. -/
theorem Spaced.head {p : Char → Bool} (hp : p ' ' = false) {rest : List Char}
    (hrest : Spaced rest) : ∀ c ∈ rest.head?, p c = false := by
  intro c hc
  rw [hrest c hc, hp]

theorem run_append_of_head {p : Char → Bool} {rest : List Char}
    (hrest : ∀ c ∈ rest.head?, p c = false) {cs : List Char} (hcs : ∀ c ∈ cs, p c = true) :
    run p (cs ++ rest) = cs.length := by
  rw [run, takeWhile_append_of_head hrest, List.takeWhile_eq_self_iff.2 hcs]

theorem word_append_of_head {rest : List Char} (hrest : ∀ c ∈ rest.head?, c.isAlpha = false)
    (cs : List Char) : word (cs ++ rest) = word cs := by
  rw [word, word, takeWhile_append_of_head hrest]

/-! ## Matchers that do not apply -/

theorem punct?_eq_none {c : Char} (hc : c.isAlphanum = true) (cs : List Char) :
    punct? (c :: cs) = none := by
  have hfind : Punct.ofChar? c = none := by
    rw [Punct.ofChar?, List.find?_eq_none]
    intro p _ hp
    obtain rfl : p.char = c := by simpa using hp
    cases p <;> exact absurd hc (by decide)
  rw [punct?, hfind]
  rfl

theorem word_eq_empty {c : Char} (hc : c.isAlpha = false) (cs : List Char) :
    word (c :: cs) = "" := by
  simp [word, hc]

theorem keyword?_eq_none {c : Char} (hc : c.isAlpha = false) (cs : List Char) :
    keyword? (c :: cs) = none := by
  rw [keyword?, word_eq_empty hc]
  rfl

theorem bool?_eq_none {c : Char} (hc : c.isAlpha = false) (cs : List Char) :
    bool? (c :: cs) = none := by
  rw [bool?, word_eq_empty hc]
  rfl

theorem comment?_eq_none {c : Char} (hc : c ≠ '/') (cs : List Char) :
    comment? (c :: cs) = none := by
  unfold comment?
  split <;> simp_all

theorem char?_eq_none {c : Char} (hc : c ≠ '\'') (cs : List Char) :
    char? (c :: cs) = none := by
  unfold char?
  split <;> simp_all

theorem ident?_eq_none {c : Char} (hc : c.isAlphanum = false) (cs : List Char) :
    ident? (c :: cs) = none := by
  simp [ident?, hc]

theorem int?_eq_none {c : Char} (hc : Literal.isDigitOrMark c = false) (cs : List Char) :
    int? (c :: cs) = none := by
  simp [int?, run, hc]

/-- What no word and no symbol starts with is left to the later matchers. -/
theorem recognise?_of_mark {c : Char} (hslash : c ≠ '/') (hpunct : Punct.ofChar? c = none)
    (halnum : c.isAlphanum = false) (hmark : Literal.isDigitOrMark c = false) (cs : List Char) :
    recognise? (c :: cs) = (char? (c :: cs)).or ((newline? (c :: cs)).or
      ((operator? (c :: cs)).or ((str? (c :: cs)).or (spaces? (c :: cs))))) := by
  have halpha : c.isAlpha = false := by
    rw [Char.isAlphanum, Bool.or_eq_false_iff] at halnum
    exact halnum.1
  have hpunct' : punct? (c :: cs) = none := by
    rw [punct?, hpunct]
    rfl
  simp only [recognise?, matchers, List.findSome?_cons, List.findSome?_nil,
    comment?_eq_none hslash, hpunct', keyword?_eq_none halpha, bool?_eq_none halpha,
    ident?_eq_none halnum, int?_eq_none hmark]
  cases char? (c :: cs) <;> cases newline? (c :: cs) <;> cases operator? (c :: cs) <;>
    cases str? (c :: cs) <;> cases spaces? (c :: cs) <;> rfl

/-! ## Symbols -/

theorem ofChar?_char (p : Punct) : Punct.ofChar? p.char = some p := by
  cases p <;> decide

/-- Behind a slash stands neither another one nor a star: these would start a comment. -/
theorem recognise?_symbol (p : Punct) {rest : List Char}
    (hrest : p = .slash → ∀ c ∈ rest.head?, c ≠ '/' ∧ c ≠ '*') :
    recognise? (p.char :: rest) = some (.token (.symbol p), 1) := by
  have hcomment : comment? (p.char :: rest) = none := by
    by_cases hp : p = .slash
    · subst hp
      cases rest with
      | nil => rfl
      | cons c rest =>
        obtain ⟨hslash, hstar⟩ := hrest rfl c rfl
        unfold comment?
        split <;> simp_all [Punct.char]
    · refine comment?_eq_none (fun hslash => hp ?_) rest
      have hfound : Punct.ofChar? '/' = some p := hslash ▸ ofChar?_char p
      exact (Option.some.inj hfound).symm
  simp only [recognise?, matchers, List.findSome?_cons, hcomment, punct?, ofChar?_char,
    Option.map_some]

/-! ## Words -/

theorem isDigit_eq_false {c : Char} (hc : c.isAlpha = true) : c.isDigit = false := by
  have hrange : 65 ≤ c.toNat := by
    rcases Bool.or_eq_true_iff.1 hc with hupper | hlower
    · exact UInt32.le_iff_toNat_le.1 (of_decide_eq_true hupper).1
    · exact Nat.le_trans (by decide)
        (UInt32.le_iff_toNat_le.1 (of_decide_eq_true (Bool.and_eq_true_iff.1 hlower).1))
  refine Bool.eq_false_iff.2 fun hdigit => ?_
  have hle : c.toNat ≤ 57 := (Char.isDigit_iff_toNat.1 hdigit).2
  omega

theorem ne_of_isAlphanum {c d : Char} (hc : c.isAlphanum = true) (hd : d.isAlphanum = false) :
    c ≠ d := by
  intro h
  rw [h, hd] at hc
  cases hc

/-- A text that starts with a letter is no comment and no symbol. -/
theorem recognise?_of_letter {c : Char} (hc : c.isAlpha = true) (cs : List Char) :
    recognise? (c :: cs) = (keyword? (c :: cs)).or ((bool? (c :: cs)).or (ident? (c :: cs))) := by
  have halnum : c.isAlphanum = true := by
    rw [Char.isAlphanum, hc]
    rfl
  have hslash : c ≠ '/' := ne_of_isAlphanum halnum (by decide)
  have hquote : c ≠ '\'' := ne_of_isAlphanum halnum (by decide)
  -- A name is found at the latest, so what comes behind names in `matchers` plays no part.
  have hident : ∃ found, ident? (c :: cs) = some found := by
    simp [ident?, halnum, isDigit_eq_false hc]
  obtain ⟨found, hfound⟩ := hident
  simp only [recognise?, matchers, List.findSome?_cons, comment?_eq_none hslash,
    punct?_eq_none halnum, char?_eq_none hquote, hfound]
  cases keyword? (c :: cs) <;> cases bool? (c :: cs) <;> rfl

theorem recognise?_of_first {cs : List Char} (hcs : ∃ c ds, cs = c :: ds ∧ c.isAlpha = true)
    (rest : List Char) :
    recognise? (cs ++ rest) =
      (keyword? (cs ++ rest)).or ((bool? (cs ++ rest)).or (ident? (cs ++ rest))) := by
  obtain ⟨c, ds, rfl, hc⟩ := hcs
  exact recognise?_of_letter hc (ds ++ rest)

theorem recognise?_keyword (k : Keyword) {rest : List Char}
    (hrest : ∀ c ∈ rest.head?, c.isAlpha = false) :
    recognise? (k.spelling.toList ++ rest) =
      some (.token (.keyword k), k.spelling.toList.length) := by
  have hall : k.spelling.toList.all Char.isAlpha = true := by
    cases k <;> decide
  have hletters := List.all_eq_true.1 hall
  have hfind : Keyword.ofSpelling? k.spelling = some k := by
    cases k <;> decide
  -- The whole run of letters decides, so it matters that no letter follows.
  have hword : word (k.spelling.toList ++ rest) = k.spelling := by
    rw [word_append_of_head hrest, word, List.takeWhile_eq_self_iff.2 hletters, String.ofList_toList]
  have hkeyword : keyword? (k.spelling.toList ++ rest) =
      some (.token (.keyword k), k.spelling.toList.length) := by
    rw [keyword?, hword, hfind, run_append_of_head hrest hletters]
    rfl
  have hne : k.spelling.toList ≠ [] := by
    cases k <;> decide
  obtain ⟨c, cs, hcons⟩ := List.exists_cons_of_ne_nil hne
  have hc : c.isAlpha = true := hletters c (by rw [hcons]; exact List.mem_cons_self)
  rw [recognise?_of_first ⟨c, cs, hcons, hc⟩, hkeyword]
  rfl

theorem recognise?_bool (b : Bool) {rest : List Char}
    (hrest : ∀ c ∈ rest.head?, c.isAlpha = false) :
    recognise? ((Token.bool b).spell ++ rest) =
      some (.token (.bool b), (Token.bool b).spell.length) := by
  have hword : word ((Token.bool b).spell ++ rest) = if b then "true" else "false" := by
    rw [word_append_of_head hrest]
    cases b <;> decide
  have hkeyword : keyword? ((Token.bool b).spell ++ rest) = none := by
    rw [keyword?, hword]
    cases b <;> rfl
  have hbool : bool? ((Token.bool b).spell ++ rest) =
      some (.token (.bool b), (Token.bool b).spell.length) := by
    rw [bool?, hword]
    cases b <;> rfl
  have hfirst : ∃ c cs, (Token.bool b).spell = c :: cs ∧ c.isAlpha = true := by
    cases b with
    | true => exact ⟨'t', ['r', 'u', 'e'], by decide, by decide⟩
    | false => exact ⟨'f', ['a', 'l', 's', 'e'], by decide, by decide⟩
  rw [recognise?_of_first hfirst, hkeyword, hbool]
  rfl

theorem recognise?_ident {name : String} (hname : Token.IsName name) {rest : List Char}
    (hrest : ∀ c ∈ rest.head?, c.isAlphanum = false) :
    recognise? (name.toList ++ rest) = some (.token (.ident name), name.toList.length) := by
  obtain ⟨c, cs, hcons, hc, hcs, hkeyword, htrue, hfalse⟩ := hname
  have halnum : ∀ d ∈ name.toList, d.isAlphanum = true := by
    rw [hcons]
    intro d hd
    rcases List.mem_cons.1 hd with rfl | hd
    · rw [Char.isAlphanum, hc]
      rfl
    · exact List.all_eq_true.1 hcs d hd
  have hletter : ∀ c ∈ rest.head?, c.isAlpha = false := fun c hc =>
    (Bool.or_eq_false_iff.1 (hrest c hc)).1
  have hkeyword? : keyword? (name.toList ++ rest) = none := by
    rw [keyword?, word_append_of_head hletter, word, hkeyword]
    rfl
  have hbool? : bool? (name.toList ++ rest) = none := by
    rw [bool?, word_append_of_head hletter, word, if_neg htrue, if_neg hfalse]
  have hident? : ident? (name.toList ++ rest) =
      some (.token (.ident name), name.toList.length) := by
    rw [ident?, takeWhile_append_of_head hrest, List.takeWhile_eq_self_iff.2 halnum]
    have htext : String.ofList (c :: cs) = name := by rw [← hcons, String.ofList_toList]
    simp only [hcons, isDigit_eq_false hc, Bool.false_eq_true, if_false, htext, List.length_cons]
  rw [recognise?_of_first ⟨c, cs, hcons, hc⟩, hkeyword?, hbool?, hident?]
  rfl

/-! ## Numbers -/

theorem toNat_bounds_of_isDigit {c : Char} (hc : c.isDigit = true) :
    ('0' ≤ c ∧ c ≤ '9') ∧ 48 ≤ c.toNat ∧ c.toNat ≤ 57 := by
  have hbounds : '0' ≤ c ∧ c ≤ '9' := by
    simp only [Char.isDigit, Bool.and_eq_true, decide_eq_true_eq, ge_iff_le] at hc
    exact hc
  exact ⟨hbounds, hbounds.1, hbounds.2⟩

theorem digit?_of_isDigit {c : Char} (hc : c.isDigit = true) {base : Nat} (hbase : 10 ≤ base) :
    Literal.digit? base c = some (c.toNat - '0'.toNat) := by
  obtain ⟨hbounds, hlo, hhi⟩ := toNat_bounds_of_isDigit hc
  have hlt : c.toNat - '0'.toNat < base := by
    show c.toNat - 48 < base
    omega
  simp only [Literal.digit?, hbounds, and_self, if_true, hlt]

theorem isDigitOrMark_of_isDigit {c : Char} (hc : c.isDigit = true) :
    Literal.isDigitOrMark c = true := by
  rw [Literal.isDigitOrMark, digit?_of_isDigit hc (by decide)]
  rfl

/-- Digits denote the number that is written with them. -/
theorem number?_of_digits {ds : List Char} (hds : ∀ c ∈ ds, c.isDigit = true) (hne : ds ≠ []) :
    Literal.number? 10 ds = some (Nat.ofDigitChars 10 ds 0) := by
  have hfold : ∀ acc, ds.foldl
      (fun acc c => acc.bind fun n => (Literal.digit? 10 c).map (n * 10 + ·)) (some acc) =
        some (Nat.ofDigitChars 10 ds acc) := by
    clear hne
    induction ds with
    | nil => intro acc; simp
    | cons c ds ih =>
      intro acc
      have hc := digit?_of_isDigit (hds c List.mem_cons_self) (Nat.le_refl 10)
      rw [List.foldl_cons, Option.bind_some, hc, Option.map_some,
        ih fun d hd => hds d (List.mem_cons_of_mem _ hd), Nat.ofDigitChars_cons, Nat.mul_comm]
  rw [Literal.number?, if_neg (by simpa using hne), hfold]

theorem literal_int?_toDigits {n : Nat} (hn : n ≤ Literal.maxInt) :
    Literal.int? (Nat.toDigits 10 n) = some n := by
  have hds : ∀ c ∈ Nat.toDigits 10 n, c.isDigit = true :=
    fun c hc => Nat.isDigit_of_mem_toDigits (by decide) (by decide) hc
  have hlen : (Nat.toDigits 10 n).length ≤ Literal.maxDecimalDigits := by
    have hten : (Nat.toDigits 10 n).length ≤ 10 := by
      rw [Nat.length_toDigits_le_iff (by decide) (by decide)]
      exact Nat.lt_of_le_of_lt hn (by decide)
    exact Nat.le_trans hten (by decide)
  have hdecimal : Literal.decimal? (Nat.toDigits 10 n) = some n := by
    rw [Literal.decimal?, if_pos hlen, number?_of_digits hds Nat.toDigits_ne_nil,
      Nat.ofDigitChars_ten_toDigits]
  -- Digits alone hold no mark of another base.
  have hmarks : ∀ c d ds, Nat.toDigits 10 n = c :: d :: ds → d ≠ 'x' ∧ d ≠ 'b' := by
    intro c d ds h
    have hd := hds d (by simp [h])
    constructor <;> rintro rfl <;> exact absurd hd (by decide)
  unfold Literal.int?
  split
  · rename_i ds hcons
    exact absurd rfl (hmarks _ _ _ hcons).1
  · rename_i ds hcons
    exact absurd rfl (hmarks _ _ _ hcons).2
  · rw [hdecimal, Option.filter_some, if_pos (by simpa using hn)]

/-- Where a digit stands, only a number can be read. -/
theorem recognise?_of_digit {c : Char} {cs : List Char} {found : Found} (hc : c.isDigit = true)
    (hint : int? (c :: cs) = some found) : recognise? (c :: cs) = some found := by
  have halpha : c.isAlpha = false := by
    refine Bool.eq_false_iff.2 fun hletter => ?_
    rw [isDigit_eq_false hletter] at hc
    cases hc
  have halnum : c.isAlphanum = true := by rw [Char.isAlphanum, hc, Bool.or_true]
  have hslash : c ≠ '/' := ne_of_isAlphanum halnum (by decide)
  have hquote : c ≠ '\'' := ne_of_isAlphanum halnum (by decide)
  -- A name may hold digits but does not start with one.
  have hident : ident? (c :: cs) = none := by simp [ident?, halnum, hc]
  simp only [recognise?, matchers, List.findSome?_cons, comment?_eq_none hslash,
    punct?_eq_none halnum, keyword?_eq_none halpha, bool?_eq_none halpha, char?_eq_none hquote,
    hident, hint]

theorem recognise?_int {n : Nat} (hn : n ≤ Literal.maxInt) {rest : List Char}
    (hrest : Spaced rest) :
    recognise? (Nat.toDigits 10 n ++ rest) =
      some (.token (.int n), (Nat.toDigits 10 n).length) := by
  have hds : ∀ c ∈ Nat.toDigits 10 n, c.isDigit = true :=
    fun c hc => Nat.isDigit_of_mem_toDigits (by decide) (by decide) hc
  have hrun : run Literal.isDigitOrMark (Nat.toDigits 10 n ++ rest) =
      (Nat.toDigits 10 n).length :=
    run_append_of_head (hrest.head (by decide)) fun c hc => isDigitOrMark_of_isDigit (hds c hc)
  -- Nothing is glued to the digits: a space follows, or the end.
  have hglued : run Char.isAlphanum ([] ++ rest) = 0 :=
    run_append_of_head (hrest.head (by decide)) fun c hc => by cases hc
  rw [List.nil_append] at hglued
  have hint : int? (Nat.toDigits 10 n ++ rest) =
      some (.token (.int n), (Nat.toDigits 10 n).length) := by
    simp only [int?, hrun, List.drop_left, List.take_left, hglued, literal_int?_toDigits hn]
    rw [if_neg (by simp [Nat.toDigits_ne_nil])]
  obtain ⟨c, cs, hcons⟩ := List.exists_cons_of_ne_nil (Nat.toDigits_ne_nil (n := n) (b := 10))
  rw [hcons] at hds hint ⊢
  exact recognise?_of_digit (hds c List.mem_cons_self) hint

/-! ## Quotes and marks -/

/-- Any character but a backslash stands for itself, and the quote for the end. -/
theorem quoted?_cons {q c : Char} (hc : c ≠ '\\') (cs : List Char) :
    Literal.quoted? q (c :: cs) =
      if c = q then some (some [], 1)
      else (Literal.quoted? q cs).map fun r => (r.1.map (c :: ·), r.2 + 1) := by
  rw [Literal.quoted?.eq_def]
  simp only [hc, if_false]

/-- What stands between two quotes is decoded to what was written there. -/
theorem quoted?_spell {q : Char} (hq : q = '"' ∨ q = '\'') (cs rest : List Char) :
    Literal.quoted? q (cs.flatMap (Token.spellChar q) ++ q :: rest) =
      some (some cs, (cs.flatMap (Token.spellChar q)).length + 1) := by
  have hbackslash : q ≠ '\\' := by
    rcases hq with rfl | rfl <;> decide
  induction cs with
  | nil => simp [quoted?_cons hbackslash]
  | cons c cs ih =>
    rw [List.flatMap_cons, List.append_assoc]
    -- Only the quote and the backslash are written with a backslash before them.
    by_cases hc : c = q ∨ c = '\\'
    · have hunescape : Literal.unescape? c = some c := by
        rcases hc with rfl | rfl
        · rcases hq with rfl | rfl <;> decide
        · decide
      simp [Token.spellChar, hc, Literal.quoted?, ih, hunescape]
    · obtain ⟨hcq, hcb⟩ := not_or.1 hc
      have hspell : Token.spellChar q c = [c] := if_neg hc
      rw [hspell, List.singleton_append, quoted?_cons hcb, if_neg hcq, ih]
      simp

theorem recognise?_str (text : String) (rest : List Char) :
    recognise? ((Token.str text).spell ++ rest) =
      some (.token (.str text), (Token.str text).spell.length) := by
  have hquoted := quoted?_spell (.inl rfl) text.toList rest
  have hspell : (Token.str text).spell ++ rest =
      '"' :: (text.toList.flatMap (Token.spellChar '"') ++ '"' :: rest) := by
    simp [Token.spell, Token.spellQuoted]
  rw [hspell, recognise?_of_mark (by decide) (by decide) (by decide) (by decide)]
  simp [char?, newline?, operator?, str?, hquoted, Token.spell, Token.spellQuoted]

theorem recognise?_char (c : Char) (rest : List Char) :
    recognise? ((Token.char c).spell ++ rest) =
      some (.token (.char c), (Token.char c).spell.length) := by
  have hquoted := quoted?_spell (.inr rfl) [c] rest
  have hspell : (Token.char c).spell ++ rest =
      '\'' :: ([c].flatMap (Token.spellChar '\'') ++ '\'' :: rest) := by
    simp [Token.spell, Token.spellQuoted]
  rw [hspell, recognise?_of_mark (by decide) (by decide) (by decide) (by decide), char?, hquoted]
  simp [Token.spell, Token.spellQuoted]

/-- A written token is recognised where it stands. -/
theorem recognise?_spell {t : Token} (ht : t.IsWritable) {rest : List Char} (hrest : Spaced rest) :
    recognise? (t.spell ++ rest) = some (.token t, t.spell.length) := by
  cases t with
  | newline => exact recognise?_of_mark (by decide) (by decide) (by decide) (by decide) rest
  | ident name => exact recognise?_ident ht (hrest.head (by decide))
  | symbol p =>
    refine recognise?_symbol p fun _ c hc => ?_
    obtain rfl : c = ' ' := hrest c hc
    decide
  | str text => exact recognise?_str text rest
  | char c => exact recognise?_char c rest
  | int n => exact recognise?_int ht hrest
  | bool b => exact recognise?_bool b (hrest.head (by decide))
  | andOp => exact recognise?_of_mark (by decide) (by decide) (by decide) (by decide) ('&' :: rest)
  | orOp => exact recognise?_of_mark (by decide) (by decide) (by decide) (by decide) ('|' :: rest)
  | rangeOp => exact recognise?_of_mark (by decide) (by decide) (by decide) (by decide) ('.' :: rest)
  | keyword k => exact recognise?_keyword k (hrest.head (by decide))
  | unexpected => exact absurd ht id

/-! ## Whole texts -/

theorem spell_ne_nil {t : Token} (ht : t.IsWritable) : t.spell ≠ [] := by
  cases t with
  | ident name =>
    obtain ⟨c, cs, hcons, -⟩ := ht
    simp [Token.spell, hcons]
  | int n => exact Nat.toDigits_ne_nil
  | bool b => cases b <;> decide
  | keyword k => cases k <;> decide
  | unexpected => exact absurd ht id
  | str _ | char _ => simp [Token.spell, Token.spellQuoted]
  | _ => simp [Token.spell]

theorem recognise?_space (cs : List Char) :
    recognise? (' ' :: cs) = some (.blank, run (· = ' ') cs + 1) := by
  rw [recognise?_of_mark (by decide) (by decide) (by decide) (by decide)]
  simp [char?, newline?, operator?, str?, spaces?, run]

/-- No written token starts with a space. -/
theorem run_space_spell {t : Token} (ht : t.IsWritable) {rest : List Char} (hrest : Spaced rest) :
    run (· = ' ') (t.spell ++ rest) = 0 := by
  have hfound := recognise?_spell ht hrest
  obtain ⟨c, cs, hcons⟩ := List.exists_cons_of_ne_nil (spell_ne_nil ht)
  rw [hcons, List.cons_append] at hfound ⊢
  -- A space would have been recognised as a blank.
  have hc : c ≠ ' ' := by
    rintro rfl
    rw [recognise?_space] at hfound
    cases hfound
  simp [run, hc]

theorem lexemesFrom_token {cs : List Char} {t : Token} {n pos : Nat}
    (hfound : recognise? cs = some (.token t, n)) (hne : cs ≠ []) (hn : 0 < n) :
    lexemesFrom cs pos 0 = ⟨t, ⟨pos, pos + n⟩, String.ofList (cs.take n)⟩ ::
      lexemesFrom (cs.drop n) (pos + n) 0 := by
  obtain ⟨c, cs, rfl⟩ := List.exists_cons_of_ne_nil hne
  obtain ⟨n, rfl⟩ := Nat.exists_eq_add_one_of_ne_zero (Nat.ne_of_gt hn)
  have hnext : next (c :: cs) = (.token t, n + 1) := by
    rw [next, hfound, Option.getD_some]
  have hpos : pos + 1 + n = pos + (n + 1) := by omega
  rw [lexemesFrom, hnext]
  simp only [Nat.add_sub_cancel, List.drop_succ_cons]
  rw [lexemesFrom_skip, hpos]

theorem lexemesFrom_space {cs : List Char} {pos : Nat} (hcs : run (· = ' ') cs = 0) :
    lexemesFrom (' ' :: cs) pos 0 = lexemesFrom cs (pos + 1) 0 := by
  have hnext : next (' ' :: cs) = (.blank, 1) := by
    rw [next, recognise?_space, hcs, Option.getD_some]
  rw [lexemesFrom, hnext]

theorem spellAll_cons_cons (t u : Token) (ts : List Token) :
    Token.spellAll (t :: u :: ts) = t.spell ++ ' ' :: Token.spellAll (u :: ts) := by
  simp [Token.spellAll, List.intercalate]

theorem spellAll_cons (t : Token) (ts : List Token) :
    ∃ rest, Token.spellAll (t :: ts) = t.spell ++ rest ∧ Spaced rest := by
  cases ts with
  | nil => exact ⟨[], by simp [Token.spellAll, List.intercalate], spaced_nil⟩
  | cons u ts => exact ⟨_, spellAll_cons_cons t u ts, spaced_cons _⟩

/-- Tokens that are written with a space between any two are read back where they stand. -/
theorem lexemesFrom_spellAll {ts : List Token} (hts : ∀ t ∈ ts, t.IsWritable) (pos : Nat) :
    lexemesFrom (Token.spellAll ts) pos 0 = Token.placed pos ts := by
  induction ts generalizing pos with
  | nil => rfl
  | cons t ts ih =>
    obtain ⟨ht, hrest⟩ := List.forall_mem_cons.1 hts
    have hlen := List.length_pos_iff.2 (spell_ne_nil ht)
    obtain ⟨rest, hspell, hspaced⟩ := spellAll_cons t ts
    have hne : Token.spellAll (t :: ts) ≠ [] := by
      rw [hspell]
      exact List.append_ne_nil_of_left_ne_nil (spell_ne_nil ht) rest
    have hfound : recognise? (Token.spellAll (t :: ts)) = some (.token t, t.spell.length) := by
      rw [hspell]
      exact recognise?_spell ht hspaced
    have htake : (Token.spellAll (t :: ts)).take t.spell.length = t.spell := by
      rw [hspell, List.take_left]
    rw [lexemesFrom_token hfound hne hlen, htake, Token.placed]
    -- Behind the token stands the end, or one space and the next token.
    cases ts with
    | nil => simp [Token.spellAll, List.intercalate, lexemesFrom, Token.placed]
    | cons u ts =>
      obtain ⟨rest', hspell', hspaced'⟩ := spellAll_cons u ts
      have hrun : run (· = ' ') (Token.spellAll (u :: ts)) = 0 := by
        rw [hspell']
        exact run_space_spell (hrest u List.mem_cons_self) hspaced'
      rw [spellAll_cons_cons, List.drop_left, lexemesFrom_space hrun, ih hrest]

theorem lexemes_placed {ts : List Token} (hts : ∀ t ∈ ts, t.IsWritable) :
    lexemes (String.ofList (Token.spellAll ts)) = Token.placed 0 ts := by
  rw [lexemes, String.toList_ofList]
  exact lexemesFrom_spellAll hts 0

theorem tokens_lexemes_spellAll {ts : List Token} (hts : ∀ t ∈ ts, t.IsWritable) :
    (lexemes (String.ofList (Token.spellAll ts))).map Lexeme.token = ts := by
  rw [lexemes_placed hts, Token.token_placed]

/-- Reading undoes writing: tokens that are written with a space between any two are read back, these
and no others, each from the stretch of text in which it was written. -/
theorem lexemes_spellAll (ts : List Token) (hts : ∀ t ∈ ts, t.IsWritable) :
    (lexemes (String.ofList (Token.spellAll ts))).map Lexeme.token = ts ∧
      lexemes (String.ofList (Token.spellAll ts)) = Token.placed 0 ts :=
  ⟨tokens_lexemes_spellAll hts, lexemes_placed hts⟩

/-- Tokens of every kind, among them marks of comments, quotes and escapes inside of literals, and
names that start like a reserved word. -/
def everyToken : List Token :=
  [.symbol .slash, .symbol .slash, .symbol .star, .newline, .newline, .keyword .breakKw,
   .ident "breaks", .ident "x0b1", .int 0, .int 2147483647, .rangeOp, .andOp, .orOp, .bool true,
   .ident "trueish", .str "a\"b\\ // /* \n", .str "", .char '\'', .char '\\', .char '"',
   .char '\n']

theorem lexemes_spellAll_everyToken :
    (∀ t ∈ everyToken, t.IsWritable) ∧
      (lexemes (String.ofList (Token.spellAll everyToken))).map Lexeme.token = everyToken := by
  have hall : everyToken.all (fun t => decide t.IsWritable) = true := by
    decide +kernel
  have hwritable : ∀ t ∈ everyToken, t.IsWritable :=
    fun t ht => of_decide_eq_true (List.all_eq_true.1 hall t ht)
  exact ⟨hwritable, (lexemes_spellAll everyToken hwritable).1⟩

end Scriptlet.Scan
