import Scriptlet.Proofs.Token.LineEnds
import Scriptlet.Proofs.Token.Numerals

/-!
# What tokens look like

`Scan.Stands` lists the texts that a token is read from, and with each of them what may follow: a
name ends where no letter and no digit goes on with it, and a slash is a symbol only if it does not
start a comment.  The order in which matchers are tried plays no part in it.  It is exactly what is
read: `Scan.next_eq_token_iff`.
-/

namespace Scriptlet.Scan

open Text

/-- The token is read from `text` where `rest` follows. -/
inductive Stands : (text : List Char) → Token → (rest : List Char) → Prop
  /-- A line comment goes through the first line feed. -/
  | comment {line rest : List Char} : '\n' ∉ line →
      Stands ('/' :: '/' :: (line ++ ['\n'])) .newline rest
  /-- Where no line feed follows at all, the first carriage return ends it. -/
  | lastComment {line rest : List Char} : '\n' ∉ line → '\r' ∉ line → '\n' ∉ rest →
      Stands ('/' :: '/' :: (line ++ ['\r'])) .newline rest
  | lineFeed {rest : List Char} : Stands ['\n'] .newline rest
  | bothEnds {rest : List Char} : Stands ['\r', '\n'] .newline rest
  | lineReturn {rest : List Char} : rest.head? ≠ some '\n' → Stands ['\r'] .newline rest
  | symbol {p : Punct} {rest : List Char} :
      (p = .slash → ∀ c ∈ rest.head?, c ≠ '/' ∧ c ≠ '*') → Stands [p.char] (.symbol p) rest
  | keyword {k : Keyword} {rest : List Char} : (∀ c ∈ rest.head?, c.isAlpha = false) →
      Stands k.spelling.toList (.keyword k) rest
  | bool {b : Bool} {rest : List Char} : (∀ c ∈ rest.head?, c.isAlpha = false) →
      Stands (Token.bool b).spell (.bool b) rest
  | ident {name : String} {rest : List Char} : Token.IsName name →
      (∀ c ∈ rest.head?, c.isAlphanum = false) → Stands name.toList (.ident name) rest
  | int {c : Char} {cs rest : List Char} {n : Nat} : c.isDigit = true →
      Literal.int? (c :: cs) = some n → (∀ c ∈ rest.head?, c.isAlphanum = false) →
      Stands (c :: cs) (.int n) rest
  | char {cs rest : List Char} {c : Char} :
      Literal.quoted? '\'' cs = some (some [c], cs.length) → Stands ('\'' :: cs) (.char c) rest
  | str {cs rest contents : List Char} :
      Literal.quoted? '"' cs = some (some contents, cs.length) →
      Stands ('"' :: cs) (.str (String.ofList contents)) rest
  | andOp {rest : List Char} : Stands ['&', '&'] .andOp rest
  | orOp {rest : List Char} : Stands ['|', '|'] .orOp rest
  | rangeOp {rest : List Char} : Stands ['.', '.'] .rangeOp rest

variable {c : Char} {cs text rest : List Char} {t : Token}

/-! ## What is listed is read -/

/-- A quoted literal is read up to its closing quote, whatever follows. -/
theorem quoted?_take {q : Char} {contents : Option (List Char)} {n : Nat}
    (h : Literal.quoted? q cs = some (contents, n)) (rest : List Char) :
    Literal.quoted? q (cs.take n ++ rest) = some (contents, n) := by
  fun_induction Literal.quoted? q cs generalizing contents n with
  | case1 => cases h
  | case2 => cases h
  | case3 e behind ih =>
    -- a backslash and the character that it takes with it
    obtain ⟨⟨inner, m⟩, hm, hfound⟩ := Option.map_eq_some_iff.1 h
    obtain ⟨rfl, rfl⟩ := Prod.mk.inj hfound
    rw [List.take_succ_cons, List.take_succ_cons, List.cons_append, List.cons_append,
      Literal.quoted?, if_pos rfl]
    simp only [ih hm, Option.map_some]
  | case4 behind hq =>
    obtain ⟨rfl, rfl⟩ := Prod.mk.inj (Option.some.inj h)
    rw [List.take_succ_cons, List.cons_append, quoted?_cons hq, if_pos rfl]
  | case5 d behind hd hq ih =>
    obtain ⟨⟨inner, m⟩, hm, hfound⟩ := Option.map_eq_some_iff.1 h
    obtain ⟨rfl, rfl⟩ := Prod.mk.inj hfound
    rw [List.take_succ_cons, List.cons_append, quoted?_cons hd, if_neg hq, ih hm, Option.map_some]

theorem quoted?_append {q : Char} {contents : Option (List Char)}
    (h : Literal.quoted? q cs = some (contents, cs.length)) (rest : List Char) :
    Literal.quoted? q (cs ++ rest) = some (contents, cs.length) := by
  have htake := quoted?_take h rest
  rwa [List.take_length] at htake

theorem isDigitOrMark_eq_false (hc : c.isAlphanum = false) : Literal.isDigitOrMark c = false := by
  refine Bool.eq_false_iff.2 fun hmark => ?_
  rw [isAlphanum_of_isDigitOrMark hmark] at hc
  cases hc

theorem next_numeral {n : Nat} (hc : c.isDigit = true) (hint : Literal.int? (c :: cs) = some n)
    (hrest : ∀ d ∈ rest.head?, d.isAlphanum = false) :
    next (c :: cs ++ rest) = (.token (.int n), (c :: cs).length) := by
  have hdigits : run Literal.isDigitOrMark (c :: cs ++ rest) = (c :: cs).length :=
    run_append_of_head (fun d hd => isDigitOrMark_eq_false (hrest d hd))
      (isDigitOrMark_of_int? hint)
  have hglued : run Char.isAlphanum ([] ++ rest) = 0 :=
    run_append_of_head hrest fun d hd => nomatch hd
  have hbehind : (c :: (cs ++ rest)).drop (c :: cs).length = rest := List.drop_left
  have htext : (c :: (cs ++ rest)).take (c :: cs).length = c :: cs := List.take_left
  rw [List.cons_append, (next_of_digit hc).1, hbehind, htext]
  exact ⟨hdigits, hglued, hint⟩

/-- What is listed is read where it stands. -/
theorem Stands.next_eq (h : Stands text t rest) :
    next (text ++ rest) = (.token t, text.length) := by
  -- comments are tried first, so a comment is found whatever it consists of
  cases h with
  | @comment line rest hline =>
    have hfound : comment? ('/' :: '/' :: (line ++ '\n' :: rest)) =
        some (.token .newline, line.length + 3) := comment?_feed hline rest
    have htext : '/' :: '/' :: (line ++ ['\n']) ++ rest = '/' :: '/' :: (line ++ '\n' :: rest) := by
      simp
    rw [htext, next_of_recognise? ((recognise?_of_comment? (by simp [hfound])).trans hfound)]
    simp
  | @lastComment line rest hfeed hreturn hrest =>
    have hfound : comment? ('/' :: '/' :: (line ++ '\r' :: rest)) =
        some (.token .newline, line.length + 3) := comment?_return (by simp [hfeed, hrest]) hreturn
    have htext : '/' :: '/' :: (line ++ ['\r']) ++ rest = '/' :: '/' :: (line ++ '\r' :: rest) := by
      simp
    rw [htext, next_of_recognise? ((recognise?_of_comment? (by simp [hfound])).trans hfound)]
    simp
  | lineFeed => exact next_of_recognise? (recognise?_of_newline? (.inl rfl) rfl)
  | bothEnds => exact next_of_recognise? (recognise?_of_newline? (.inr rfl) rfl)
  | lineReturn hrest =>
    exact next_of_recognise? (recognise?_of_newline? (.inr rfl) (newline?_return hrest))
  | symbol hrest => exact next_of_recognise? (recognise?_symbol _ hrest)
  | keyword hrest => exact next_of_recognise? (recognise?_keyword _ hrest)
  | bool hrest => exact next_of_recognise? (recognise?_bool _ hrest)
  | ident hname hrest => exact next_of_recognise? (recognise?_ident hname hrest)
  | int hdigit hint hrest => exact next_numeral hdigit hint hrest
  | char hquoted =>
    apply next_of_recognise?
    rw [List.cons_append, recognise?_of_mark (by decide) (by decide) (by decide) (by decide), char?,
      quoted?_append hquoted]
    rfl
  | str hquoted =>
    apply next_of_recognise?
    rw [List.cons_append, recognise?_of_mark (by decide) (by decide) (by decide) (by decide)]
    simp [char?, newline?, operator?, str?, quoted?_append hquoted]
  | andOp | orOp | rangeOp =>
    apply next_of_recognise?
    exact recognise?_of_mark (by decide) (by decide) (by decide) (by decide) _

theorem stands_name (hc : c.isAlpha = true) (hcs : ∀ d ∈ cs, d.isAlphanum = true)
    (hfree : Token.FreeWord (c :: cs)) (hrest : ∀ d ∈ rest.head?, d.isAlphanum = false) :
    Stands (c :: cs) (.ident (String.ofList (c :: cs))) rest := by
  have hname : Token.IsName (String.ofList (c :: cs)) := by
    rw [Token.IsName, String.toList_ofList]
    exact ⟨c, cs, rfl, hc, List.all_eq_true.2 hcs, hfree⟩
  have hstands := Stands.ident hname hrest
  rwa [String.toList_ofList] at hstands

/-! ## What is read is listed -/

theorem eq_of_found {u : Token} {n m : Nat}
    (h : some (Piece.token u, n) = some (Piece.token t, m)) : u = t ∧ n = m := by
  obtain ⟨htoken, hlength⟩ := Prod.mk.inj (Option.some.inj h)
  exact ⟨Piece.token.inj htoken, hlength⟩

/-- Two answers at one place are about the same token, the same text and the same rest. -/
theorem eq_of_mark (mark : List Char) {behind : List Char} {u : Token}
    (htext : text ++ rest = mark ++ behind)
    (h : some (Piece.token u, mark.length) = some (Piece.token t, text.length)) :
    u = t ∧ text = mark ∧ rest = behind := by
  obtain ⟨htoken, hlength⟩ := eq_of_found h
  exact ⟨htoken, List.append_inj htext hlength.symm⟩

/-- What was read up to the closing quote does not depend on what follows. -/
theorem quoted?_of_append {q : Char} {contents : Option (List Char)}
    (h : Literal.quoted? q (cs ++ rest) = some (contents, cs.length)) :
    Literal.quoted? q cs = some (contents, cs.length) := by
  have htake := quoted?_take h []
  rwa [List.take_left, List.append_nil] at htake

/-- A run that takes a text, and nothing of what follows. -/
theorem of_run_append {p : Char → Bool} (h : run p (text ++ rest) = text.length) :
    (∀ d ∈ text, p d = true) ∧ ∀ d ∈ rest.head?, p d = false := by
  obtain ⟨-, htext, hrest⟩ := run_eq_iff.1 h
  rw [List.take_left] at htext
  refine ⟨htext, fun d hd => hrest d ?_⟩
  rw [List.getElem?_append_right (Nat.le_refl _), Nat.sub_self, ← List.head?_eq_getElem?]
  exact hd

/-- The word at the start of a text that is a run of letters is this text. -/
theorem word_of_run (h : run Char.isAlpha (text ++ rest) = text.length) :
    word (text ++ rest) = String.ofList text := by
  obtain ⟨htext, hrest⟩ := of_run_append h
  rw [word_append_of_head hrest, word, List.takeWhile_eq_self_iff.2 htext]

theorem run_of_word {w : String} (h : word cs = w) : run Char.isAlpha cs = w.toList.length := by
  rw [run, ← h, word, String.toList_ofList]

theorem stands_of_keyword? (h : keyword? (text ++ rest) = some (.token t, text.length)) :
    Stands text t rest := by
  obtain ⟨k, hk, hfound⟩ := Option.map_eq_some_iff.1 h
  obtain ⟨rfl, hrun⟩ := eq_of_found (congrArg some hfound)
  have hspelling : k.spelling = word (text ++ rest) := by simpa using List.find?_some hk
  rw [word_of_run hrun] at hspelling
  have htext : k.spelling.toList = text := by rw [hspelling, String.toList_ofList]
  exact htext ▸ .keyword (of_run_append hrun).2

theorem stands_of_bool? (h : bool? (text ++ rest) = some (.token t, text.length)) :
    Stands text t rest := by
  -- Each truth value is a word of as many letters as are taken.
  have hof : ∀ b : Bool, word (text ++ rest) = String.ofList (Token.bool b).spell →
      (Token.bool b).spell.length = text.length → Stands text (.bool b) rest := by
    intro b hword hlength
    have hrun := run_of_word hword
    rw [String.toList_ofList, hlength] at hrun
    rw [word_of_run hrun] at hword
    exact String.ofList_injective hword ▸ .bool (of_run_append hrun).2
  unfold bool? at h
  split at h
  · rename_i hword
    obtain ⟨rfl, hlength⟩ := eq_of_found h
    exact hof true hword hlength
  · split at h
    · rename_i hword
      obtain ⟨rfl, hlength⟩ := eq_of_found h
      exact hof false hword hlength
    · cases h

/-- A name, where the word that it starts with is neither reserved nor a truth value. -/
theorem stands_of_ident? (hc : c.isAlpha = true) (hkeyword : keyword? (c :: cs ++ rest) = none)
    (hbool : bool? (c :: cs ++ rest) = none)
    (h : ident? (c :: cs ++ rest) = some (.token t, (c :: cs).length)) :
    Stands (c :: cs) t rest := by
  have hrun : run Char.isAlphanum (c :: cs ++ rest) = (c :: cs).length := by
    rw [run]
    unfold ident? at h
    split at h
    · cases h
    · rename_i d ds htake
      split at h
      · cases h
      · rw [htake]
        exact (eq_of_found h).2
  obtain ⟨htext, hrest⟩ := of_run_append hrun
  have hletter : ∀ d ∈ rest.head?, d.isAlpha = false := fun d hd =>
    (Bool.or_eq_false_iff.1 (hrest d hd)).1
  have htake : (c :: cs ++ rest).takeWhile Char.isAlphanum = c :: cs := by
    rw [takeWhile_append_of_head hrest, List.takeWhile_eq_self_iff.2 htext]
  have htoken : Token.ident (String.ofList (c :: cs)) = t := by
    rw [ident?, htake] at h
    simp only [isDigit_eq_false hc, Bool.false_eq_true, if_false] at h
    exact (eq_of_found h).1
  have hfree : Token.FreeWord (c :: cs) := by
    rw [keyword?, word_append_of_head hletter, Option.map_eq_none_iff] at hkeyword
    rw [bool?, word_append_of_head hletter] at hbool
    refine ⟨hkeyword, fun hword => ?_, fun hword => ?_⟩
    · have htrue : word (c :: cs) = "true" := hword
      rw [if_pos htrue] at hbool
      cases hbool
    · have hfalse : word (c :: cs) = "false" := hword
      rw [hfalse] at hbool
      cases hbool
  rw [← htoken]
  exact stands_name hc (fun d hd => htext d (List.mem_cons_of_mem _ hd)) hfree hrest

theorem stands_of_letter (hc : c.isAlpha = true)
    (h : recognise? (c :: cs ++ rest) = some (.token t, (c :: cs).length)) :
    Stands (c :: cs) t rest := by
  rw [List.cons_append, recognise?_of_letter hc, ← List.cons_append] at h
  rcases Option.or_eq_some_iff.1 h with hkeyword | ⟨hkeyword, h⟩
  · exact stands_of_keyword? hkeyword
  rcases Option.or_eq_some_iff.1 h with hbool | ⟨hbool, hident⟩
  · exact stands_of_bool? hbool
  · exact stands_of_ident? hc hkeyword hbool hident

theorem stands_of_digit (hc : c.isDigit = true) (ht : t ≠ .unexpected)
    (h : next (c :: cs ++ rest) = (.token t, (c :: cs).length)) : Stands (c :: cs) t rest := by
  have hbehind : (c :: (cs ++ rest)).drop (c :: cs).length = rest := List.drop_left
  have htext : (c :: (cs ++ rest)).take (c :: cs).length = c :: cs := List.take_left
  rw [List.cons_append] at h
  obtain ⟨n, rfl⟩ : ∃ n, t = .int n := by
    by_contra hint
    have hstray : (next (c :: (cs ++ rest))).1 = .token .unexpected := by
      refine (next_of_digit hc).2 fun n hn => hint ⟨n, ?_⟩
      rw [h] at hn
      exact Piece.token.inj hn
    rw [h] at hstray
    exact ht (Piece.token.inj hstray)
  obtain ⟨-, hglued, hint⟩ := ((next_of_digit hc).1 n _).1 h
  rw [hbehind, ← List.nil_append rest] at hglued
  rw [htext] at hint
  exact .int hc hint (of_run_append hglued).2

/-- A line comment is a token if a line end stands behind its start. -/
theorem stands_of_lineComment {ds : List Char} (hbehind : cs ++ rest = '/' :: ds)
    (h : comment? ('/' :: '/' :: ds) = some (.token t, ('/' :: cs).length)) :
    Stands ('/' :: cs) t rest := by
  -- The comment and what follows it, once it is known how far the comment goes.
  have hsplit : ∀ {line behind : List Char} {e : Char}, ds = line ++ e :: behind →
      comment? ('/' :: '/' :: ds) = some (.token .newline, line.length + 3) →
      Token.newline = t ∧ '/' :: cs = '/' :: '/' :: (line ++ [e]) ∧ rest = behind := by
    intro line behind e hds hfound
    have hlength : ('/' :: '/' :: (line ++ [e])).length = line.length + 3 := by simp
    refine eq_of_mark _ ?_ (hlength ▸ hfound.symm.trans h)
    rw [List.cons_append, hbehind, hds]
    simp
  by_cases hfeed : '\n' ∈ ds
  · obtain ⟨line, behind, rfl, hline⟩ := List.eq_append_cons_of_mem hfeed
    obtain ⟨rfl, htext, rfl⟩ := hsplit rfl (comment?_feed hline behind)
    rw [htext]
    exact .comment hline
  · by_cases hreturn : '\r' ∈ ds
    · obtain ⟨line, behind, rfl, hline⟩ := List.eq_append_cons_of_mem hreturn
      obtain ⟨rfl, htext, rfl⟩ := hsplit rfl (comment?_return hfeed hline)
      rw [htext]
      exact .lastComment (fun hmem => hfeed (by simp [hmem])) hline
        fun hmem => hfeed (by simp [hmem])
    · rw [comment?_last hfeed hreturn] at h
      cases h

theorem stands_of_slash (ht : t ≠ .unexpected)
    (h : recognise? ('/' :: cs ++ rest) = some (.token t, ('/' :: cs).length)) :
    Stands ('/' :: cs) t rest := by
  by_cases hcomment : comment? ('/' :: cs ++ rest) = none
  · -- No comment starts here, so the slash is taken alone.
    have hfound : recognise? ('/' :: cs ++ rest) = some (.token (.symbol .slash), 1) := by
      simp only [recognise?, matchers, List.findSome?_cons, hcomment]
      rfl
    obtain ⟨rfl, hlength⟩ := eq_of_found (hfound.symm.trans h)
    obtain rfl : cs = [] := List.length_eq_zero_iff.1 (Nat.succ.inj hlength).symm
    refine .symbol (p := .slash) fun _ d hd => ?_
    obtain ⟨ds, rfl⟩ := List.head?_eq_some_iff.1 hd
    have hmarks := comment?_eq_none_iff.1 hcomment ds
    constructor
    · rintro rfl
      exact hmarks.2 rfl
    · rintro rfl
      exact hmarks.1 rfl
  · -- A comment starts here, and a line comment is the only one that is a token.
    rw [recognise?_of_comment? hcomment] at h
    rcases hbehind : cs ++ rest with _ | ⟨d, ds⟩
    · rw [List.cons_append, hbehind] at hcomment
      exact absurd rfl hcomment
    rw [List.cons_append, hbehind] at h hcomment
    by_cases hd : d = '/'
    · subst hd
      exact stands_of_lineComment hbehind h
    · -- A block comment is no token, whether it is closed or not.
      by_cases hstar : d = '*'
      · subst hstar
        rw [comment?] at h
        split at h
        · cases h
        · exact absurd (eq_of_found h).1.symm ht
      · refine absurd (comment?_eq_none_iff.2 fun es => ⟨?_, ?_⟩) hcomment
        · rintro ⟨⟩
          exact hstar rfl
        · rintro ⟨⟩
          exact hd rfl

theorem stands_of_char? (ht : t ≠ .unexpected)
    (h : char? (c :: cs ++ rest) = some (.token t, (c :: cs).length)) : Stands (c :: cs) t rest := by
  by_cases hc : c = '\''
  · subst hc
    rw [List.cons_append, char?] at h
    split at h
    · rename_i d n hquoted
      obtain ⟨rfl, hlength⟩ := eq_of_found h
      rw [Nat.succ.inj hlength] at hquoted
      exact .char (quoted?_of_append hquoted)
    · exact absurd (eq_of_found h).1.symm ht
    · exact absurd (eq_of_found h).1.symm ht
  · rw [List.cons_append, char?_eq_none hc] at h
    cases h

theorem stands_of_str? (ht : t ≠ .unexpected)
    (h : str? (c :: cs ++ rest) = some (.token t, (c :: cs).length)) : Stands (c :: cs) t rest := by
  by_cases hc : c = '"'
  · subst hc
    rw [List.cons_append, str?] at h
    split at h
    · rename_i contents n hquoted
      obtain ⟨rfl, hlength⟩ := eq_of_found h
      rw [Nat.succ.inj hlength] at hquoted
      exact .str (quoted?_of_append hquoted)
    · exact absurd (eq_of_found h).1.symm ht
    · exact absurd (eq_of_found h).1.symm ht
  · rw [List.cons_append, str?_eq_none hc] at h
    cases h

theorem stands_of_newline? (h : newline? (text ++ rest) = some (.token t, text.length)) :
    Stands text t rest := by
  unfold newline? at h
  split at h
  · rename_i ds htext
    obtain ⟨rfl, rfl, rfl⟩ := eq_of_mark ['\r', '\n'] htext h
    exact .bothEnds
  · rename_i ds hpair htext
    obtain ⟨rfl, rfl, rfl⟩ := eq_of_mark ['\r'] htext h
    refine .lineReturn fun hhead => ?_
    obtain ⟨es, rfl⟩ := List.head?_eq_some_iff.1 hhead
    exact hpair es rfl
  · rename_i ds htext
    obtain ⟨rfl, rfl, rfl⟩ := eq_of_mark ['\n'] htext h
    exact .lineFeed
  · cases h

theorem stands_of_operator? (h : operator? (text ++ rest) = some (.token t, text.length)) :
    Stands text t rest := by
  unfold operator? at h
  split at h
  · rename_i ds htext
    obtain ⟨rfl, rfl, rfl⟩ := eq_of_mark ['&', '&'] htext h
    exact .andOp
  · rename_i ds htext
    obtain ⟨rfl, rfl, rfl⟩ := eq_of_mark ['|', '|'] htext h
    exact .orOp
  · rename_i ds htext
    obtain ⟨rfl, rfl, rfl⟩ := eq_of_mark ['.', '.'] htext h
    exact .rangeOp
  · cases h

theorem stands_of_symbol {p : Punct} (hpunct : Punct.ofChar? c = some p) (hc : c ≠ '/')
    (h : recognise? (c :: cs ++ rest) = some (.token t, (c :: cs).length)) :
    Stands (c :: cs) t rest := by
  obtain rfl : p.char = c := by simpa using List.find?_some hpunct
  have hslash : p ≠ .slash := by
    rintro rfl
    exact hc rfl
  rw [List.cons_append, recognise?_symbol p fun hp => absurd hp hslash] at h
  obtain ⟨rfl, hlength⟩ := eq_of_found h
  obtain rfl : cs = [] := List.length_eq_zero_iff.1 (Nat.succ.inj hlength).symm
  exact .symbol fun hp => absurd hp hslash

/-- What neither a word nor a symbol nor a comment starts with. -/
theorem stands_of_mark (hslash : c ≠ '/') (hpunct : Punct.ofChar? c = none)
    (halnum : c.isAlphanum = false) (ht : t ≠ .unexpected)
    (h : recognise? (c :: cs ++ rest) = some (.token t, (c :: cs).length)) :
    Stands (c :: cs) t rest := by
  rw [List.cons_append,
    recognise?_of_mark hslash hpunct halnum (isDigitOrMark_eq_false halnum)] at h
  rcases Option.or_eq_some_iff.1 h with hchar | ⟨-, h⟩
  · exact stands_of_char? ht hchar
  rcases Option.or_eq_some_iff.1 h with hnewline | ⟨-, h⟩
  · exact stands_of_newline? hnewline
  rcases Option.or_eq_some_iff.1 h with hoperator | ⟨-, h⟩
  · exact stands_of_operator? hoperator
  rcases Option.or_eq_some_iff.1 h with hstr | ⟨-, h⟩
  · exact stands_of_str? ht hstr
  · -- Spaces are no token.
    unfold spaces? at h
    split at h <;> cases h

theorem stands_of_next (ht : t ≠ .unexpected)
    (h : next (text ++ rest) = (.token t, text.length)) : Stands text t rest := by
  have hne : text ++ rest ≠ [] := by
    intro hnil
    rw [hnil] at h
    cases h
  have hpos := next_describes hne
  rw [h] at hpos
  obtain ⟨c, cs, rfl⟩ := List.exists_cons_of_ne_nil (List.length_pos_iff.1 hpos.1)
  have hfound : recognise? (c :: cs ++ rest) = some (.token t, (c :: cs).length) := by
    rw [List.cons_append, next] at h
    cases hcase : recognise? (c :: (cs ++ rest)) with
    | some found => rw [List.cons_append, hcase, ← h, hcase, Option.getD_some]
    | none =>
      -- A stretch that no matcher takes is unexpected.
      rw [hcase] at h
      exact absurd (Piece.token.inj (Prod.mk.inj h).1).symm ht
  by_cases hslash : c = '/'
  · subst hslash
    exact stands_of_slash ht hfound
  cases hpunct : Punct.ofChar? c with
  | some p => exact stands_of_symbol hpunct hslash hfound
  | none =>
    by_cases hletter : c.isAlpha = true
    · exact stands_of_letter hletter hfound
    by_cases hdigit : c.isDigit = true
    · exact stands_of_digit hdigit ht h
    · refine stands_of_mark hslash hpunct ?_ ht hfound
      rw [Char.isAlphanum, Bool.eq_false_iff.2 hletter, Bool.eq_false_iff.2 hdigit, Bool.or_false]

/-- A token is read from a text exactly where the list says so. -/
theorem next_eq_token_iff (ht : t ≠ .unexpected) :
    next (text ++ rest) = (.token t, text.length) ↔ Stands text t rest :=
  ⟨stands_of_next ht, Stands.next_eq⟩

end Scriptlet.Scan
