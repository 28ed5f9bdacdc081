import Mathlib.Data.List.Infix
import Mathlib.Data.List.TakeWhile
import Scriptlet.Token.Scan

/-!
# Lexemes tile the source

Reading a source takes one piece after another, each of them behind the piece before.  What is
passed over between two lexemes is spaces and closed block comments, and behind the last lexeme
possibly one line comment that no line end follows.  So every character of a source either belongs
to one lexeme or is blank: `Scan.lexemes_tile`.
-/

namespace Scriptlet.Scan

/-! ## What is passed over -/

/-- Spaces and closed block comments, one behind the other. -/
inductive Blank : List Char → Prop
  | nil : Blank []
  | space {cs : List Char} : Blank cs → Blank (' ' :: cs)
  /-- The first closing mark ends a comment, so its body holds none. -/
  | comment {body cs : List Char} : ¬ ['*', '/'] <:+: body → Blank cs →
      Blank ('/' :: '*' :: (body ++ '*' :: '/' :: cs))

/-- A line comment that no line end follows. -/
def LastComment (cs : List Char) : Prop :=
  ∃ rest, cs = '/' :: '/' :: rest ∧ '\n' ∉ rest ∧ '\r' ∉ rest

/-- What may stand behind the last lexeme: blanks, then possibly a line comment. -/
def Trailing (cs : List Char) : Prop :=
  ∃ blank rest, cs = blank ++ rest ∧ Blank blank ∧ (rest = [] ∨ LastComment rest)

theorem Blank.append {cs ds : List Char} (hcs : Blank cs) (hds : Blank ds) : Blank (cs ++ ds) := by
  induction hcs with
  | nil => exact hds
  | space _ ih => exact .space ih
  | @comment body cs hbody _ ih =>
    have hcomment := Blank.comment hbody ih
    simpa only [List.cons_append, List.append_assoc] using hcomment

theorem Blank.trailing {cs ds : List Char} (hcs : Blank cs) (hds : Trailing ds) :
    Trailing (cs ++ ds) := by
  obtain ⟨blank, rest, rfl, hblank, hrest⟩ := hds
  exact ⟨cs ++ blank, rest, (List.append_assoc ..).symm, hcs.append hblank, hrest⟩

theorem blank_of_spaces {cs : List Char} (hcs : ∀ c ∈ cs, c = ' ') : Blank cs := by
  induction cs with
  | nil => exact .nil
  | cons c cs ih =>
    obtain rfl : c = ' ' := hcs c List.mem_cons_self
    exact .space (ih fun d hd => hcs d (List.mem_cons_of_mem _ hd))

/-- What stands before the mark that closes a comment holds no such mark. -/
theorem commentEnd?_eq_some {cs : List Char} {n : Nat} (h : commentEnd? cs = some n) :
    ∃ body rest, cs = body ++ '*' :: '/' :: rest ∧ n = body.length + 2 ∧
      ¬ ['*', '/'] <:+: body := by
  fun_induction commentEnd? cs generalizing n with
  | case1 rest =>
    obtain rfl := Option.some.inj h
    exact ⟨[], rest, rfl, rfl, by simp⟩
  | case2 c cs hopen ih =>
    obtain ⟨m, hm, rfl⟩ := Option.map_eq_some_iff.1 h
    obtain ⟨body, rest, rfl, rfl, hbody⟩ := ih hm
    refine ⟨c :: body, rest, rfl, by simp, ?_⟩
    intro hinfix
    rcases List.infix_cons_iff.1 hinfix with hprefix | hinfix
    · -- A mark at the very start would have been found there.
      obtain ⟨rfl, tail, rfl⟩ : c = '*' ∧ ∃ tail, body = '/' :: tail := by
        obtain ⟨tail, htail⟩ := hprefix
        simp only [List.cons_append, List.nil_append, List.cons.injEq] at htail
        exact ⟨htail.1.symm, tail, htail.2.symm⟩
      exact hopen _ rfl rfl
    · exact hbody hinfix
  | case3 => cases h

/-! ## What a matcher finds -/

/-- What a piece and its length say about the text `cs` they were found at. -/
def Describes (cs : List Char) : Found → Prop
  | (.token _, n) => 0 < n ∧ n ≤ cs.length
  | (.blank, n) => 0 < n ∧ n ≤ cs.length ∧ Blank (cs.take n)
  | (.finish, n) => n = cs.length ∧ LastComment cs

theorem run_le (p : Char → Bool) (cs : List Char) : run p cs ≤ cs.length :=
  (List.takeWhile_prefix p).length_le

theorem comment?_describes {cs : List Char} {found : Found} (h : comment? cs = some found) :
    Describes cs found := by
  unfold comment? at h
  split at h
  case h_1 cs =>
    -- a block comment is blank if it is closed, and goes to the end otherwise
    cases hend : commentEnd? cs with
    | none =>
      obtain rfl : _ = found := by simpa only [hend, Option.some.injEq] using h
      exact ⟨Nat.succ_pos _, Nat.le_refl _⟩
    | some n =>
      obtain rfl : _ = found := by simpa only [hend, Option.some.injEq] using h
      obtain ⟨body, rest, rfl, rfl, hbody⟩ := commentEnd?_eq_some hend
      have htake : ('/' :: '*' :: (body ++ '*' :: '/' :: rest)).take (body.length + 2 + 2) =
          '/' :: '*' :: (body ++ ['*', '/']) := by
        simp [List.take_append]
      refine ⟨Nat.succ_pos _, by simp, ?_⟩
      rw [htake]
      exact .comment hbody .nil
  case h_2 cs =>
    -- a line comment goes to a line feed, and to a carriage return only if there is none
    cases hline : cs.findIdx? (· = '\n') with
    | some n =>
      obtain rfl : _ = found := by simpa only [hline, Option.some_or, Option.some.injEq] using h
      have hlt := (List.findIdx?_eq_some_iff_getElem.1 hline).1
      exact ⟨Nat.succ_pos _, by simp only [List.length_cons]; omega⟩
    | none =>
      cases hreturn : cs.findIdx? (· = '\r') with
      | some n =>
        obtain rfl : _ = found := by
          simpa only [hline, hreturn, Option.none_or, Option.some.injEq] using h
        have hlt := (List.findIdx?_eq_some_iff_getElem.1 hreturn).1
        exact ⟨Nat.succ_pos _, by simp only [List.length_cons]; omega⟩
      | none =>
        obtain rfl : _ = found := by
          simpa only [hline, hreturn, Option.none_or, Option.some.injEq] using h
        refine ⟨rfl, cs, rfl, ?_, ?_⟩
        · intro hmem
          simpa using List.findIdx?_eq_none_iff.1 hline _ hmem
        · intro hmem
          simpa using List.findIdx?_eq_none_iff.1 hreturn _ hmem
  case h_3 => cases h

theorem punct?_describes {cs : List Char} {found : Found} (h : punct? cs = some found) :
    Describes cs found := by
  cases cs with
  | nil => cases h
  | cons c cs =>
    obtain ⟨p, _, rfl⟩ := Option.map_eq_some_iff.1 h
    exact ⟨Nat.one_pos, by simp⟩

/-- A word that is not empty stands at the start of the text. -/
theorem length_word_pos {cs : List Char} (h : word cs ≠ "") : 0 < run Char.isAlpha cs := by
  rw [run, List.length_pos_iff]
  intro hnil
  rw [word, hnil] at h
  exact h rfl

theorem keyword?_describes {cs : List Char} {found : Found} (h : keyword? cs = some found) :
    Describes cs found := by
  obtain ⟨k, hk, rfl⟩ := Option.map_eq_some_iff.1 h
  have hword : word cs ≠ "" := by
    intro hempty
    rw [hempty] at hk
    cases hk
  exact ⟨length_word_pos hword, run_le _ _⟩

/-- As many characters as a word has can be taken. -/
theorem length_le_of_word {cs : List Char} (ds : List Char) (h : word cs = String.ofList ds) :
    ds.length ≤ cs.length := by
  have hletters : cs.takeWhile Char.isAlpha = ds := by simpa [word] using congrArg String.toList h
  rw [← hletters]
  exact run_le _ _

theorem bool?_describes {cs : List Char} {found : Found} (h : bool? cs = some found) :
    Describes cs found := by
  unfold bool? at h
  split at h
  case isTrue htrue =>
    obtain rfl := Option.some.inj h
    exact ⟨by decide, length_le_of_word ['t', 'r', 'u', 'e'] htrue⟩
  case isFalse =>
    split at h
    case isTrue hfalse =>
      obtain rfl := Option.some.inj h
      exact ⟨by decide, length_le_of_word ['f', 'a', 'l', 's', 'e'] hfalse⟩
    case isFalse => cases h

/-- A quoted literal ends inside the text. -/
theorem quoted?_bounds {q : Char} {cs : List Char} {text : Option (List Char)} {n : Nat}
    (h : Literal.quoted? q cs = some (text, n)) : n ≤ cs.length := by
  fun_induction Literal.quoted? q cs generalizing text n with
  | case1 => cases h
  | case2 => cases h
  | case3 e rest ih =>
    obtain ⟨⟨inner, m⟩, hm, hfound⟩ := Option.map_eq_some_iff.1 h
    have hle := ih hm
    obtain rfl : m + 2 = n := congrArg Prod.snd hfound
    simp only [List.length_cons]
    omega
  | case4 cs =>
    obtain rfl : 1 = n := congrArg Prod.snd (Option.some.inj h)
    simp
  | case5 c cs _ _ ih =>
    obtain ⟨⟨inner, m⟩, hm, hfound⟩ := Option.map_eq_some_iff.1 h
    have hle := ih hm
    obtain rfl : m + 1 = n := congrArg Prod.snd hfound
    simp only [List.length_cons]
    omega

theorem char?_describes {cs : List Char} {found : Found} (h : char? cs = some found) :
    Describes cs found := by
  unfold char? at h
  split at h
  case h_1 cs =>
    split at h
    case h_1 c n hquoted =>
      obtain rfl := Option.some.inj h
      exact ⟨Nat.succ_pos _, Nat.succ_le_succ (quoted?_bounds hquoted)⟩
    case h_2 text n _ hquoted =>
      obtain rfl := Option.some.inj h
      exact ⟨Nat.succ_pos _, Nat.succ_le_succ (quoted?_bounds hquoted)⟩
    case h_3 =>
      obtain rfl := Option.some.inj h
      exact ⟨Nat.succ_pos _, Nat.le_refl _⟩
  case h_2 => cases h

theorem ident?_describes {cs : List Char} {found : Found} (h : ident? cs = some found) :
    Describes cs found := by
  have hlen := run_le Char.isAlphanum cs
  unfold ident? at h
  split at h
  case h_1 => cases h
  case h_2 c rest hletters =>
    rw [run, hletters] at hlen
    split at h
    · cases h
    · obtain rfl := Option.some.inj h
      exact ⟨Nat.succ_pos _, hlen⟩

theorem int?_describes {cs : List Char} {found : Found} (h : int? cs = some found) :
    Describes cs found := by
  have hdigits := run_le Literal.isDigitOrMark cs
  have hglued := run_le Char.isAlphanum (cs.drop (run Literal.isDigitOrMark cs))
  rw [List.length_drop] at hglued
  unfold int? at h
  dsimp only at h
  split at h
  case isTrue => cases h
  case isFalse hpos =>
    split at h
    case h_1 =>
      obtain rfl := Option.some.inj h
      exact ⟨Nat.pos_of_ne_zero hpos, hdigits⟩
    case h_2 =>
      obtain rfl := Option.some.inj h
      constructor <;> omega

theorem newline?_describes {cs : List Char} {found : Found} (h : newline? cs = some found) :
    Describes cs found := by
  unfold newline? at h
  split at h <;> cases h <;> exact ⟨by decide, by simp⟩

theorem operator?_describes {cs : List Char} {found : Found} (h : operator? cs = some found) :
    Describes cs found := by
  unfold operator? at h
  split at h <;> cases h <;> exact ⟨by decide, by simp⟩

theorem str?_describes {cs : List Char} {found : Found} (h : str? cs = some found) :
    Describes cs found := by
  unfold str? at h
  split at h
  case h_1 cs =>
    split at h
    case h_1 text n hquoted =>
      obtain rfl := Option.some.inj h
      exact ⟨Nat.succ_pos _, Nat.succ_le_succ (quoted?_bounds hquoted)⟩
    case h_2 n hquoted =>
      obtain rfl := Option.some.inj h
      exact ⟨Nat.succ_pos _, Nat.succ_le_succ (quoted?_bounds hquoted)⟩
    case h_3 =>
      obtain rfl := Option.some.inj h
      exact ⟨Nat.succ_pos _, Nat.le_refl _⟩
  case h_2 => cases h

theorem spaces?_describes {cs : List Char} {found : Found} (h : spaces? cs = some found) :
    Describes cs found := by
  unfold spaces? at h
  split at h
  case h_1 => cases h
  case h_2 n hpos =>
    obtain rfl := Option.some.inj h
    refine ⟨Nat.pos_of_ne_zero hpos, run_le _ _, ?_⟩
    have htake : cs.take (run (· = ' ') cs) = cs.takeWhile (· = ' ') :=
      (List.prefix_iff_eq_take.1 (List.takeWhile_prefix _)).symm
    rw [htake]
    exact blank_of_spaces fun c hc => by simpa using List.mem_takeWhile_imp hc

theorem recognise?_describes {cs : List Char} {found : Found} (h : recognise? cs = some found) :
    Describes cs found := by
  obtain ⟨matcher, hmem, hmatch⟩ := List.exists_of_findSome?_eq_some h
  simp only [matchers, List.mem_cons, List.not_mem_nil, or_false] at hmem
  rcases hmem with rfl | rfl | rfl | rfl | rfl | rfl | rfl | rfl | rfl | rfl | rfl
  · exact comment?_describes hmatch
  · exact punct?_describes hmatch
  · exact keyword?_describes hmatch
  · exact bool?_describes hmatch
  · exact char?_describes hmatch
  · exact ident?_describes hmatch
  · exact int?_describes hmatch
  · exact newline?_describes hmatch
  · exact operator?_describes hmatch
  · exact str?_describes hmatch
  · exact spaces?_describes hmatch

theorem strayLength_le (cs : List Char) : strayLength cs ≤ cs.length := by
  induction cs with
  | nil => exact Nat.le_refl _
  | cons c cs ih =>
    rw [strayLength, List.length_cons]
    split <;> omega

/-- Before the end of a text, reading finds a piece of it. -/
theorem next_describes {cs : List Char} (hcs : cs ≠ []) : Describes cs (next cs) := by
  obtain ⟨c, cs, rfl⟩ := List.exists_cons_of_ne_nil hcs
  rw [next]
  cases hfound : recognise? (c :: cs) with
  | some found => exact recognise?_describes hfound
  | none => exact ⟨Nat.succ_pos _, Nat.succ_le_succ (strayLength_le cs)⟩

/-! ## Piece by piece -/

/-- Reading `source` piece by piece from position `pos` on comes to an end, with the lexemes
`ls`. -/
inductive Reads (source : List Char) : Nat → List Lexeme → Prop
  | finish {pos hi : Nat} : nextAt source pos = (.finish, hi) → Reads source pos []
  | blank {pos hi : Nat} {ls : List Lexeme} : nextAt source pos = (.blank, hi) →
      Reads source hi ls → Reads source pos ls
  | token {pos hi : Nat} {t : Token} {ls : List Lexeme} : nextAt source pos = (.token t, hi) →
      Reads source hi ls →
      Reads source pos (⟨t, ⟨pos, hi⟩, String.ofList (source.extract pos hi)⟩ :: ls)

/-- Passing over the characters of a piece, all but the first, is reading from behind it. -/
theorem lexemesFrom_behind (c : Char) (cs : List Char) (pos : Nat) {n : Nat} (hn : 0 < n) :
    lexemesFrom cs (pos + 1) (n - 1) = lexemesFrom ((c :: cs).drop n) (pos + n) 0 := by
  obtain ⟨n, rfl⟩ := Nat.exists_eq_add_one_of_ne_zero (Nat.ne_of_gt hn)
  have hpos : pos + 1 + n = pos + (n + 1) := by omega
  rw [lexemesFrom_skip, Nat.add_sub_cancel, List.drop_succ_cons, hpos]

/-- Reading comes to an end, since each piece before the end takes a character at least. -/
theorem reads_lexemesFrom (source : List Char) (pos : Nat) :
    Reads source pos (lexemesFrom (source.drop pos) pos 0) := by
  induction hleft : source.length - pos using Nat.strong_induction_on generalizing pos with
  | _ left ih =>
    cases hrest : source.drop pos with
    | nil => exact .finish (by rw [nextAt, hrest, next])
    | cons c cs =>
      have hlen : (source.drop pos).length = source.length - pos := List.length_drop
      have hdescribes := next_describes (List.cons_ne_nil c cs)
      have hat : nextAt source pos = ((next (c :: cs)).1, pos + (next (c :: cs)).2) := by
        rw [nextAt, hrest]
      rw [hrest, List.length_cons] at hlen
      rw [lexemesFrom]
      rcases hnext : next (c :: cs) with ⟨_ | _, n⟩ <;> rw [hnext] at hdescribes hat
      case token t =>
        obtain ⟨hn, hle⟩ := hdescribes
        have htext : (c :: cs).take n = source.extract pos (pos + n) := by
          rw [List.extract, hrest, Nat.add_sub_cancel_left]
        have hbehind := ih _ (by omega) (pos + n) rfl
        dsimp only
        rw [lexemesFrom_behind c cs pos hn, ← hrest, List.drop_drop, hrest, htext]
        exact .token hat hbehind
      case blank =>
        obtain ⟨hn, hle, -⟩ := hdescribes
        have hbehind := ih _ (by omega) (pos + n) rfl
        dsimp only
        rw [lexemesFrom_behind c cs pos hn, ← hrest, List.drop_drop]
        exact .blank hat hbehind
      case finish => exact .finish hat

/-! ## The tiling -/

/-- The position behind the last of some lexemes that stand behind `pos`. -/
def reached (pos : Nat) : List Lexeme → Nat
  | [] => pos
  | l :: ls => reached l.span.hi ls

/-- The lexemes `ls` and the blanks between them are all of `source` from position `pos` on. -/
structure Tiles (source : List Char) (pos : Nat) (ls : List Lexeme) : Prop where
  /-- Every lexeme is a stretch of the source that is not empty. -/
  inside : ∀ l ∈ ls, pos ≤ l.span.lo ∧ l.span.lo < l.span.hi ∧ l.span.hi ≤ source.length
  /-- Every lexeme has the text that stands there. -/
  text : ∀ l ∈ ls, l.text = String.ofList (source.extract l.span.lo l.span.hi)
  /-- Every lexeme stands behind those before it. -/
  ordered : ls.Pairwise fun l l' => l.span.hi ≤ l'.span.lo
  /-- Before the first lexeme, and between any two neighbours, stand blanks. -/
  between : ∀ before l after, ls = before ++ l :: after →
    Blank (source.extract (reached pos before) l.span.lo)
  /-- Behind the last lexeme stand blanks and possibly a line comment. -/
  behind : Trailing (source.drop (reached pos ls))

theorem Tiles.finish {source : List Char} {pos : Nat} (hrest : Trailing (source.drop pos)) :
    Tiles source pos [] where
  inside := by simp
  text := by simp
  ordered := .nil
  between := by simp
  behind := hrest

/-- What stands before the first lexeme, or else up to the end, may start with more blanks. -/
theorem Tiles.blank {source : List Char} {pos hi : Nat} {ls : List Lexeme} (hle : pos ≤ hi)
    (hblank : Blank (source.extract pos hi)) (htiles : Tiles source hi ls) :
    Tiles source pos ls where
  inside l hl := by
    have hinside := htiles.inside l hl
    exact ⟨Nat.le_trans hle hinside.1, hinside.2⟩
  text := htiles.text
  ordered := htiles.ordered
  between before l after hsplit := by
    have hbetween := htiles.between before l after hsplit
    cases before with
    | cons first before => exact hbetween
    | nil =>
      have hlo := (htiles.inside l (by simp [hsplit])).1
      have hjoin : source.extract pos l.span.lo =
          source.extract pos hi ++ source.extract hi l.span.lo := by
        have hsum : l.span.lo - pos = (hi - pos) + (l.span.lo - hi) := by omega
        have hdrop : pos + (hi - pos) = hi := by omega
        rw [List.extract, List.extract, List.extract, hsum, List.take_add, List.drop_drop, hdrop]
      show Blank (source.extract pos l.span.lo)
      rw [hjoin]
      exact hblank.append hbetween
  behind := by
    have hbehind := htiles.behind
    cases ls with
    | cons first ls => exact hbehind
    | nil =>
      have hjoin : source.drop pos = source.extract pos hi ++ source.drop hi := by
        have hdrop : pos + (hi - pos) = hi := by omega
        rw [← List.take_append_drop (hi - pos) (source.drop pos), List.drop_drop, hdrop]
      show Trailing (source.drop pos)
      rw [hjoin]
      exact hblank.trailing hbehind

theorem Tiles.token {source : List Char} {pos hi : Nat} {ls : List Lexeme} (t : Token)
    (hlt : pos < hi) (hle : hi ≤ source.length) (htiles : Tiles source hi ls) :
    Tiles source pos (⟨t, ⟨pos, hi⟩, String.ofList (source.extract pos hi)⟩ :: ls) where
  inside := by
    intro l hl
    rcases List.mem_cons.1 hl with rfl | hl
    · exact ⟨Nat.le_refl _, hlt, hle⟩
    · have hinside := htiles.inside l hl
      exact ⟨Nat.le_trans (Nat.le_of_lt hlt) hinside.1, hinside.2⟩
  text := by
    intro l hl
    rcases List.mem_cons.1 hl with rfl | hl
    · rfl
    · exact htiles.text l hl
  ordered := List.pairwise_cons.2 ⟨fun l hl => (htiles.inside l hl).1, htiles.ordered⟩
  between before l after hsplit := by
    cases before with
    | nil =>
      obtain ⟨rfl, -⟩ := List.cons.inj hsplit
      simpa [reached] using Blank.nil
    | cons first before =>
      obtain ⟨rfl, hrest⟩ := List.cons.inj hsplit
      exact htiles.between before l after hrest
  behind := htiles.behind

/-- What stands at a position of a source: its end, or a piece of it. -/
theorem nextAt_cases {source : List Char} {pos hi : Nat} {piece : Piece}
    (hat : nextAt source pos = (piece, hi)) :
    (source.drop pos = [] ∧ piece = .finish) ∨
      ∃ n, hi = pos + n ∧ n ≤ source.length - pos ∧ Describes (source.drop pos) (piece, n) := by
  have hlen : (source.drop pos).length = source.length - pos := List.length_drop
  obtain ⟨rfl, rfl⟩ := Prod.mk.inj hat
  by_cases hrest : source.drop pos = []
  · exact .inl ⟨hrest, by rw [hrest]; rfl⟩
  · have hdescribes := next_describes hrest
    refine .inr ⟨_, rfl, ?_, hdescribes⟩
    rw [← hlen]
    rcases hnext : next (source.drop pos) with ⟨_ | _, n⟩ <;> rw [hnext] at hdescribes
    case token => exact hdescribes.2
    case blank => exact hdescribes.2.1
    case finish => exact Nat.le_of_eq hdescribes.1

/-- What is read piece by piece tiles the source. -/
theorem Reads.tiles {source : List Char} {pos : Nat} {ls : List Lexeme}
    (h : Reads source pos ls) : Tiles source pos ls := by
  induction h with
  | finish hat =>
    apply Tiles.finish
    rcases nextAt_cases hat with ⟨hrest, -⟩ | ⟨n, -, -, -, hcomment⟩
    · exact ⟨[], [], hrest, .nil, .inl rfl⟩
    · exact ⟨[], _, rfl, .nil, .inr hcomment⟩
  | @blank pos hi ls hat _ ih =>
    rcases nextAt_cases hat with ⟨-, hpiece⟩ | ⟨n, rfl, -, -, -, hblank⟩
    · cases hpiece
    · refine ih.blank (Nat.le_add_right pos n) ?_
      rw [List.extract, Nat.add_sub_cancel_left]
      exact hblank
  | @token pos hi t ls hat _ ih =>
    rcases nextAt_cases hat with ⟨-, hpiece⟩ | ⟨n, rfl, hle, hn, -⟩
    · cases hpiece
    · exact ih.token t (by omega) (by omega)

/-- Reading a source comes to an end, and its lexemes tile the source. -/
theorem lexemes_tile (source : String) :
    Reads source.toList 0 (lexemes source) ∧ Tiles source.toList 0 (lexemes source) := by
  have hreads := reads_lexemesFrom source.toList 0
  exact ⟨hreads, hreads.tiles⟩

end Scriptlet.Scan
