import Scriptlet.Proofs.Token.Reading
import Scriptlet.Proofs.Token.Tiling
import Scriptlet.Text.Lines

/-!
# Line ends and tokens

A line may end with a carriage return, a line feed or both.  Reading a file unifies line ends before
any token is read, so it matters that this does not change the tokens: `Scan.tokens_unifyLineEnds`.

All matchers but those of comments stay within a line, and a stretch that cannot be read ends with
its line at the latest.  Only a line comment looks further: it ends at a carriage return if no line
feed follows anywhere, and otherwise goes on to the first line feed.  So it may hold several line
ends, which unifying then takes apart; texts in which this happens are left out.
-/

namespace Scriptlet.Text

/-! ## Lines -/

/-- A line end stands at the start of `cs`, or nothing does. -/
def Ended (cs : List Char) : Prop := ∀ c ∈ cs.head?, c = '\n' ∨ c = '\r'

/-- The number of line ends in a text. -/
def lineEnds (cs : List Char) : Nat := (unifyLineEnds cs).count '\n'

variable {c : Char} {cs line rest behind : List Char}

theorem unifyLineEnds_cons (hc : c ≠ '\r') : unifyLineEnds (c :: cs) = c :: unifyLineEnds cs := by
  rw [unifyLineEnds, if_neg hc]
  intro _ h
  exact absurd h hc

theorem unifyLineEnds_return (hcs : cs.head? ≠ some '\n') :
    unifyLineEnds ('\r' :: cs) = '\n' :: unifyLineEnds cs := by
  rw [unifyLineEnds, if_pos rfl]
  rintro ds - rfl
  exact hcs rfl

theorem unifyLineEnds_append (hline : '\r' ∉ line) :
    unifyLineEnds (line ++ rest) = line ++ unifyLineEnds rest := by
  induction line with
  | nil => rfl
  | cons c line ih =>
    rw [List.mem_cons, not_or] at hline
    rw [List.cons_append, unifyLineEnds_cons (Ne.symm hline.1), ih hline.2, List.cons_append]

/-- A line feed stays, or is what a line end becomes. -/
theorem feed_mem_unifyLineEnds (h : '\n' ∈ cs) : '\n' ∈ unifyLineEnds cs := by
  fun_induction unifyLineEnds cs with
  | case1 => exact h
  | case2 cs ih => exact List.mem_cons_self
  | case3 c cs _ ih =>
    rcases List.mem_cons.1 h with rfl | h
    · exact List.mem_cons_self
    · exact List.mem_cons_of_mem _ (ih h)

/-- What is no line feed at the start was there before. -/
theorem head?_of_unifyLineEnds (hc : c ≠ '\n') (h : (unifyLineEnds cs).head? = some c) :
    cs.head? = some c := by
  revert h
  fun_cases unifyLineEnds cs with
  | case1 => exact id
  | case2 cs =>
    intro h
    exact absurd (Option.some.inj h).symm hc
  | case3 d cs _ =>
    intro h
    have hd := Option.some.inj h
    split at hd
    · exact absurd hd.symm hc
    · exact congrArg some hd

/-- A text is its first line and what the line end starts. -/
theorem exists_line (cs : List Char) :
    ∃ line rest, cs = line ++ rest ∧ '\n' ∉ line ∧ '\r' ∉ line ∧ Ended rest := by
  induction cs with
  | nil => exact ⟨[], [], rfl, List.not_mem_nil, List.not_mem_nil, nofun⟩
  | cons c cs ih =>
    by_cases hc : c = '\n' ∨ c = '\r'
    · refine ⟨[], c :: cs, rfl, List.not_mem_nil, List.not_mem_nil, ?_⟩
      rintro d ⟨⟩
      exact hc
    · obtain ⟨line, rest, rfl, hfeed, hreturn, hrest⟩ := ih
      rw [not_or] at hc
      refine ⟨c :: line, rest, rfl, ?_, ?_, hrest⟩
      · exact fun h => (List.mem_cons.1 h).elim (fun h => hc.1 h.symm) hfeed
      · exact fun h => (List.mem_cons.1 h).elim (fun h => hc.2 h.symm) hreturn

/-- A line end has one of three forms, and becomes one line feed. -/
theorem Ended.cases (h : Ended rest) : rest = [] ∨
    ∃ behind, unifyLineEnds rest = '\n' :: unifyLineEnds behind ∧
      (rest = '\n' :: behind ∨ rest = '\r' :: '\n' :: behind ∨
        rest = '\r' :: behind ∧ behind.head? ≠ some '\n') := by
  cases rest with
  | nil => exact .inl rfl
  | cons c cs =>
    right
    rcases h c rfl with rfl | rfl
    · exact ⟨cs, unifyLineEnds_cons (by decide), .inl rfl⟩
    · by_cases hcs : cs.head? = some '\n'
      · obtain ⟨behind, rfl⟩ := List.head?_eq_some_iff.1 hcs
        exact ⟨behind, rfl, .inr (.inl rfl)⟩
      · exact ⟨cs, unifyLineEnds_return hcs, .inr (.inr ⟨rfl, hcs⟩)⟩

/-- Two line ends stand in a text that goes on behind a carriage return up to a line feed. -/
theorem two_le_lineEnds (hline : '\r' ∉ line) (hhead : rest.head? ≠ some '\n')
    (hrest : '\n' ∈ rest) : 2 ≤ lineEnds (line ++ '\r' :: rest) := by
  have hpos : 0 < (unifyLineEnds rest).count '\n' :=
    List.count_pos_iff.2 (feed_mem_unifyLineEnds hrest)
  rw [lineEnds, unifyLineEnds_append hline, unifyLineEnds_return hhead, List.count_append,
    List.count_cons_self]
  omega

theorem Ended.unifyLineEnds (h : Ended rest) : Ended (unifyLineEnds rest) := by
  rcases h.cases with rfl | ⟨behind, hunify, -⟩
  · exact nofun
  · rw [hunify]
    rintro c ⟨⟩
    exact .inl rfl

end Scriptlet.Text

namespace Scriptlet.Scan

open Text

variable {c : Char} {cs line rest : List Char} {found : Found}

/-! ## Matchers that stay within a line -/

theorem takeWhile_ended {p : Char → Bool} (hp : p '\n' = false ∧ p '\r' = false)
    (hrest : Ended rest) (line : List Char) : (line ++ rest).takeWhile p = line.takeWhile p := by
  apply takeWhile_append_of_head
  intro c hc
  rcases hrest c hc with rfl | rfl
  · exact hp.1
  · exact hp.2

theorem run_ended {p : Char → Bool} (hp : p '\n' = false ∧ p '\r' = false) (hrest : Ended rest)
    (line : List Char) : run p (line ++ rest) = run p line := by
  rw [run, run, takeWhile_ended hp hrest]

theorem word_ended (hrest : Ended rest) (line : List Char) : word (line ++ rest) = word line := by
  rw [word, word, takeWhile_ended (by decide) hrest]

theorem keyword?_ended (hrest : Ended rest) (line : List Char) :
    keyword? (line ++ rest) = keyword? line := by
  rw [keyword?, keyword?, word_ended hrest, run_ended (by decide) hrest]

theorem bool?_ended (hrest : Ended rest) (line : List Char) :
    bool? (line ++ rest) = bool? line := by
  rw [bool?, bool?, word_ended hrest]

theorem ident?_ended (hrest : Ended rest) (line : List Char) :
    ident? (line ++ rest) = ident? line := by
  rw [ident?, ident?, takeWhile_ended (by decide) hrest]

theorem int?_ended (hrest : Ended rest) (line : List Char) :
    int? (line ++ rest) = int? line := by
  have hrun : run Literal.isDigitOrMark (line ++ rest) = run Literal.isDigitOrMark line :=
    run_ended (by decide) hrest line
  have hle := run_le Literal.isDigitOrMark line
  rw [int?, int?, hrun]
  rw [List.drop_append_of_le_length hle, List.take_append_of_le_length hle,
    run_ended (by decide) hrest]

theorem spaces?_ended (hrest : Ended rest) (line : List Char) :
    spaces? (line ++ rest) = spaces? line := by
  rw [spaces?, spaces?, run_ended (by decide) hrest]

theorem operator?_ended (hrest : Ended rest) (line : List Char) :
    operator? (c :: line ++ rest) = operator? (c :: line) := by
  cases line with
  | cons d line =>
    unfold operator?
    split <;> simp_all
  | nil =>
    cases rest with
    | nil => rfl
    | cons d rest =>
      rcases hrest d rfl with rfl | rfl
      · unfold operator?
        split <;> simp_all
      · unfold operator?
        split <;> simp_all

theorem newline?_eq_none (hfeed : c ≠ '\n') (hreturn : c ≠ '\r') (cs : List Char) :
    newline? (c :: cs) = none := by
  unfold newline?
  split <;> simp_all

theorem str?_eq_none (hc : c ≠ '"') (cs : List Char) : str? (c :: cs) = none := by
  unfold str?
  split <;> simp_all

/-- A comment starts with two characters, which stand on one line. -/
theorem comment?_eq_none_iff :
    comment? cs = none ↔ ∀ ds, cs ≠ '/' :: '*' :: ds ∧ cs ≠ '/' :: '/' :: ds := by
  constructor
  · rintro h ds
    constructor
    · rintro rfl
      rw [comment?] at h
      split at h <;> cases h
    · rintro rfl
      rw [comment?] at h
      split at h <;> cases h
  · intro h
    unfold comment?
    split
    · exact absurd rfl (h _).1
    · exact absurd rfl (h _).2
    · rfl

theorem comment?_ended (hrest : Ended rest) (hcomment : comment? (c :: line) = none) :
    comment? (c :: line ++ rest) = none := by
  rw [comment?_eq_none_iff] at hcomment ⊢
  cases line with
  | cons d line =>
    intro ds
    have h := hcomment line
    simp_all
  | nil =>
    intro ds
    constructor
    · rintro ⟨⟩
      exact absurd (hrest '*' rfl) (by decide)
    · rintro ⟨⟩
      exact absurd (hrest '/' rfl) (by decide)

/-- What stands on a line, and is no comment, is found there whatever follows the line. -/
theorem recognise?_ended (hfeed : '\n' ∉ c :: line) (hreturn : '\r' ∉ c :: line)
    (hquote : c ≠ '\'' ∧ c ≠ '"') (hcomment : comment? (c :: line) = none) (hrest : Ended rest) :
    recognise? (c :: line ++ rest) = recognise? (c :: line) := by
  have hchar : ∀ cs, char? (c :: cs) = none := char?_eq_none hquote.1
  have hstr : ∀ cs, str? (c :: cs) = none := str?_eq_none hquote.2
  have hnewline : ∀ cs, newline? (c :: cs) = none :=
    newline?_eq_none (fun h => hfeed (h ▸ List.mem_cons_self))
      (fun h => hreturn (h ▸ List.mem_cons_self))
  have hpunct : punct? (c :: line ++ rest) = punct? (c :: line) := rfl
  simp only [recognise?, matchers, List.findSome?_cons, List.findSome?_nil, hcomment,
    comment?_ended hrest hcomment, hpunct, keyword?_ended hrest, bool?_ended hrest,
    ident?_ended hrest, int?_ended hrest, operator?_ended hrest, spaces?_ended hrest]
  simp only [List.cons_append, hchar, hstr, hnewline]

/-! ## Comments -/

theorem findIdx?_of_notMem (h : c ∉ cs) : cs.findIdx? (· = c) = none := by
  rw [List.findIdx?_eq_none_iff]
  intro d hd
  exact decide_eq_false fun hdc => h (hdc ▸ hd)

theorem findIdx?_append_of_notMem (h : c ∉ line) :
    (line ++ c :: rest).findIdx? (· = c) = some line.length := by
  rw [List.findIdx?_append, findIdx?_of_notMem h, Option.none_or, List.findIdx?_cons]
  simp

/-- A line comment goes through the first line feed. -/
theorem comment?_feed (hline : '\n' ∉ line) (rest : List Char) :
    comment? ('/' :: '/' :: (line ++ '\n' :: rest)) =
      some (.token .newline, line.length + 3) := by
  rw [comment?, findIdx?_append_of_notMem hline]
  rfl

/-- Where no line feed follows, it goes through the first carriage return. -/
theorem comment?_return (hfeed : '\n' ∉ line ++ '\r' :: rest) (hreturn : '\r' ∉ line) :
    comment? ('/' :: '/' :: (line ++ '\r' :: rest)) =
      some (.token .newline, line.length + 3) := by
  rw [comment?, findIdx?_of_notMem hfeed, findIdx?_append_of_notMem hreturn]
  rfl

/-- Where a line feed follows later, it goes on to it and holds two line ends at least. -/
theorem comment?_goesOn (hfeed : '\n' ∉ line) (hreturn : '\r' ∉ line)
    (hhead : rest.head? ≠ some '\n') (hrest : '\n' ∈ rest) :
    ∃ n, comment? ('/' :: '/' :: (line ++ '\r' :: rest)) = some (.token .newline, n) ∧
      2 ≤ lineEnds (('/' :: '/' :: (line ++ '\r' :: rest)).take n) := by
  obtain ⟨front, back, rfl, hfront⟩ := List.eq_append_cons_of_mem hrest
  have hhead' : (front ++ ['\n']).head? ≠ some '\n' := by
    cases front with
    | nil => exact hhead
    | cons d front => exact hhead
  have hfeed' : '\n' ∉ line ++ '\r' :: front := by simp [hfeed, hfront]
  have hsplit : line ++ '\r' :: (front ++ '\n' :: back) =
      (line ++ '\r' :: front) ++ '\n' :: back := by simp
  have hcomment : '/' :: '/' :: (line ++ '\r' :: (front ++ '\n' :: back)) =
      ('/' :: '/' :: line ++ '\r' :: (front ++ ['\n'])) ++ back := by simp
  have hlength : ('/' :: '/' :: line ++ '\r' :: (front ++ ['\n'])).length =
      (line ++ '\r' :: front).length + 3 := by
    simp only [List.length_append, List.length_cons, List.length_nil]
    omega
  refine ⟨(line ++ '\r' :: front).length + 3, ?_, ?_⟩
  · rw [hsplit, comment?_feed hfeed']
  · rw [hcomment, List.take_left' hlength]
    exact two_le_lineEnds (by simpa using hreturn) hhead' (by simp)

/-- Where no line end follows, it goes to the end. -/
theorem comment?_last (hfeed : '\n' ∉ line) (hreturn : '\r' ∉ line) :
    comment? ('/' :: '/' :: line) = some (.finish, line.length + 2) := by
  rw [comment?, findIdx?_of_notMem hfeed, findIdx?_of_notMem hreturn]
  rfl

theorem commentEnd?_cons (h : ¬ (c = '*' ∧ cs.head? = some '/')) :
    commentEnd? (c :: cs) = (commentEnd? cs).map (· + 1) := by
  rw [commentEnd?]
  rintro ds rfl rfl
  exact h ⟨rfl, rfl⟩

/-- The closing mark of a block comment is found behind the same characters. -/
theorem commentEnd?_unifyLineEnds (cs : List Char) :
    Option.Rel (fun n n' => (unifyLineEnds cs).drop n' = unifyLineEnds (cs.drop n))
      (commentEnd? cs) (commentEnd? (unifyLineEnds cs)) := by
  -- One character more on both sides, or two that become one.
  have hmap : ∀ {R S : Nat → Nat → Prop} {n n' : Option Nat} (k : Nat), Option.Rel R n n' →
      (∀ i j, R i j → S (i + k) (j + 1)) → Option.Rel S (n.map (· + k)) (n'.map (· + 1)) := by
    intro R S n n' k hrel hS
    cases hrel with
    | none => exact .none
    | some h => exact .some (hS _ _ h)
  fun_induction unifyLineEnds cs with
  | case1 => exact .none
  | case2 cs ih =>
    rw [commentEnd?_cons (by simp), commentEnd?_cons (by simp), commentEnd?_cons (by simp),
      Option.map_map]
    exact hmap 2 ih fun _ _ h => h
  | case3 c cs hpair ih =>
    by_cases hclose : c = '*' ∧ cs.head? = some '/'
    · obtain ⟨rfl, hslash⟩ := hclose
      obtain ⟨ds, rfl⟩ := List.head?_eq_some_iff.1 hslash
      exact .some rfl
    · -- Unifying makes no mark: neither of its characters is a line end.
      have hclose' : ¬ ((if c = '\r' then '\n' else c) = '*' ∧
          (unifyLineEnds cs).head? = some '/') := by
        rintro ⟨hstar, hslash⟩
        refine hclose ⟨?_, head?_of_unifyLineEnds (by decide) hslash⟩
        split at hstar
        · exact absurd hstar (by decide)
        · exact hstar
      rw [commentEnd?_cons hclose, commentEnd?_cons hclose']
      exact hmap 1 ih fun _ _ h => h

/-! ## Pieces -/

/-- What is found at the start of a text and what is found there when the line ends are unified: the
same piece, and the same stands behind it unless it is a comment that holds several line ends. -/
structure Agrees (cs : List Char) (found found' : Found) : Prop where
  piece : found'.1 = found.1
  behind : (found.1 = .token .newline → lineEnds (cs.take found.2) = 1) →
    (unifyLineEnds cs).drop found'.2 = unifyLineEnds (cs.drop found.2)

theorem agrees_of_append {piece : Piece} {n n' : Nat} (front front' rest : List Char)
    (hcs : cs = front ++ rest) (hunify : unifyLineEnds cs = front' ++ unifyLineEnds rest)
    (hn : n = front.length) (hn' : n' = front'.length) : Agrees cs (piece, n) (piece, n') where
  piece := rfl
  behind _ := by
    show (unifyLineEnds cs).drop n' = unifyLineEnds (cs.drop n)
    rw [hunify, hcs, hn, hn', List.drop_left, List.drop_left]

theorem recognise?_of_comment? (h : comment? cs ≠ none) : recognise? cs = comment? cs := by
  obtain ⟨found, hfound⟩ := Option.ne_none_iff_exists'.1 h
  rw [recognise?, matchers, List.findSome?_cons, hfound]

theorem rel_blockComment (cs : List Char) :
    Option.Rel (Agrees ('/' :: '*' :: cs)) (comment? ('/' :: '*' :: cs))
      (comment? ('/' :: '*' :: unifyLineEnds cs)) := by
  have hrel := commentEnd?_unifyLineEnds cs
  rw [comment?, comment?]
  generalize commentEnd? cs = n at hrel
  generalize commentEnd? (unifyLineEnds cs) = n' at hrel
  cases hrel with
  | none =>
    -- A comment that is never closed leaves nothing.
    exact .some (agrees_of_append ('/' :: '*' :: cs) ('/' :: '*' :: unifyLineEnds cs) []
      (List.append_nil _).symm (List.append_nil _).symm rfl rfl)
  | some h => exact .some ⟨rfl, fun _ => h⟩

theorem rel_lineComment (cs : List Char) :
    Option.Rel (Agrees ('/' :: '/' :: cs)) (comment? ('/' :: '/' :: cs))
      (comment? ('/' :: '/' :: unifyLineEnds cs)) := by
  obtain ⟨line, rest, rfl, hfeed, hreturn, hrest⟩ := exists_line cs
  have hunify : unifyLineEnds ('/' :: '/' :: (line ++ rest)) =
      '/' :: '/' :: (line ++ unifyLineEnds rest) := by
    rw [← unifyLineEnds_append hreturn]
    rfl
  rw [unifyLineEnds_append hreturn]
  -- On the right a line feed ends the comment; on the left it depends on how the line ends.
  rcases hrest.cases with rfl | ⟨behind, hends, hforms⟩
  · rw [unifyLineEnds, List.append_nil] at hunify ⊢
    rw [comment?_last hfeed hreturn]
    exact .some (agrees_of_append ('/' :: '/' :: line) ('/' :: '/' :: line) []
      (List.append_nil _).symm (hunify.trans (List.append_nil _).symm) rfl rfl)
  · rw [hends] at hunify ⊢
    rw [comment?_feed hfeed]
    have hunify' : unifyLineEnds ('/' :: '/' :: (line ++ rest)) =
        '/' :: '/' :: (line ++ ['\n']) ++ unifyLineEnds behind := by
      simpa using hunify
    rcases hforms with rfl | rfl | ⟨rfl, hhead⟩
    · rw [comment?_feed hfeed]
      exact .some (agrees_of_append ('/' :: '/' :: (line ++ ['\n'])) _ behind (by simp) hunify'
        (by simp) (by simp))
    · have hfeed' : '\n' ∉ line ++ ['\r'] := by simpa using hfeed
      have hsplit : line ++ '\r' :: '\n' :: behind = (line ++ ['\r']) ++ '\n' :: behind := by simp
      rw [hsplit, comment?_feed hfeed', ← hsplit]
      exact .some (agrees_of_append ('/' :: '/' :: (line ++ ['\r', '\n'])) _ behind (by simp)
        hunify' (by simp) (by simp))
    · by_cases hbehind : '\n' ∈ behind
      · -- The comment goes on, and so holds more line ends than it may.
        obtain ⟨n, hn, htwo⟩ := comment?_goesOn hfeed hreturn hhead hbehind
        rw [hn]
        refine .some ⟨rfl, fun hone => ?_⟩
        rw [hone rfl] at htwo
        omega
      · have hfeed' : '\n' ∉ line ++ '\r' :: behind := by simp [hfeed, hbehind]
        rw [comment?_return hfeed' hreturn]
        exact .some (agrees_of_append ('/' :: '/' :: (line ++ ['\r'])) _ behind (by simp) hunify'
          (by simp) (by simp))

theorem newline?_return (hcs : cs.head? ≠ some '\n') :
    newline? ('\r' :: cs) = some (.token .newline, 1) := by
  rw [newline?]
  rintro ds rfl
  exact hcs rfl

/-- Line ends are found as such. -/
theorem recognise?_of_newline? (hc : c = '\n' ∨ c = '\r') (h : newline? (c :: cs) = some found) :
    recognise? (c :: cs) = some found := by
  have hmark : c ≠ '/' ∧ Punct.ofChar? c = none ∧ c.isAlphanum = false ∧
      Literal.isDigitOrMark c = false ∧ c ≠ '\'' := by
    rcases hc with rfl | rfl <;> decide
  obtain ⟨hslash, hpunct, halnum, hdigit, hquote⟩ := hmark
  rw [recognise?_of_mark hslash hpunct halnum hdigit, char?_eq_none hquote, h]
  rfl

theorem rel_lineEnd (hrest : Ended rest) :
    Option.Rel (Agrees rest) (recognise? rest) (recognise? (unifyLineEnds rest)) := by
  rcases hrest.cases with rfl | ⟨behind, hunify, hforms⟩
  · exact .none
  · have hfeed : ∀ cs, recognise? ('\n' :: cs) = some (.token .newline, 1) :=
      fun cs => recognise?_of_newline? (.inl rfl) rfl
    rw [hunify, hfeed]
    rcases hforms with rfl | rfl | ⟨rfl, hhead⟩
    · rw [hfeed]
      exact .some (agrees_of_append ['\n'] ['\n'] behind rfl hunify rfl rfl)
    · rw [recognise?_of_newline? (.inr rfl) rfl]
      exact .some (agrees_of_append ['\r', '\n'] ['\n'] behind rfl hunify rfl rfl)
    · rw [recognise?_of_newline? (.inr rfl) (newline?_return hhead)]
      exact .some (agrees_of_append ['\r'] ['\n'] behind rfl hunify rfl rfl)

/-- What stands on a line, and is no comment, is found there. -/
theorem rel_line (hfeed : '\n' ∉ c :: line) (hreturn : '\r' ∉ c :: line)
    (hquote : c ≠ '\'' ∧ c ≠ '"') (hcomment : comment? (c :: line) = none) (hrest : Ended rest) :
    Option.Rel (Agrees (c :: line ++ rest)) (recognise? (c :: line ++ rest))
      (recognise? (unifyLineEnds (c :: line ++ rest))) := by
  rw [unifyLineEnds_append hreturn, recognise?_ended hfeed hreturn hquote hcomment hrest,
    recognise?_ended hfeed hreturn hquote hcomment hrest.unifyLineEnds]
  cases hfound : recognise? (c :: line) with
  | none => exact .none
  | some found =>
    have hle : found.2 ≤ (c :: line).length := by
      have hdescribes := recognise?_describes hfound
      obtain ⟨_ | _ | _, n⟩ := found
      · exact hdescribes.2
      · exact hdescribes.2.1
      · exact Nat.le_of_eq hdescribes.1
    have hreturn' : '\r' ∉ (c :: line).drop found.2 := fun h => hreturn (List.mem_of_mem_drop h)
    refine .some ⟨rfl, fun _ => ?_⟩
    rw [unifyLineEnds_append hreturn, List.drop_append_of_le_length hle,
      List.drop_append_of_le_length hle, unifyLineEnds_append hreturn']

theorem recognise?_unifyLineEnds (hquotes : '\'' ∉ cs ∧ '"' ∉ cs) :
    Option.Rel (Agrees cs) (recognise? cs) (recognise? (unifyLineEnds cs)) := by
  -- Comments come first, as they alone may go beyond their line.
  by_cases hblock : ∃ ds, cs = '/' :: '*' :: ds
  · obtain ⟨ds, rfl⟩ := hblock
    have hcomment : ∀ ds, comment? ('/' :: '*' :: ds) ≠ none :=
      fun ds h => (comment?_eq_none_iff.1 h ds).1 rfl
    rw [recognise?_of_comment? (hcomment ds)]
    exact (recognise?_of_comment? (hcomment (unifyLineEnds ds))) ▸ rel_blockComment ds
  by_cases hline : ∃ ds, cs = '/' :: '/' :: ds
  · obtain ⟨ds, rfl⟩ := hline
    have hcomment : ∀ ds, comment? ('/' :: '/' :: ds) ≠ none :=
      fun ds h => (comment?_eq_none_iff.1 h ds).2 rfl
    rw [recognise?_of_comment? (hcomment ds)]
    exact (recognise?_of_comment? (hcomment (unifyLineEnds ds))) ▸ rel_lineComment ds
  obtain ⟨line, rest, rfl, hfeed, hreturn, hrest⟩ := exists_line cs
  cases line with
  | nil => exact rel_lineEnd hrest
  | cons c line =>
    refine rel_line hfeed hreturn ⟨?_, ?_⟩ (comment?_eq_none_iff.2 fun ds => ⟨?_, ?_⟩) hrest
    · rintro rfl
      exact hquotes.1 List.mem_cons_self
    · rintro rfl
      exact hquotes.2 List.mem_cons_self
    · intro h
      exact hblock ⟨ds ++ rest, by rw [h]; rfl⟩
    · intro h
      exact hline ⟨ds ++ rest, by rw [h]; rfl⟩

theorem isReadable_unifyLineEnds (hquotes : '\'' ∉ cs ∧ '"' ∉ cs) :
    isReadable (unifyLineEnds cs) = isReadable cs := by
  have hrel := recognise?_unifyLineEnds hquotes
  rw [isReadable, isReadable]
  generalize recognise? cs = found at hrel
  generalize recognise? (unifyLineEnds cs) = found' at hrel
  cases hrel with
  | none => rfl
  | @some found found' h =>
    show (found'.1 != Piece.token .unexpected) = (found.1 != Piece.token .unexpected)
    rw [h.piece]

/-- Reading can go on at a line end. -/
theorem isReadable_lineEnd (hc : c = '\n' ∨ c = '\r') (cs : List Char) :
    isReadable (c :: cs) = true := by
  obtain ⟨n, hn⟩ : ∃ n, newline? (c :: cs) = some (.token .newline, n) := by
    rcases hc with rfl | rfl
    · exact ⟨1, rfl⟩
    · by_cases hcs : cs.head? = some '\n'
      · obtain ⟨ds, rfl⟩ := List.head?_eq_some_iff.1 hcs
        exact ⟨2, rfl⟩
      · exact ⟨1, newline?_return hcs⟩
  rw [isReadable, recognise?_of_newline? hc hn]
  rfl

theorem strayLength_eq_zero (h : isReadable cs = true) : strayLength cs = 0 := by
  cases cs with
  | nil => rfl
  | cons c cs => rw [strayLength, if_pos h]

/-- A stretch that cannot be read lies within a line. -/
theorem strayLength_unifyLineEnds (hquotes : '\'' ∉ cs ∧ '"' ∉ cs) :
    strayLength (unifyLineEnds cs) = strayLength cs ∧
      (unifyLineEnds cs).drop (strayLength cs) = unifyLineEnds (cs.drop (strayLength cs)) := by
  induction cs with
  | nil => exact ⟨rfl, rfl⟩
  | cons c cs ih =>
    have hreadable := isReadable_unifyLineEnds hquotes
    by_cases hc : isReadable (c :: cs) = true
    · rw [strayLength_eq_zero hc, strayLength_eq_zero (hreadable.trans hc)]
      exact ⟨rfl, rfl⟩
    · have hc' : c ≠ '\r' := fun h => hc (isReadable_lineEnd (.inr h) cs)
      have htail : '\'' ∉ cs ∧ '"' ∉ cs :=
        ⟨List.not_mem_of_not_mem_cons hquotes.1, List.not_mem_of_not_mem_cons hquotes.2⟩
      rw [unifyLineEnds_cons hc'] at hreadable ⊢
      rw [strayLength, strayLength, hreadable, if_neg hc, if_neg hc, (ih htail).1]
      exact ⟨rfl, (ih htail).2⟩

/-! ## Texts -/

theorem next_of_recognise? (h : recognise? cs = some found) : next cs = found := by
  cases cs with
  | nil => cases h
  | cons c cs => rw [next, h, Option.getD_some]

theorem next_unifyLineEnds (hquotes : '\'' ∉ cs ∧ '"' ∉ cs) :
    Agrees cs (next cs) (next (unifyLineEnds cs)) := by
  have hrel := recognise?_unifyLineEnds hquotes
  generalize hfound : recognise? cs = found at hrel
  generalize hfound' : recognise? (unifyLineEnds cs) = found' at hrel
  cases hrel with
  | some h =>
    rw [next_of_recognise? hfound, next_of_recognise? hfound']
    exact h
  | none =>
    cases cs with
    | nil => exact ⟨rfl, fun _ => rfl⟩
    | cons c cs =>
      have hc : c ≠ '\r' := by
        intro h
        have hreadable := isReadable_lineEnd (.inr h) cs
        rw [isReadable, hfound] at hreadable
        cases hreadable
      have htail : '\'' ∉ cs ∧ '"' ∉ cs :=
        ⟨List.not_mem_of_not_mem_cons hquotes.1, List.not_mem_of_not_mem_cons hquotes.2⟩
      obtain ⟨hlength, hbehind⟩ := strayLength_unifyLineEnds htail
      rw [unifyLineEnds_cons hc] at hfound' ⊢
      rw [next, next, hfound, hfound', Option.getD_none, Option.getD_none, hlength]
      refine ⟨rfl, fun _ => ?_⟩
      rw [unifyLineEnds_cons hc]
      exact hbehind

/-- The lexemes of a text are the first piece, if it is a token, and those of what stands behind. -/
theorem lexemesFrom_next (hcs : cs ≠ []) (pos : Nat) :
    lexemesFrom cs pos 0 = match next cs with
      | (.token t, n) => ⟨t, ⟨pos, pos + n⟩, String.ofList (cs.take n)⟩ ::
          lexemesFrom (cs.drop n) (pos + n) 0
      | (.blank, n) => lexemesFrom (cs.drop n) (pos + n) 0
      | (.finish, _) => [] := by
  have hdescribes := next_describes hcs
  obtain ⟨c, cs, rfl⟩ := List.exists_cons_of_ne_nil hcs
  rw [lexemesFrom]
  rcases hnext : next (c :: cs) with ⟨_ | _ | _, n⟩ <;> rw [hnext] at hdescribes
  · simp only [lexemesFrom_behind c cs pos hdescribes.1]
  · simp only [lexemesFrom_behind c cs pos hdescribes.1]

theorem unifyLineEnds_ne_nil (hcs : cs ≠ []) : unifyLineEnds cs ≠ [] := by
  fun_cases unifyLineEnds cs with
  | case1 => exact hcs
  | case2 => exact List.cons_ne_nil _ _
  | case3 => exact List.cons_ne_nil _ _

/-- Where each newline token holds one line end, the tokens stay when line ends are unified. -/
theorem tokens_unifyLineEnds (hquotes : '\'' ∉ cs ∧ '"' ∉ cs) (pos pos' : Nat)
    (hends : ∀ l ∈ lexemesFrom cs pos 0, l.token = .newline → lineEnds l.text.toList = 1) :
    (lexemesFrom (unifyLineEnds cs) pos' 0).map Lexeme.token =
      (lexemesFrom cs pos 0).map Lexeme.token := by
  -- Each piece but the last takes a character at least, so less is left behind it.
  induction hlen : cs.length using Nat.strong_induction_on generalizing cs pos pos' with
  | _ len ih =>
    by_cases hcs : cs = []
    · rw [hcs]
      rfl
    have hagrees := next_unifyLineEnds hquotes
    have hdescribes := next_describes hcs
    rw [lexemesFrom_next hcs] at hends ⊢
    rw [lexemesFrom_next (unifyLineEnds_ne_nil hcs)]
    rcases hnext : next cs with ⟨piece, n⟩
    rcases hnext' : next (unifyLineEnds cs) with ⟨piece', n'⟩
    rw [hnext] at hagrees hdescribes hends
    rw [hnext'] at hagrees
    obtain rfl : piece' = piece := hagrees.piece
    have hquotes' : '\'' ∉ cs.drop n ∧ '"' ∉ cs.drop n :=
      ⟨fun h => hquotes.1 (List.mem_of_mem_drop h), fun h => hquotes.2 (List.mem_of_mem_drop h)⟩
    cases piece' with
    | finish => rfl
    | blank =>
      obtain ⟨hpos, hle, -⟩ := hdescribes
      have hbehind : (unifyLineEnds cs).drop n' = unifyLineEnds (cs.drop n) :=
        hagrees.behind nofun
      have hshorter : (cs.drop n).length < len := by
        rw [List.length_drop]
        omega
      show (lexemesFrom ((unifyLineEnds cs).drop n') (pos' + n') 0).map Lexeme.token =
        (lexemesFrom (cs.drop n) (pos + n) 0).map Lexeme.token
      rw [hbehind]
      exact ih _ hshorter hquotes' _ _ hends rfl
    | token t =>
      obtain ⟨hpos, hle⟩ := hdescribes
      obtain ⟨hone, hends⟩ := List.forall_mem_cons.1 hends
      have hbehind : (unifyLineEnds cs).drop n' = unifyLineEnds (cs.drop n) := by
        apply hagrees.behind
        intro ht
        have htext := hone (Piece.token.inj ht)
        rwa [String.toList_ofList] at htext
      have hshorter : (cs.drop n).length < len := by
        rw [List.length_drop]
        omega
      show t :: (lexemesFrom ((unifyLineEnds cs).drop n') (pos' + n') 0).map Lexeme.token =
        t :: (lexemesFrom (cs.drop n) (pos + n) 0).map Lexeme.token
      rw [hbehind, ih _ hshorter hquotes' _ _ hends rfl]

end Scriptlet.Scan
