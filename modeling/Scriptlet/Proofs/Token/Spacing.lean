import Scriptlet.Proofs.Token.Shapes

/-!
# Spaces between tokens

Spaces may be put in before or behind any token: the same tokens are read, those behind the place
further on.  What a matcher takes depends on what follows it, but a space never lets a token go on
and never starts a comment, and nothing that could end a line comes with it.  So a token stays where
it stands (`Scan.Stands.spread`), and reading goes on behind it: `Scan.lexemes_insertSpaces`.
-/

namespace Scriptlet

/-- The lexeme `k` positions further on. -/
def Lexeme.shift (k : Nat) (l : Lexeme) : Lexeme :=
  { l with span := ⟨l.span.lo + k, l.span.hi + k⟩ }

namespace Text

/-- The text with `k` spaces before position `p`. -/
def insertSpaces (p k : Nat) (cs : List Char) : List Char :=
  cs.take p ++ (List.replicate k ' ' ++ cs.drop p)

/-- What stands before the place of the spaces stays at the front. -/
theorem insertSpaces_append {front rest : List Char} {p : Nat} (hp : front.length ≤ p) (k : Nat) :
    insertSpaces p k (front ++ rest) = front ++ insertSpaces (p - front.length) k rest := by
  rw [insertSpaces, insertSpaces, List.take_append, List.drop_append, List.take_of_length_le hp,
    List.drop_of_length_le hp, List.nil_append, List.append_assoc]

end Text

namespace Scan

open Text

variable {cs front rest rest' text : List Char} {t : Token} {pos : Nat}

/-! ## Tokens stay where spaces follow -/

/-- `rest'` is `rest` with spaces in it: it starts with a space or as before, and holds a line feed
only if one was there. -/
structure Spread (rest rest' : List Char) : Prop where
  head : ∀ c ∈ rest'.head?, c = ' ' ∨ c ∈ rest.head?
  feed : '\n' ∈ rest' → '\n' ∈ rest

theorem spread_insertSpaces (p k : Nat) (cs : List Char) : Spread cs (insertSpaces p k cs) where
  head := by
    intro c hc
    -- Either the text goes on with its own character, or with spaces if there are any.
    cases hfront : cs.take p with
    | cons d ds =>
      rw [insertSpaces, hfront, List.cons_append] at hc
      rw [← List.take_append_drop p cs, hfront, List.cons_append]
      exact .inr hc
    | nil =>
      have hcs : cs.drop p = cs := by
        rw [← List.nil_append (cs.drop p), ← hfront, List.take_append_drop]
      rw [insertSpaces, hfront, hcs, List.nil_append] at hc
      cases k with
      | zero => exact .inr hc
      | succ k => exact .inl (Option.some.inj hc).symm
  feed := by
    intro hfeed
    rw [insertSpaces, List.mem_append, List.mem_append] at hfeed
    rcases hfeed with hfeed | hfeed | hfeed
    · exact List.mem_of_mem_take hfeed
    · exact absurd (List.eq_of_mem_replicate hfeed) (by decide)
    · exact List.mem_of_mem_drop hfeed

/-- What holds of a space and of what followed before holds of what follows now. -/
theorem Spread.forall_head (h : Spread rest rest') {P : Char → Prop} (hspace : P ' ')
    (hrest : ∀ c ∈ rest.head?, P c) : ∀ c ∈ rest'.head?, P c := by
  intro c hc
  rcases h.head c hc with rfl | hc
  · exact hspace
  · exact hrest c hc

/-- A token stays a token where spaces are put in behind it. -/
theorem Stands.spread (hstands : Stands text t rest) (h : Spread rest rest') :
    Stands text t rest' := by
  cases hstands with
  | comment hline => exact .comment hline
  | lastComment hfeed hreturn hrest =>
    exact .lastComment hfeed hreturn fun hfeed' => hrest (h.feed hfeed')
  | lineFeed => exact .lineFeed
  | bothEnds => exact .bothEnds
  | lineReturn hrest =>
    -- The line feed that would belong to the carriage return is not there.
    refine .lineReturn fun hfeed => ?_
    rcases h.head _ hfeed with hspace | hfeed
    · exact absurd hspace (by decide)
    · exact hrest hfeed
  | symbol hrest => exact .symbol fun hp => h.forall_head (by decide) (hrest hp)
  | keyword hrest => exact .keyword (h.forall_head (by decide) hrest)
  | bool hrest => exact .bool (h.forall_head (by decide) hrest)
  | ident hname hrest => exact .ident hname (h.forall_head (by decide) hrest)
  | int hc hint hrest => exact .int hc hint (h.forall_head (by decide) hrest)
  | char hquoted => exact .char hquoted
  | str hquoted => exact .str hquoted
  | andOp => exact .andOp
  | orOp => exact .orOp
  | rangeOp => exact .rangeOp

/-! ## Reading from elsewhere -/

/-- Read from further on, the lexemes stand further on. -/
theorem lexemesFrom_shift (cs : List Char) (pos skip k : Nat) :
    lexemesFrom cs (pos + k) skip = (lexemesFrom cs pos skip).map (Lexeme.shift k) := by
  induction cs generalizing pos skip with
  | nil => rfl
  | cons c cs ih =>
    have hpos : pos + k + 1 = pos + 1 + k := by omega
    cases skip with
    | succ skip => rw [lexemesFrom, lexemesFrom, hpos, ih]
    | zero =>
      rw [lexemesFrom, lexemesFrom]
      rcases next (c :: cs) with ⟨t | _ | _, n⟩
      · have hspan : pos + k + n = pos + n + k := by omega
        dsimp only
        rw [List.map_cons, hpos, ih, Lexeme.shift, hspan]
      · dsimp only
        rw [hpos, ih]
      · rfl

/-- The stretch of a lexeme is not empty and lies behind the start. -/
theorem bounds_of_mem {l : Lexeme} (hl : l ∈ lexemesFrom cs pos 0) :
    pos ≤ l.span.lo ∧ l.span.lo < l.span.hi := by
  rw [← Nat.zero_add pos, lexemesFrom_shift] at hl
  obtain ⟨origin, hmem, rfl⟩ := List.mem_map.1 hl
  have hinside := (reads_lexemesFrom cs 0).tiles.inside origin hmem
  exact ⟨Nat.le_add_left pos origin.span.lo, Nat.add_lt_add_right hinside.2.1 pos⟩

/-! ## Blanks are passed over -/

/-- A comment ends at the first closing mark. -/
theorem commentEnd?_append {body : List Char} (hbody : ¬ ['*', '/'] <:+: body) (rest : List Char) :
    commentEnd? (body ++ '*' :: '/' :: rest) = some (body.length + 2) := by
  induction body with
  | nil => rfl
  | cons c body ih =>
    have hopen : ¬ (c = '*' ∧ (body ++ '*' :: '/' :: rest).head? = some '/') := by
      rintro ⟨rfl, hslash⟩
      cases body with
      | nil => exact absurd (Option.some.inj hslash) (by decide)
      | cons d body =>
        obtain rfl : d = '/' := Option.some.inj hslash
        exact hbody ⟨[], body, rfl⟩
    have hbody' : ¬ ['*', '/'] <:+: body := fun h => hbody (h.trans (List.suffix_cons c body).isInfix)
    rw [List.cons_append, commentEnd?_cons hopen, ih hbody', Option.map_some, List.length_cons]

/-- A space is passed over, whatever follows. -/
theorem lexemesFrom_cons_space (cs : List Char) (pos : Nat) :
    lexemesFrom (' ' :: cs) pos 0 = lexemesFrom cs (pos + 1) 0 := by
  have hspaces : ∀ (ds : List Char) (pos : Nat), lexemesFrom (' ' :: ds) pos 0 =
      lexemesFrom (ds.drop (run (· = ' ') ds)) (pos + 1 + run (· = ' ') ds) 0 := by
    intro ds pos
    have hnext := next_of_recognise? (recognise?_space ds)
    rw [lexemesFrom, hnext]
    dsimp only
    rw [Nat.add_sub_cancel, lexemesFrom_skip]
  -- One blank holds all the spaces, so what counts is whether another one follows.
  by_cases hcs : cs.head? = some ' '
  · obtain ⟨ds, rfl⟩ := List.head?_eq_some_iff.1 hcs
    have hrun : run (· = ' ') (' ' :: ds) = run (· = ' ') ds + 1 := by simp [run]
    have hpos : pos + 1 + (run (· = ' ') ds + 1) = pos + 1 + 1 + run (· = ' ') ds := by omega
    rw [hspaces, hspaces, hrun, List.drop_succ_cons, hpos]
  · apply lexemesFrom_space
    cases cs with
    | nil => rfl
    | cons c cs =>
      have hc : c ≠ ' ' := fun h => hcs (congrArg some h)
      simp [run, hc]

/-- Blanks are passed over, whatever follows. -/
theorem lexemesFrom_blank (hfront : Blank front) (rest : List Char) (pos : Nat) :
    lexemesFrom (front ++ rest) pos 0 = lexemesFrom rest (pos + front.length) 0 := by
  induction hfront generalizing pos with
  | nil => rfl
  | @space cs _ ih =>
    have hpos : pos + 1 + cs.length = pos + (cs.length + 1) := by omega
    rw [List.cons_append, lexemesFrom_cons_space, ih, List.length_cons, hpos]
  | @comment body cs hbody _ ih =>
    let whole := '/' :: '*' :: (body ++ ['*', '/'])
    have hlength : whole.length = body.length + 4 := by simp [whole]
    have htext : '/' :: '*' :: (body ++ '*' :: '/' :: cs) ++ rest = whole ++ (cs ++ rest) := by
      simp [whole]
    have hfound : comment? (whole ++ (cs ++ rest)) = some (.blank, whole.length) := by
      have hend := commentEnd?_append hbody (cs ++ rest)
      rw [← htext, List.cons_append, List.cons_append, comment?, List.append_assoc,
        List.cons_append, List.cons_append, hend, hlength]
    have hnext := next_of_recognise? ((recognise?_of_comment? (by simp [hfound])).trans hfound)
    have hpos : pos + whole.length + cs.length =
        pos + ('/' :: '*' :: (body ++ '*' :: '/' :: cs)).length := by
      simp [whole]
      omega
    have hne : whole ++ (cs ++ rest) ≠ [] := List.cons_ne_nil _ _
    rw [htext, lexemesFrom_next hne, hnext]
    dsimp only
    rw [List.drop_left, ih, hpos]

/-! ## Spaces put in -/

theorem lexemesFrom_of_token {n : Nat} (h : next cs = (.token t, n)) (pos : Nat) :
    lexemesFrom cs pos 0 = ⟨t, ⟨pos, pos + n⟩, String.ofList (cs.take n)⟩ ::
      lexemesFrom (cs.drop n) (pos + n) 0 := by
  have hne : cs ≠ [] := by
    rintro rfl
    cases h
  rw [lexemesFrom_next hne, h]

theorem lexemesFrom_stands (h : Stands text t rest) (pos : Nat) :
    lexemesFrom (text ++ rest) pos 0 =
      ⟨t, ⟨pos, pos + text.length⟩, String.ofList text⟩ ::
        lexemesFrom rest (pos + text.length) 0 := by
  rw [lexemesFrom_of_token h.next_eq, List.take_left, List.drop_left]

/-- A text from which a lexeme is read, and no stray stretch, starts with blanks or a token. -/
theorem blank_or_stands (hsome : lexemesFrom cs pos 0 ≠ [])
    (hexpected : ∀ l ∈ lexemesFrom cs pos 0, l.token ≠ .unexpected) :
    ∃ front rest, cs = front ++ rest ∧ front ≠ [] ∧ (Blank front ∨ ∃ t, Stands front t rest) := by
  have hcs : cs ≠ [] := by
    rintro rfl
    exact hsome rfl
  have hdescribes := next_describes hcs
  rw [lexemesFrom_next hcs] at hsome hexpected
  rcases hnext : next cs with ⟨t | _ | _, n⟩ <;> rw [hnext] at hdescribes hsome hexpected
  case finish => exact absurd rfl hsome
  case blank =>
    obtain ⟨hpos, hle, hblank⟩ := hdescribes
    have hlength : (cs.take n).length = n := List.length_take_of_le hle
    refine ⟨cs.take n, cs.drop n, (List.take_append_drop n cs).symm, ?_, .inl hblank⟩
    exact List.ne_nil_of_length_pos (Nat.lt_of_lt_of_eq hpos hlength.symm)
  case token =>
    obtain ⟨hpos, hle⟩ := hdescribes
    have hlength : (cs.take n).length = n := List.length_take_of_le hle
    refine ⟨cs.take n, cs.drop n, (List.take_append_drop n cs).symm, ?_, .inr ⟨t, ?_⟩⟩
    · exact List.ne_nil_of_length_pos (Nat.lt_of_lt_of_eq hpos hlength.symm)
    · rw [← next_eq_token_iff (hexpected _ List.mem_cons_self), List.take_append_drop, hnext, hlength]

/-- Spaces at the start of a text move all lexemes. -/
theorem lexemesFrom_spaces (cs : List Char) (pos k : Nat) :
    lexemesFrom (insertSpaces 0 k cs) pos 0 =
      (lexemesFrom cs pos 0).map fun l => if pos ≤ l.span.lo then l.shift k else l := by
  have hblank : Blank (List.replicate k ' ') :=
    blank_of_spaces fun c hc => List.eq_of_mem_replicate hc
  have htext : insertSpaces 0 k cs = List.replicate k ' ' ++ cs := rfl
  rw [htext, lexemesFrom_blank hblank, List.length_replicate, lexemesFrom_shift]
  apply List.map_congr_left
  intro l hl
  rw [if_pos (bounds_of_mem hl).1]

/-- Spaces before or behind a lexeme move the lexemes that start behind them. -/
theorem lexemesFrom_insertSpaces {p : Nat} (k : Nat)
    (hexpected : ∀ l ∈ lexemesFrom cs pos 0, l.token ≠ .unexpected)
    (hp : p = 0 ∨ ∃ l ∈ lexemesFrom cs pos 0, pos + p = l.span.lo ∨ pos + p = l.span.hi) :
    lexemesFrom (insertSpaces p k cs) pos 0 =
      (lexemesFrom cs pos 0).map fun l => if pos + p ≤ l.span.lo then l.shift k else l := by
  -- Piece by piece up to the place of the spaces, which never lies inside of a piece.
  induction hlen : cs.length using Nat.strong_induction_on generalizing cs pos p with
  | _ len ih =>
    by_cases hzero : p = 0
    · subst hzero
      exact lexemesFrom_spaces cs pos k
    replace hp := hp.resolve_left hzero
    obtain ⟨l, hl, hplace⟩ := hp
    obtain ⟨front, rest, rfl, hfront, hpiece⟩ :=
      blank_or_stands (List.ne_nil_of_mem hl) hexpected
    have hpos : 0 < front.length := List.length_pos_iff.2 hfront
    have hshorter : rest.length < len := by
      rw [← hlen, List.length_append]
      omega
    rcases hpiece with hblank | ⟨t, hstands⟩
    · rw [lexemesFrom_blank hblank] at hl hexpected ⊢
      have hle : front.length ≤ p := by
        have hbounds := bounds_of_mem hl
        omega
      have hplace' : pos + p = pos + front.length + (p - front.length) := by omega
      rw [hplace'] at hplace ⊢
      rw [insertSpaces_append hle, lexemesFrom_blank hblank]
      exact ih _ hshorter hexpected (.inr ⟨l, hl, hplace⟩) rfl
    · rw [lexemesFrom_stands hstands] at hl hexpected ⊢
      obtain ⟨-, hexpected⟩ := List.forall_mem_cons.1 hexpected
      -- The place is the end of this token, or it belongs to a later one.
      have hlater : front.length ≤ p ∧ (p - front.length = 0 ∨
          ∃ l ∈ lexemesFrom rest (pos + front.length) 0,
            pos + front.length + (p - front.length) = l.span.lo ∨
              pos + front.length + (p - front.length) = l.span.hi) := by
        rcases List.mem_cons.1 hl with rfl | hl
        · dsimp only at hplace
          omega
        · have hbounds := bounds_of_mem hl
          refine ⟨by omega, .inr ⟨l, hl, by omega⟩⟩
      obtain ⟨hle, hlater⟩ := hlater
      have hplace' : pos + p = pos + front.length + (p - front.length) := by omega
      have hbefore : ¬ pos + p ≤ pos := by omega
      have hstands' := hstands.spread (spread_insertSpaces (p - front.length) k rest)
      rw [insertSpaces_append hle, lexemesFrom_stands hstands', List.map_cons, if_neg hbefore,
        hplace', ih _ hshorter hexpected hlater rfl]

/-- Spaces may stand between tokens.  In a source without stray characters, any number of them may be
put in where a token starts or ends: the same tokens are read from the same texts, those that started
there or later further on by this number, and the others where they were. -/
theorem lexemes_insertSpaces (source : String)
    (hexpected : ∀ l ∈ lexemes source, l.token ≠ .unexpected) (p : Nat)
    (hp : ∃ l ∈ lexemes source, p = l.span.lo ∨ p = l.span.hi) (k : Nat) :
    lexemes (String.ofList (insertSpaces p k source.toList)) =
      (lexemes source).map fun l => if p ≤ l.span.lo then l.shift k else l := by
  have hzero : 0 + p = p := Nat.zero_add p
  rw [lexemes] at hexpected hp
  rw [← hzero] at hp
  rw [lexemes, String.toList_ofList, lexemesFrom_insertSpaces k hexpected (.inr hp), hzero, lexemes]

/-- A source in which tokens stand close together: a word before a digit, a slash before a comment,
and a comment that a carriage return ends. -/
def crowded : String := "if1/ /**/x..\"/*\"//\r1&&"

theorem lexemes_insertSpaces_crowded :
    (∀ l ∈ lexemes crowded, l.token ≠ .unexpected) ∧
      (∃ l ∈ lexemes crowded, 2 = l.span.lo ∨ 2 = l.span.hi) ∧
      lexemes (String.ofList (insertSpaces 2 3 crowded.toList)) =
        (lexemes crowded).map fun l => if 2 ≤ l.span.lo then l.shift 3 else l := by
  have hexpected : ∀ l ∈ lexemes crowded, l.token ≠ .unexpected := by decide +kernel
  have hplace : ∃ l ∈ lexemes crowded, 2 = l.span.lo ∨ 2 = l.span.hi := by decide +kernel
  exact ⟨hexpected, hplace, lexemes_insertSpaces crowded hexpected 2 hplace 3⟩

end Scan

end Scriptlet
