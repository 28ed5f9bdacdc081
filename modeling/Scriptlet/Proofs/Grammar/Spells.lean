import Scriptlet.Proofs.Grammar.Meaning

/-!
# Tokens in a window

`Layout.Spells` says which tokens stand in a window.  With the tokens known, this module says what
the rules for single tokens give, and what the searches for operators and closing parentheses find.
-/

namespace Scriptlet

namespace Layout

/-- The tokens from lexeme `lo` up to, not including, lexeme `hi` are `ts`. -/
structure Spells (L : Layout) (lo hi : Nat) (ts : List Token) : Prop where
  start : lo ≤ hi
  stop : hi ≤ L.lexemes.size
  tokens_eq : ((L.lexemes.toList.drop lo).take (hi - lo)).map Lexeme.token = ts

namespace Spells

variable {L : Layout} {lo hi : Nat} {ts us : List Token}

theorem length_eq (h : L.Spells lo hi ts) : hi = lo + ts.length := by
  have hstart := h.start
  have hstop := h.stop
  rw [← h.tokens_eq, List.length_map, List.length_take, List.length_drop, Array.length_toList]
  omega

theorem window_length (h : L.Spells lo hi ts) : Window.length ⟨lo, hi⟩ = ts.length := by
  have hlen := h.length_eq
  simp only [Window.length]
  omega

/-- A window of a list of tokens in two parts is two windows. -/
theorem append (h : L.Spells lo hi (ts ++ us)) :
    L.Spells lo (lo + ts.length) ts ∧ L.Spells (lo + ts.length) hi us := by
  have hlen := h.length_eq
  have hstop := h.stop
  rw [List.length_append] at hlen
  have hsplit : hi - lo = ts.length + us.length := by omega
  have htokens := h.tokens_eq
  rw [hsplit, List.take_add, List.map_append, List.drop_drop] at htokens
  have hleft : (((L.lexemes.toList.drop lo).take ts.length).map Lexeme.token).length =
      ts.length := by
    have hsize : L.lexemes.toList.length = L.lexemes.size := Array.length_toList
    rw [List.length_map, List.length_take, List.length_drop, hsize]
    omega
  obtain ⟨hts, hus⟩ := List.append_inj htokens hleft
  refine ⟨⟨by omega, by omega, ?_⟩, ⟨by omega, hstop, ?_⟩⟩
  · rwa [Nat.add_sub_cancel_left]
  · have hright : hi - (lo + ts.length) = us.length := by omega
    rwa [hright]

/-- Tokens that are spelled start with a lexeme for the first of them. -/
theorem cons {t : Token} (h : L.Spells lo hi (t :: ts)) :
    lo < hi ∧ (∃ l, L.lexemes[lo]? = some l ∧ l.token = t) ∧ L.Spells (lo + 1) hi ts := by
  obtain ⟨hfirst, hrest⟩ := (show L.Spells lo hi ([t] ++ ts) from h).append
  have hlt : lo < L.lexemes.toList.length := by
    have hstop := hfirst.stop
    simp only [List.length_singleton, Array.length_toList] at hstop ⊢
    omega
  have htoken := hfirst.tokens_eq
  rw [List.length_singleton, Nat.add_sub_cancel_left, List.drop_eq_getElem_cons hlt] at htoken
  have hlen := h.length_eq
  rw [List.length_cons] at hlen
  refine ⟨by omega, ⟨L.lexemes.toList[lo], ?_, by simpa using htoken⟩, hrest⟩
  simp only [Array.length_toList] at hlt
  simp [hlt]

/-- The first part of a window holds the first tokens. -/
theorem take {p : Nat} (h : L.Spells lo hi ts) (hlo : lo ≤ p) (hhi : p ≤ hi) :
    L.Spells lo p (ts.take (p - lo)) := by
  refine ⟨hlo, Nat.le_trans hhi h.stop, ?_⟩
  have hmin : min (p - lo) (hi - lo) = p - lo := by omega
  rw [← h.tokens_eq, ← List.map_take, List.take_take, hmin]

end Spells

end Layout

namespace Grammar

open Rule

variable {L : Layout} {lo hi : Nat} {t : Token} {ts : List Token}

/-! ## Single tokens -/

theorem get?_spells (h : L.Spells lo hi (t :: ts)) :
    ∃ l, Window.get? ⟨lo, hi⟩ L.lexemes 0 = some l ∧ l.token = t := by
  obtain ⟨hlt, ⟨l, hget, htoken⟩, -⟩ := h.cons
  have hzero : 0 < Window.length ⟨lo, hi⟩ := by
    rw [h.window_length]
    exact Nat.zero_lt_succ _
  exact ⟨l, by rw [Window.get?, if_pos hzero]; exact hget, htoken⟩

theorem get?_spells_nil (h : L.Spells lo hi []) : Window.get? ⟨lo, hi⟩ L.lexemes 0 = none := by
  have hzero : ¬ 0 < Window.length ⟨lo, hi⟩ := by
    rw [h.window_length]
    exact Nat.lt_irrefl 0
  rw [Window.get?, if_neg hzero]

/-- The first token is looked at and left standing. -/
theorem gets_first (h : L.Spells lo hi (t :: ts)) :
    (first L).Gets L lo hi fun l k => l.token = t ∧ k = lo := by
  obtain ⟨l, hget, htoken⟩ := get?_spells h
  refine ⟨l, lo, ?_, htoken, rfl⟩
  simp only [Rule.eval, first, Window.first, hget, Query.eval]

theorem fails_first (h : L.Spells lo hi []) : (first L).Fails L lo hi := by
  refine ⟨.endOfInput, ?_⟩
  simp only [Rule.eval, first, Window.first, get?_spells_nil h, Query.eval]

theorem gets_peek? (h : L.Spells lo hi ts) :
    (peek? L).Gets L lo hi fun l? k => l?.map Lexeme.token = ts.head? ∧ k = lo := by
  cases ts with
  | nil => exact ⟨none, lo, by rw [← get?_spells_nil h]; rfl, rfl, rfl⟩
  | cons t ts =>
    obtain ⟨l, hget, htoken⟩ := get?_spells h
    exact ⟨some l, lo, by rw [← hget]; rfl, by rw [Option.map_some, htoken]; rfl, rfl⟩

theorem gets_advance (h : L.Spells lo hi (t :: ts)) :
    advance.Gets L lo hi fun _ k => k = lo + 1 := by
  have hlt := h.cons.1
  refine ⟨(), lo + 1, ?_, rfl⟩
  show Except.ok ((), min (lo + 1) hi) = _
  rw [Nat.min_eq_left hlt]

/-- A token that is waited for is passed over if it comes. -/
theorem gets_expect {x : Expected} (h : L.Spells lo hi (t :: ts)) (hx : x.accepts t = true) :
    (expect L x).Gets L lo hi fun _ k => k = lo + 1 := by
  refine gets_bind (gets_first h) ?_
  rintro l _ ⟨rfl, rfl⟩
  rw [if_pos hx]
  refine gets_bind (gets_advance h) ?_
  rintro _ _ rfl
  exact gets_pure rfl

/-- A token that is waited for must come. -/
theorem fails_expect {x : Expected} (h : L.Spells lo hi ts)
    (hx : ∀ t, ts.head? = some t → x.accepts t = false) : (expect L x).Fails L lo hi := by
  cases ts with
  | nil => exact fails_bind_left (fails_first h)
  | cons t ts =>
    refine fails_bind_right (gets_first h) ?_
    rintro l _ ⟨rfl, rfl⟩
    rw [if_neg (by simp [hx l.token rfl])]
    exact fails_fail _

theorem gets_symbol {p : Punct} (h : L.Spells lo hi (.symbol p :: ts)) :
    (expect L (.symbol p)).Gets L lo hi fun _ k => k = lo + 1 :=
  gets_expect h (by simp [Expected.accepts])

theorem fails_symbol {p : Punct} (h : L.Spells lo hi ts) (hp : ts.head? ≠ some (.symbol p)) :
    (expect L (.symbol p)).Fails L lo hi := by
  refine fails_expect h fun t ht => Bool.eq_false_iff.2 fun haccepts => ?_
  have htoken : t = .symbol p := eq_of_accepts_symbol haccepts
  exact hp (htoken ▸ ht)

theorem gets_keyword {kw : Keyword} (h : L.Spells lo hi (.keyword kw :: ts)) :
    (expect L (.keyword kw)).Gets L lo hi fun _ k => k = lo + 1 :=
  gets_expect h (by simp [Expected.accepts])

theorem gets_accept {p : Punct} (h : L.Spells lo hi (.symbol p :: ts)) :
    (accept L (.symbol p)).Gets L lo hi fun found k => found = true ∧ k = lo + 1 := by
  refine gets_bind (gets_first h) ?_
  rintro l _ ⟨htoken, rfl⟩
  rw [if_pos (by simp [htoken, Expected.accepts])]
  refine gets_bind (gets_advance h) ?_
  rintro _ _ rfl
  exact gets_pure ⟨rfl, rfl⟩

/-- A symbol that does not come is not passed over. -/
theorem gets_accept_other {p : Punct} (h : L.Spells lo hi (t :: ts)) (ht : t ≠ .symbol p) :
    (accept L (.symbol p)).Gets L lo hi fun found k => found = false ∧ k = lo := by
  refine gets_bind (gets_first h) ?_
  rintro l _ ⟨rfl, rfl⟩
  rw [if_neg fun haccepts => ht (eq_of_accepts_symbol haccepts)]
  exact gets_pure ⟨rfl, rfl⟩

/-- Whether a token comes can be asked of an empty rest, too. -/
theorem gets_nextIs {x : Expected} (h : L.Spells lo hi ts) :
    (nextIs L x).Gets L lo hi fun found k =>
      found = (ts.head?.map x.accepts).getD false ∧ k = lo := by
  refine gets_bind (gets_peek? h) ?_
  rintro l? _ ⟨hl, rfl⟩
  cases l? with
  | none =>
    refine gets_pure ⟨?_, rfl⟩
    rw [← hl]
    rfl
  | some l =>
    refine gets_pure ⟨?_, rfl⟩
    rw [← hl]
    rfl

theorem gets_name {text : String} (h : L.Spells lo hi (.ident text :: ts)) :
    (name L).Gets L lo hi fun n k => n.text = text ∧ k = lo + 1 := by
  refine gets_bind (gets_first h) ?_
  rintro l _ ⟨htoken, rfl⟩
  rw [htoken]
  refine gets_bind (gets_advance h) ?_
  rintro _ _ rfl
  exact gets_pure ⟨rfl, rfl⟩

theorem gets_spanFrom (start : Nat) : (spanFrom L start).Gets L lo hi fun _ k => k = lo :=
  ⟨L.spanOf start lo, lo, rfl, rfl⟩

end Grammar

/-! ## Searches -/

namespace Search

/-- Number of tokens before the closing parenthesis that closes one more than were opened, with
`depth` parentheses open. -/
def closingIn : (depth : Nat) → List Token → Option Nat
  | _, [] => none
  | depth, t :: ts =>
    if t = .symbol .rparen ∧ depth = 0 then some 0
    else (closingIn (depth + t.nesting).toNat ts).map (· + 1)

/-- Number of tokens before the first `t` outside of parentheses, with `depth` of them open. -/
def findIn (t : Token) : (depth : Nat) → List Token → Option Nat
  | _, [] => none
  | depth, u :: us =>
    if u = .symbol .rparen ∧ depth = 0 then none
    else if u = t ∧ depth = 0 then some 0
    else (findIn t (depth + u.nesting).toNat us).map (· + 1)

variable {L : Layout} {lo hi : Nat} {ts : List Token}

theorem map_add_one (lo : Nat) (i? : Option Nat) :
    (i?.map (lo + 1 + ·)) = (i?.map (· + 1)).map (lo + ·) := by
  cases i? with
  | none => rfl
  | some i => simp only [Option.map_some, Option.some.injEq]; omega

/-- The scan along lexemes is the search among their tokens, moved to where they start. -/
theorem closingFrom_spells (h : L.Spells lo hi ts) (depth : Nat) :
    closingFrom L.lexemes ts.length lo depth = (closingIn depth ts).map (lo + ·) := by
  induction ts generalizing lo depth with
  | nil => rfl
  | cons t ts ih =>
    obtain ⟨-, ⟨l, hget, rfl⟩, hrest⟩ := h.cons
    rw [List.length_cons, closingFrom_some hget, closingIn]
    by_cases hclose : l.token = .symbol .rparen ∧ depth = 0
    · simp only [if_pos hclose, Option.map_some, Nat.add_zero]
    · simp only [if_neg hclose]
      rw [ih hrest, map_add_one]

/-- The scan for an operator is the search among the tokens, moved to where they start. -/
theorem findFrom_spells (h : L.Spells lo hi ts) (t : Token) (depth : Nat) :
    findFrom L.lexemes t ts.length lo depth = (findIn t depth ts).map (lo + ·) := by
  induction ts generalizing lo depth with
  | nil => rfl
  | cons u ts ih =>
    obtain ⟨-, ⟨l, hget, rfl⟩, hrest⟩ := h.cons
    rw [List.length_cons, findFrom, hget, findIn]
    by_cases hclose : l.token = .symbol .rparen ∧ depth = 0
    · simp only [if_pos hclose, Option.map_none]
    · by_cases hfound : l.token = t ∧ depth = 0
      · simp only [if_neg hclose, if_pos hfound, Option.map_some, Nat.add_zero]
      · simp only [if_neg hclose, if_neg hfound]
        rw [ih hrest, map_add_one]

end Search

/-- The searches of a layout are scans. -/
structure Layout.Scans (L : Layout) : Prop where
  closing : ∀ {w : Window}, w.Within L.lexemes.size → L.closing? w = Search.closing? L.lexemes w
  find : ∀ {w : Window} (t : Token), w.Within L.lexemes.size →
    L.find? t w = Search.find? L.lexemes t w

/-- What the tables find is what scans find. -/
theorem Layout.scans_indexed (lexemes : List Lexeme) : (indexed lexemes).Scans where
  closing := fun hw => closing?_indexed (within_indexed.1 hw)
  find := fun _ hw => find?_indexed (within_indexed.1 hw)

namespace Layout.Scans

variable {L : Layout} {lo hi : Nat} {ts : List Token}

/-- Where the parenthesis closes is decided by the tokens of the window. -/
theorem closing?_spells (hL : L.Scans) (h : L.Spells lo hi ts) :
    L.closing? ⟨lo, hi⟩ = (Search.closingIn 0 ts).map (lo + ·) := by
  rw [hL.closing ⟨h.start, h.stop⟩, Search.closing?, h.window_length, Search.closingFrom_spells h]

/-- Where an operator is found is decided by the tokens of the window. -/
theorem find?_spells (hL : L.Scans) (h : L.Spells lo hi ts) (t : Token) :
    L.find? t ⟨lo, hi⟩ = (Search.findIn t 0 ts).map (lo + ·) := by
  rw [hL.find t ⟨h.start, h.stop⟩, Search.find?, h.window_length, Search.findFrom_spells h]

end Layout.Scans

/-! ## Nested parentheses -/

namespace Token

/-- Every parenthesis is opened and closed. -/
inductive Nested : List Token → Prop
  | nil : Nested []
  | cons {t : Token} {ts : List Token} : t.nesting = 0 → Nested ts → Nested (t :: ts)
  | parens {ts us : List Token} : Nested ts → Nested us →
      Nested (.symbol .lparen :: (ts ++ .symbol .rparen :: us))

/-- Parentheses are nested, and `t` stands only inside of them. -/
inductive Clear (t : Token) : List Token → Prop
  | nil : Clear t []
  | cons {u : Token} {ts : List Token} : u.nesting = 0 → u ≠ t → Clear t ts → Clear t (u :: ts)
  | parens {ts us : List Token} : Nested ts → Clear t us →
      Clear t (.symbol .lparen :: (ts ++ .symbol .rparen :: us))

theorem Nested.append {ts us : List Token} (hts : Nested ts) (hus : Nested us) :
    Nested (ts ++ us) := by
  induction hts with
  | nil => exact hus
  | cons ht _ ih => exact .cons ht ih
  | parens hts _ _ ih =>
    have := Nested.parens hts ih
    simpa using this

theorem Clear.append {t : Token} {ts us : List Token} (hts : Clear t ts) (hus : Clear t us) :
    Clear t (ts ++ us) := by
  induction hts with
  | nil => exact hus
  | cons hu hne _ ih => exact .cons hu hne ih
  | parens hts _ ih =>
    have := Clear.parens hts ih
    simpa using this

/-- Tokens without an operator outside of parentheses are nested all the same. -/
theorem Clear.nested {t : Token} {ts : List Token} (h : Clear t ts) : Nested ts := by
  induction h with
  | nil => exact .nil
  | cons hu _ _ ih => exact .cons hu ih
  | parens hts _ ih => exact .parens hts ih

end Token

namespace Search

open Token

theorem ne_rparen_of_nesting {t : Token} (h : t.nesting = 0) : t ≠ .symbol .rparen := by
  rintro rfl
  cases h

theorem map_add_length {m n : Nat} (i? : Option Nat) :
    ((i?.map (n + ·)).map (m + ·)) = i?.map (m + n + ·) := by
  cases i? with
  | none => rfl
  | some i => simp only [Option.map_some, Option.some.injEq]; omega

/-- A step over a token that is neither found nor closes anything. -/
theorem closingIn_cons {t : Token} {depth : Nat} (h : ¬ (t = .symbol .rparen ∧ depth = 0))
    (ts : List Token) :
    closingIn depth (t :: ts) = (closingIn (depth + t.nesting).toNat ts).map (1 + ·) := by
  rw [closingIn, if_neg h]
  simp only [Nat.add_comm]

theorem findIn_cons {t u : Token} {depth : Nat} (h : ¬ (u = .symbol .rparen ∧ depth = 0))
    (hne : ¬ (u = t ∧ depth = 0)) (us : List Token) :
    findIn t depth (u :: us) = (findIn t (depth + u.nesting).toNat us).map (1 + ·) := by
  rw [findIn, if_neg h, if_neg hne]
  simp only [Nat.add_comm]

/-- The search for a closing parenthesis passes over nested ones. -/
theorem closingIn_nested {ts : List Token} (hts : Nested ts) (depth : Nat) (us : List Token) :
    closingIn depth (ts ++ us) = (closingIn depth us).map (ts.length + ·) := by
  induction hts generalizing depth us with
  | nil => simp
  | @cons t ts ht _ ih =>
    rw [List.cons_append, closingIn_cons (fun h => ne_rparen_of_nesting ht h.1), ht, Int.add_zero,
      Int.toNat_natCast, ih, map_add_length, List.length_cons, Nat.add_comm]
  | @parens ts vs _ _ ihts ihvs =>
    -- Inside, one more parenthesis is open; behind, as many as before.
    rw [List.cons_append, closingIn_cons (by simp), toNat_depth_lparen, List.append_assoc, ihts,
      List.cons_append, closingIn_cons (by simp), toNat_depth_rparen, ihvs, map_add_length,
      map_add_length, map_add_length, List.length_cons, List.length_append, List.length_cons]
    congr 2
    funext i
    omega

/-- The search for a token passes over nested parentheses, also inside of others. -/
theorem findIn_nested {ts : List Token} (hts : Nested ts) (t : Token) (depth : Nat)
    (us : List Token) :
    findIn t (depth + 1) (ts ++ us) = (findIn t (depth + 1) us).map (ts.length + ·) := by
  induction hts generalizing depth us with
  | nil => simp
  | @cons u ts hu _ ih =>
    rw [List.cons_append, findIn_cons (by simp) (by simp), hu, Int.add_zero, Int.toNat_natCast, ih,
      map_add_length, List.length_cons, Nat.add_comm ts.length]
  | @parens ts vs _ _ ihts ihvs =>
    rw [List.cons_append, findIn_cons (by simp) (by simp), toNat_depth_lparen, List.append_assoc,
      ihts, List.cons_append, findIn_cons (by simp) (by simp), toNat_depth_rparen, ihvs,
      map_add_length, map_add_length, map_add_length, List.length_cons, List.length_append,
      List.length_cons]
    congr 2
    funext i
    omega

/-- The search for a token passes over what is clear of it. -/
theorem findIn_clear {t : Token} (ht : t.nesting = 0) {ts : List Token} (hts : Clear t ts)
    (us : List Token) : findIn t 0 (ts ++ us) = (findIn t 0 us).map (ts.length + ·) := by
  induction hts generalizing us with
  | nil => simp
  | @cons u ts hu hne _ ih =>
    rw [List.cons_append, findIn_cons (fun h => ne_rparen_of_nesting hu h.1) (fun h => hne h.1),
      hu, Int.add_zero, Int.toNat_natCast, ih, map_add_length, List.length_cons,
      Nat.add_comm ts.length]
  | @parens ts vs hts _ ihvs =>
    have hne : ¬ (Token.symbol .lparen = t ∧ 0 = 0) := by
      rintro ⟨rfl, -⟩
      cases ht
    rw [List.cons_append, findIn_cons (by simp) hne, toNat_depth_lparen, List.append_assoc,
      findIn_nested hts, List.cons_append, findIn_cons (by simp) (by simp), toNat_depth_rparen,
      ihvs, map_add_length, map_add_length, map_add_length, List.length_cons, List.length_append,
      List.length_cons]
    congr 2
    funext i
    omega

end Search

end Scriptlet
