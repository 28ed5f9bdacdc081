import Scriptlet.Proofs.Grammar.Concatenation
import Scriptlet.Proofs.Grammar.Enclosure
import Scriptlet.Proofs.Grammar.Tabling

/-!
# What follows an expression

Where a window ends makes no difference to an expression in it, as long as the expression is followed
by nothing or by a token that ends expressions: `Sealed`.  Searches for operators may find something
behind that token, but then what stands before the operator is no expression, because it would have to
go past the token.  Inside of brackets the same holds up to the bracket that closes: `Inside`.
-/

namespace Scriptlet

/-! ## Searches -/

namespace Search

variable {lexemes : Array Lexeme} {n n' i depth p : Nat}

/-- Where a token is found first does not depend on the end of the window. -/
theorem findFrom_of_lt {t : Token} (h : findFrom lexemes t n i depth = some p) (hp : p < i + n') :
    findFrom lexemes t n' i depth = some p := by
  have hle := le_of_findFrom h
  induction n generalizing n' i depth with
  | zero => cases h
  | succ n ih =>
    obtain ⟨n', rfl⟩ : ∃ n₁, n' = n₁ + 1 := ⟨n' - 1, by omega⟩
    cases hget : lexemes[i]? with
    | none =>
      rw [findFrom, hget] at h
      cases h
    | some l =>
      rw [findFrom, hget] at h ⊢
      simp only at h ⊢
      by_cases hclose : l.token = .symbol .rparen ∧ depth = 0
      · rw [if_pos hclose] at h
        cases h
      · rw [if_neg hclose] at h ⊢
        by_cases hfound : l.token = t ∧ depth = 0
        · rw [if_pos hfound] at h ⊢
          exact h
        · rw [if_neg hfound] at h ⊢
          exact ih h (by omega) (le_of_findFrom h)

/-- Which parenthesis closes does not depend on the end of the window. -/
theorem closingFrom_of_lt (h : closingFrom lexemes n i depth = some p) (hp : p < i + n') :
    closingFrom lexemes n' i depth = some p := by
  have hle := le_of_closingFrom h
  induction n generalizing n' i depth with
  | zero => cases h
  | succ n ih =>
    obtain ⟨n', rfl⟩ : ∃ n₁, n' = n₁ + 1 := ⟨n' - 1, by omega⟩
    cases hget : lexemes[i]? with
    | none =>
      rw [closingFrom_none hget] at h ⊢
      exact ih h (by omega) (le_of_closingFrom h)
    | some l =>
      rw [closingFrom_some hget] at h ⊢
      split at h
      · rename_i hclose
        rw [if_pos hclose]
        exact h
      · rename_i hclose
        rw [if_neg hclose]
        exact ih h (by omega) (le_of_closingFrom h)

end Search

namespace Layout

variable {L : Layout} {lo m c j k hi hi' : Nat} {t : Token} {close : Punct}

theorem Scans.find?_of_lt (hS : L.Scans) {p : Nat} (hlo : lo ≤ hi) (hhi : hi ≤ L.lexemes.size)
    (hhi' : hi' ≤ L.lexemes.size) (h : L.find? t ⟨lo, hi⟩ = some p) (hp : p < hi') :
    L.find? t ⟨lo, hi'⟩ = some p := by
  rw [hS.find t ⟨hlo, hhi⟩] at h
  have hle : lo ≤ p := Search.le_of_findFrom h
  rw [hS.find t ⟨by simp only; omega, hhi'⟩]
  exact Search.findFrom_of_lt h (by simp only [Window.length]; omega)

theorem Scans.closing?_of_lt (hS : L.Scans) {p : Nat} (hlo : lo ≤ hi) (hhi : hi ≤ L.lexemes.size)
    (hhi' : hi' ≤ L.lexemes.size) (h : L.closing? ⟨lo, hi⟩ = some p) (hp : p < hi') :
    L.closing? ⟨lo, hi'⟩ = some p := by
  rw [hS.closing ⟨hlo, hhi⟩] at h
  have hle : lo ≤ p := Search.le_of_closingFrom h
  rw [hS.closing ⟨by simp only; omega, hhi'⟩]
  exact Search.closingFrom_of_lt h (by simp only [Window.length]; omega)

/-! ## Windows that an expression cannot tell apart -/

/-- From `lo` up to `m` stands what a reading may read.  Both windows reach at least up to there, and if
one of them goes on, then with a token that ends expressions. -/
structure Sealed (L : Layout) (lo m hi hi' : Nat) : Prop where
  encloses : L.Encloses false lo m
  le : m ≤ hi
  le' : m ≤ hi'
  within : hi ≤ L.lexemes.size
  within' : hi' ≤ L.lexemes.size
  stops : m < hi ∨ m < hi' → L.StopsAt m

/-- Both windows go on behind the bracket that closes the brackets that `lo` stands in. -/
structure Inside (L : Layout) (lo c hi hi' : Nat) : Prop where
  encloses : L.Encloses true lo c
  closes : L.ClosesAt c
  lt : c < hi
  lt' : c < hi'
  within : hi ≤ L.lexemes.size
  within' : hi' ≤ L.lexemes.size

namespace Inside

theorem next (I : Inside L lo c hi hi') (h : L.Next lo hi t) : L.Next lo hi' t := by
  have hle := I.encloses.le
  exact ⟨Nat.lt_of_le_of_lt hle I.lt', h.2⟩

theorem name (I : Inside L lo c hi hi') {n : Name} (h : L.NameNext lo hi n) :
    L.NameNext lo hi' n := ⟨(I.next h.next).1, h.2⟩

/-- Up to the first line end or comma, or up to the bracket that closes, nothing differs. -/
theorem exists_sealed (I : Inside L lo c hi hi') : ∃ m, Sealed L lo m hi hi' := by
  obtain ⟨m, hm, hencloses, hstops⟩ := I.encloses.exists_stop I.closes
  have hlt := I.lt
  have hlt' := I.lt'
  exact ⟨m, hencloses, by omega, by omega, I.within, I.within', fun _ => hstops⟩

theorem move (I : Inside L lo c hi hi') {sep : Bool} (h : L.Encloses sep lo j) (hj : j ≤ c) :
    Inside L j c hi hi' :=
  { I with encloses := h.rest I.encloses hj }

theorem lt_of_role (I : Inside L lo c hi hi') (h : L.Next lo hi t) (hrole : t.role ≠ .closing) :
    lo < c := by
  rcases Nat.eq_or_lt_of_le I.encloses.le with rfl | hlt
  · obtain ⟨u, hat, hu⟩ := I.closes
    exact absurd (h.2.unique hat ▸ hu) hrole
  · exact hlt

theorem plain (I : Inside L lo c hi hi') (h : L.Next lo hi t) (hrole : t.role = .plain) :
    Inside L (lo + 1) c hi hi' := by
  have hlt := I.lt_of_role h (by simp [hrole])
  exact I.move (.token h.2 hrole : L.Encloses true lo (lo + 1)) hlt

theorem separator (I : Inside L lo c hi hi') (h : L.Next lo hi t) (hrole : t.role = .separator) :
    Inside L (lo + 1) c hi hi' := by
  have hlt := I.lt_of_role h (by simp [hrole])
  exact I.move (.separator h.2 hrole (.refl _ _)) hlt

/-- The only bracket that closes more than was opened is the one at the end. -/
theorem eq_of_closing (I : Inside L lo c hi hi') (h : L.Next lo hi t) (hrole : t.role = .closing) :
    lo = c := I.encloses.eq_of_closes ⟨t, h.2, hrole⟩

end Inside

namespace Sealed

theorem symm (S : Sealed L lo m hi hi') : Sealed L lo m hi' hi :=
  ⟨S.encloses, S.le', S.le, S.within', S.within, fun h => S.stops h.symm⟩

theorem lt_of_next (S : Sealed L lo m hi hi') (h : L.Next lo hi t) (hstop : t.isStop = false) :
    lo < m := by
  rcases Nat.eq_or_lt_of_le S.encloses.le with rfl | hlt
  · obtain ⟨u, hat, hu⟩ := S.stops (.inl h.1)
    rw [h.2.unique hat, hu] at hstop
    cases hstop
  · exact hlt

theorem next (S : Sealed L lo m hi hi') (h : L.Next lo hi t) (hstop : t.isStop = false) :
    L.Next lo hi' t :=
  ⟨Nat.lt_of_lt_of_le (S.lt_of_next h hstop) S.le', h.2⟩

theorem name (S : Sealed L lo m hi hi') {n : Name} (h : L.NameNext lo hi n) :
    L.NameNext lo hi' n := ⟨(S.next h.next rfl).1, h.2⟩

theorem move (S : Sealed L lo m hi hi') (h : L.Encloses false lo j) (hj : j ≤ m) :
    Sealed L j m hi hi' :=
  { S with encloses := h.rest S.encloses hj }

/-- What was read ends before the token that ends expressions. -/
theorem le_of_encloses (S : Sealed L lo m hi hi') (h : L.Encloses false lo j) (hj : j ≤ hi) :
    j ≤ m := by
  rcases Nat.eq_or_lt_of_le S.le with rfl | hlt
  · exact hj
  · exact h.le_of_stops S.encloses (S.stops (.inl hlt))

theorem plain (S : Sealed L lo m hi hi') (h : L.Next lo hi t) (hrole : t.role = .plain) :
    Sealed L (lo + 1) m hi hi' := by
  have hstop : t.isStop = false := by
    rw [Bool.eq_false_iff, ne_eq, Token.isStop_iff]
    simp [hrole]
  exact S.move (.token h.2 hrole) (S.lt_of_next h hstop)

/-- Behind an opening bracket one is inside of brackets, and behind these as before. -/
theorem enter (S : Sealed L lo m hi hi') (h : L.Next lo hi t) (hrole : t.role = .opening close) :
    ∃ c, Inside L (lo + 1) c hi hi' ∧ L.At c (.symbol close) ∧ Sealed L (c + 1) m hi hi' := by
  have hstop : t.isStop = false := by
    rw [Bool.eq_false_iff, ne_eq, Token.isStop_iff]
    simp [hrole]
  have hlt := S.lt_of_next h hstop
  have hle := S.le
  have hle' := S.le'
  cases S.encloses with
  | refl => omega
  | plain hat hrole' _ =>
    rw [h.2.unique hat, hrole'] at hrole
    cases hrole
  | @group _ _ c _ _ close' hat hrole' hinner hclose hrest =>
    obtain rfl : close' = close := by
      rw [h.2.unique hat, hrole'] at hrole
      exact Token.Role.opening.inj hrole
    have hc := hrest.le
    exact ⟨c, ⟨hinner, hclose.closesAt hrole', by omega, by omega, S.within, S.within'⟩, hclose,
      { S with encloses := hrest }⟩

end Sealed

/-- Line ends before a bracket that closes are passed alike in both windows. -/
theorem newlineRun_of_closes {n n' : Nat} (hc : L.ClosesAt c) (hlo : lo ≤ c) (hn : c - lo < n)
    (hn' : c - lo < n') : L.newlineRun n' lo = L.newlineRun n lo ∧ L.newlineRun n lo ≤ c := by
  induction n generalizing lo n' with
  | zero => omega
  | succ n ih =>
    obtain ⟨n', rfl⟩ : ∃ n₁, n' = n₁ + 1 := ⟨n' - 1, by omega⟩
    rw [newlineRun, newlineRun]
    cases hget : L.lexemes[lo]? with
    | none => exact ⟨rfl, hlo⟩
    | some l =>
      simp only
      by_cases hnewline : l.token = .newline
      · rw [if_pos hnewline, if_pos hnewline]
        have hne : lo ≠ c := by
          rintro rfl
          obtain ⟨t, hat, hrole⟩ := hc
          rw [hat.unique ⟨l, hget, hnewline⟩] at hrole
          cases hrole
        exact ih (by omega) (by omega) (by omega)
      · rw [if_neg hnewline, if_neg hnewline]
        exact ⟨rfl, hlo⟩

end Layout

/-! ## Rules -/

namespace Grammar

open Rule Layout

variable {L : Layout} {lo m c i j k hi hi' : Nat} {e : Expr}

/-- Expressions are read alike in two windows that together are shorter than `n`. -/
def SealedBelow (L : Layout) (n : Nat) : Prop :=
  ∀ {l : Level} {lo m hi hi' k : Nat} {e : Expr}, Sealed L lo m hi hi' →
    (hi - lo) + (hi' - lo) < n → (level l).Parses L lo hi e k → (level l).Parses L lo hi' e k

/-- The first part of a sequence is read alike, up to the bracket that closes it. -/
theorem parses_elements_inside {α : Type} {close : Punct} {item : Rule α} {rounds rounds' : Nat}
    {xs : List α} (hrole : (Token.symbol close).role = .closing) (I : Inside L lo c hi hi')
    (hitem : ∀ {i j x}, lo ≤ i → Inside L i c hi hi' → item.Parses L i hi x j →
      item.Parses L i hi' x j ∧ i < j ∧ Inside L j c hi hi')
    (hrounds : c - lo < rounds')
    (h : (elements L close .comma item rounds).Parses L lo hi xs k) :
    (elements L close .comma item rounds').Parses L lo hi' xs k ∧ k = c + 1 := by
  induction rounds generalizing lo xs rounds' with
  | zero => cases h
  | succ rounds ih =>
    obtain ⟨rounds', rfl⟩ : ∃ n, rounds' = n + 1 := ⟨rounds' - 1, by omega⟩
    rw [parses_elements_succ] at h ⊢
    rcases h with ⟨hclose, rfl, rfl⟩ |
      ⟨⟨t, hnext, hne⟩, x, j, hx, j', hskip, rest, i, hrest, rfl, rfl⟩
    · exact ⟨.inl ⟨I.next hclose, rfl, rfl⟩, by rw [I.eq_of_closing hclose hrole]⟩
    · obtain ⟨hx', hlt, J⟩ := hitem (Nat.le_refl lo) I hx
      obtain ⟨hle, hskip', J'⟩ : j ≤ j' ∧ L.Skips .comma j hi' j' ∧ Inside L j' c hi hi' := by
        rcases hskip with ⟨hcomma, rfl⟩ | ⟨⟨u, hu, hne⟩, rfl⟩
        · exact ⟨Nat.le_succ j, .inl ⟨J.next hcomma, rfl⟩, J.separator hcomma rfl⟩
        · exact ⟨Nat.le_refl _, .inr ⟨⟨u, J.next hu, hne⟩, rfl⟩, J⟩
      have hc := J.encloses.le
      obtain ⟨hrest', hk⟩ :=
        ih J' (fun hi => hitem (by omega)) (show c - j' < rounds' by omega) hrest
      exact ⟨.inr ⟨⟨t, I.next hnext, hne⟩, x, j, hx', j', hskip', rest, k, hrest', rfl, rfl⟩, hk⟩

/-- The statements of a block are read alike, up to the brace that closes it. -/
theorem parses_statements_inside {rounds rounds' : Nat} {es : List Expr}
    (I : Inside L lo c hi hi')
    (hstatement : ∀ {i j s}, lo ≤ i → Inside L i c hi hi' → (level .top).Parses L i hi s j →
      (level .top).Parses L i hi' s j ∧ i < j ∧ Inside L j c hi hi')
    (hrounds : c - lo < rounds')
    (h : (statements L rounds).Parses L lo hi es k) :
    (statements L rounds').Parses L lo hi' es k ∧ k = c + 1 := by
  induction rounds generalizing lo es rounds' with
  | zero => cases h
  | succ rounds ih =>
    obtain ⟨rounds', rfl⟩ : ∃ n, rounds' = n + 1 := ⟨rounds' - 1, by omega⟩
    have hlt := I.lt
    have hlt' := I.lt'
    have hle := I.encloses.le
    obtain ⟨hrun, hrunc⟩ := newlineRun_of_closes I.closes hle
      (show c - lo < hi - lo by omega) (show c - lo < hi' - lo by omega)
    have hlines : L.Encloses true lo (L.newlineRun (hi - lo) lo) := encloses_newlineRun
    have J := I.move hlines hrunc
    have hlo := hlines.le
    rw [parses_statements_succ] at h ⊢
    rw [hrun]
    rcases h with ⟨hclose, rfl, rfl⟩ | ⟨⟨t, hnext, hne⟩, s, j, hs, rest, i, hrest, rfl, rfl⟩
    · exact ⟨.inl ⟨J.next hclose, rfl, rfl⟩, by rw [J.eq_of_closing hclose rfl]⟩
    · obtain ⟨hs', hsj, K⟩ := hstatement hlo J hs
      have hc := K.encloses.le
      obtain ⟨hrest', hk⟩ :=
        ih K (fun hi => hstatement (by omega)) (show c - j < rounds' by omega) hrest
      exact ⟨.inr ⟨⟨t, J.next hnext, hne⟩, s, j, hs', rest, k, hrest', rfl, rfl⟩, hk⟩

section

variable (hL : L.Sound) (below : SealedBelow L ((hi - lo) + (hi' - lo)))

include hL below

/-- Behind the first token, expressions are read alike before a token that ends them. -/
theorem sealed_level (S : Sealed L i m hi hi') (hlt : lo < i) {l : Level}
    (h : (level l).Parses L i hi e j) :
    (level l).Parses L i hi' e j ∧ Sealed L j m hi hi' := by
  have hle := S.encloses.le
  have hm := S.le
  have hm' := S.le'
  have hencloses := encloses_level hL (by omega) S.within h
  have hj := (bounds_level hL (by omega) S.within h).2
  exact ⟨below S (by omega) h, S.move hencloses (S.le_of_encloses hencloses hj)⟩

/-- Behind the first token, expressions are read alike inside of brackets. -/
theorem inside_level (I : Inside L i c hi hi') (hlt : lo < i) {l : Level}
    (h : (level l).Parses L i hi e j) :
    (level l).Parses L i hi' e j ∧ i < j ∧ Inside L j c hi hi' := by
  obtain ⟨m, S⟩ := I.exists_sealed
  have hle := S.encloses.le
  have hm := S.le
  have hencloses := encloses_level hL (by omega) S.within h
  have hij := (bounds_level hL (by omega) S.within h).1
  have hj := hencloses.le_of_stops I.encloses I.closes.stopsAt
  exact ⟨(sealed_level hL below S hlt h).1, hij, I.move hencloses hj⟩

theorem sealed_body (S : Sealed L i m hi hi') (hlt : lo < i) {es : List Expr}
    (h : (body L).Parses L i hi es j) :
    (body L).Parses L i hi' es j ∧ i < j ∧ Sealed L j m hi hi' := by
  obtain ⟨hopen, hstatements⟩ := parses_body.1 h
  obtain ⟨c, I, -, S'⟩ := S.enter hopen rfl
  have hc := I.lt'
  have hic := I.encloses.le
  obtain ⟨hstatements', rfl⟩ := parses_statements_inside I
    (fun hle J hs => inside_level hL below J (by omega) hs)
    (show c - (i + 1) < hi' - (i + 1) + 1 by omega) hstatements
  exact ⟨parses_body.2 ⟨S.next hopen rfl, hstatements'⟩, by omega, S'⟩

omit hL in
/-- What is no expression in one window is none in the other. -/
theorem fails_sealed (S : Sealed L i m hi hi') (hlt : lo < i) (h : (level .expr).Fails L i hi) :
    (level .expr).Fails L i hi' := by
  have hle := S.encloses.le
  have hm := S.le
  have hm' := S.le'
  rw [fails_iff] at h ⊢
  intro e k hread
  exact h e k (below S.symm (by omega) hread)

theorem sealed_otherwise (S : Sealed L i m hi hi') (hlt : lo < i) {es : List Expr}
    (h : (otherwise L).Parses L i hi es j) : (otherwise L).Parses L i hi' es j := by
  rw [parses_otherwise] at h ⊢
  rcases h with ⟨x, j, hx, rfl, rfl⟩ | ⟨hfails, hbody⟩
  · exact .inl ⟨x, _, (sealed_level hL below S hlt hx).1, rfl, rfl⟩
  · exact .inr ⟨fails_sealed below S hlt hfails, (sealed_body hL below S hlt hbody).1⟩

theorem sealed_nodeRule (hS : L.Scans) (S : Sealed L lo m hi hi') {r : Rule Expr}
    (hr : NodeRule L r) (h : r.Parses L lo hi e k) : r.Parses L lo hi' e k := by
  have hlo := S.encloses.le
  have hm := S.le
  have hm' := S.le'
  cases hr with
  | literal =>
    rw [parses_literal] at h ⊢
    obtain ⟨l, hlt, hget, hliteral, rfl⟩ := h
    have hstop : l.token.isStop = false := by
      cases htoken : l.token <;> simp [Lexeme.literal?, htoken] at hliteral <;> rfl
    exact ⟨l, (S.next ⟨hlt, l, hget, rfl⟩ hstop).1, hget, hliteral, rfl⟩
  | variableName =>
    rw [parses_variableName] at h ⊢
    obtain ⟨n, hname, rfl, rfl⟩ := h
    exact ⟨n, S.name hname, rfl, rfl⟩
  | index =>
    rw [parses_index] at h ⊢
    obtain ⟨n, hname, hopen, position, j, hposition, hclose, rfl, rfl⟩ := h
    have S₁ := S.plain hname.next rfl
    obtain ⟨c, I, -, -⟩ := S₁.enter hopen rfl
    obtain ⟨hposition', -, J⟩ := inside_level hL below I (by omega) hposition
    exact ⟨n, S.name hname, S₁.next hopen rfl, position, j, hposition', J.next hclose, rfl, rfl⟩
  | neg =>
    rw [parses_neg] at h ⊢
    obtain ⟨hsign, x, j, hx, rfl, rfl⟩ := h
    obtain ⟨hx', -⟩ := sealed_level hL below (S.plain hsign rfl) (by omega) hx
    exact ⟨S.next hsign rfl, x, _, hx', rfl, rfl⟩
  | not =>
    rw [parses_not] at h ⊢
    obtain ⟨hsign, x, j, hx, rfl, rfl⟩ := h
    obtain ⟨hx', -⟩ := sealed_level hL below (S.plain hsign rfl) (by omega) hx
    exact ⟨S.next hsign rfl, x, _, hx', rfl, rfl⟩
  | binary op =>
    rw [parses_binary hL (by omega) S.within] at h
    rw [parses_binary hL (by omega) S.within']
    obtain ⟨p, hfind, x, hx, y, j, hy, rfl, rfl⟩ := h
    obtain ⟨hp, hp', hat⟩ := hL.find ⟨by simp only; omega, S.within⟩ hfind
    simp only at hp hp'
    -- The left operand does not go past the token that ends expressions.
    have hleft : L.Encloses false lo p :=
      encloses_level hL hp (Nat.le_trans (Nat.le_of_lt hp') S.within) hx
    have T := S.move hleft (S.le_of_encloses hleft (Nat.le_of_lt hp'))
    have hpm := T.lt_of_next ⟨hp', hat⟩ (Token.not_isStop_op op)
    have hfind' := hS.find?_of_lt (by omega) S.within S.within' hfind (by omega)
    obtain ⟨hy', -⟩ :=
      sealed_level hL below (T.plain ⟨hp', hat⟩ (Token.role_op op)) (by omega) hy
    exact ⟨p, hfind', x, hx, y, _, hy', rfl, rfl⟩
  | parens =>
    rw [parses_parens hL S.within] at h
    rw [parses_parens hL S.within']
    obtain ⟨hopen, p, hclosing, x, hx, hclose, rfl, rfl⟩ := h
    obtain ⟨c, I, -, -⟩ := S.enter hopen rfl
    obtain ⟨hp, hp'⟩ := hL.closing (w := ⟨lo + 1, hi⟩) ⟨hopen.1, S.within⟩ hclosing
    simp only at hp hp'
    -- The parenthesis that closes is the one that ends the brackets.
    have hinner := encloses_level hL hp (Nat.le_trans (Nat.le_of_lt hp') S.within) hx
    obtain rfl : p = c := hinner.closes_unique ⟨_, hclose.2, rfl⟩ I.encloses I.closes
    have hclosing' := hS.closing?_of_lt hopen.1 S.within S.within' hclosing I.lt'
    exact ⟨S.next hopen rfl, p, hclosing', x, hx, ⟨I.lt', hclose.2⟩, rfl, rfl⟩
  | assign =>
    rw [parses_assign] at h ⊢
    obtain ⟨n, hname, hequals, value, j, hvalue, rfl, rfl⟩ := h
    have S₁ := S.plain hname.next rfl
    obtain ⟨hvalue', -⟩ := sealed_level hL below (S₁.plain hequals rfl) (by omega) hvalue
    exact ⟨n, S.name hname, S₁.next hequals rfl, value, _, hvalue', rfl, rfl⟩
  | call =>
    rw [parses_call] at h ⊢
    obtain ⟨n, hname, hopen, args, j, hargs, rfl, rfl⟩ := h
    have S₁ := S.plain hname.next rfl
    obtain ⟨c, I, -, -⟩ := S₁.enter hopen rfl
    have hc := I.lt'
    obtain ⟨hargs', -⟩ := parses_elements_inside rfl I
      (fun hle J hx => inside_level hL below J (by omega) hx)
      (show c - (lo + 2) < hi' - (lo + 2) + 1 by omega) hargs
    exact ⟨n, S.name hname, S₁.next hopen rfl, args, _, hargs', rfl, rfl⟩
  | store =>
    rw [parses_store] at h ⊢
    obtain ⟨n, hname, hopen, position, j, hposition, hclose, hequals, value, i, hvalue, rfl, rfl⟩ :=
      h
    have S₁ := S.plain hname.next rfl
    obtain ⟨c, I, -, S₂⟩ := S₁.enter hopen rfl
    obtain ⟨hposition', hlt, J⟩ := inside_level hL below I (by omega) hposition
    obtain rfl := J.eq_of_closing hclose rfl
    obtain ⟨hvalue', -⟩ := sealed_level hL below (S₂.plain hequals rfl) (by omega) hvalue
    exact ⟨n, S.name hname, S₁.next hopen rfl, position, j, hposition', J.next hclose,
      S₂.next hequals rfl, value, _, hvalue', rfl, rfl⟩
  | branch =>
    rw [parses_branch] at h ⊢
    obtain ⟨hif, hopen, cond, j, hcond, hclose, thenBody, i, hthen, helse⟩ := h
    have S₁ := S.plain hif rfl
    obtain ⟨c, I, -, S₂⟩ := S₁.enter hopen rfl
    obtain ⟨hcond', hlt, J⟩ := inside_level hL below I (by omega) hcond
    obtain rfl := J.eq_of_closing hclose rfl
    obtain ⟨hthen', hji, S₃⟩ := sealed_body hL below S₂ (by omega) hthen
    refine ⟨S.next hif rfl, S₁.next hopen rfl, cond, j, hcond', J.next hclose, thenBody, i, hthen',
      ?_⟩
    rcases helse with ⟨helse, elseBody, i', hother, rfl, rfl⟩ | ⟨hnone, rfl, rfl⟩
    · have hother' := sealed_otherwise hL below (S₃.plain helse rfl) (by omega) hother
      exact .inl ⟨S₃.next helse rfl, elseBody, _, hother', rfl, rfl⟩
    · exact .inr ⟨fun helse => hnone (S₃.symm.next helse rfl), rfl, rfl⟩
  | forIn =>
    rw [parses_forIn] at h ⊢
    obtain ⟨hfor, hopen, n, hname, hin, iterable, j, hiterable, hclose, loopBody, i, hbody, rfl,
      rfl⟩ := h
    have S₁ := S.plain hfor rfl
    obtain ⟨c, I, -, S₂⟩ := S₁.enter hopen rfl
    have I₁ := I.plain hname.next rfl
    obtain ⟨hiterable', hlt, J⟩ :=
      inside_level hL below (I₁.plain hin rfl) (by omega) hiterable
    obtain rfl := J.eq_of_closing hclose rfl
    obtain ⟨hbody', -⟩ := sealed_body hL below S₂ (by omega) hbody
    exact ⟨S.next hfor rfl, S₁.next hopen rfl, n, I.name hname, I₁.next hin, iterable, j,
      hiterable', J.next hclose, loopBody, _, hbody', rfl, rfl⟩
  | loop =>
    rw [parses_loop] at h ⊢
    obtain ⟨hwhile, hopen, cond, j, hcond, hclose, loopBody, i, hbody, rfl, rfl⟩ := h
    have S₁ := S.plain hwhile rfl
    obtain ⟨c, I, -, S₂⟩ := S₁.enter hopen rfl
    obtain ⟨hcond', hlt, J⟩ := inside_level hL below I (by omega) hcond
    obtain rfl := J.eq_of_closing hclose rfl
    obtain ⟨hbody', -⟩ := sealed_body hL below S₂ (by omega) hbody
    exact ⟨S.next hwhile rfl, S₁.next hopen rfl, cond, j, hcond', J.next hclose, loopBody, _,
      hbody', rfl, rfl⟩
  | ret =>
    rw [parses_ret] at h ⊢
    obtain ⟨hreturn, hvalue⟩ := h
    have S₁ := S.plain hreturn rfl
    refine ⟨S.next hreturn rfl, ?_⟩
    rcases hvalue with ⟨x, j, hx, rfl, rfl⟩ | ⟨hfails, rfl, rfl⟩
    · exact .inl ⟨x, _, (sealed_level hL below S₁ (by omega) hx).1, rfl, rfl⟩
    · exact .inr ⟨fails_sealed below S₁ (by omega) hfails, rfl, rfl⟩
  | binding =>
    rw [parses_binding] at h ⊢
    obtain ⟨mutable, hkeyword, n, hname, hequals, value, j, hvalue, rfl, rfl⟩ := h
    have S₁ := S.plain hkeyword rfl
    have S₂ := S₁.plain hname.next rfl
    obtain ⟨hvalue', -⟩ := sealed_level hL below (S₂.plain hequals rfl) (by omega) hvalue
    exact ⟨mutable, S.next hkeyword rfl, n, S₁.name hname, S₂.next hequals rfl, value, _, hvalue',
      rfl, rfl⟩

end

/-! ## Levels -/

section

variable (hL : L.Sound) (hS : L.Scans) (below : SealedBelow L ((hi - lo) + (hi' - lo)))
  (S : Sealed L lo m hi hi')

include hL hS below S

theorem nodeRule_iff {r : Rule Expr} (hr : NodeRule L r) :
    r.Parses L lo hi e k ↔ r.Parses L lo hi' e k := by
  have below' : SealedBelow L ((hi' - lo) + (hi - lo)) := by rwa [Nat.add_comm]
  exact ⟨sealed_nodeRule hL below hS S hr, sealed_nodeRule hL below' hS S.symm hr⟩

theorem nodeRule_fails_iff {r : Rule Expr} (hr : NodeRule L r) :
    r.Fails L lo hi ↔ r.Fails L lo hi' := by
  simp only [fails_iff, nodeRule_iff hL hS below S hr]

theorem firstOf_iff (hlt : lo < m) {form : Form} {rules : List (Rule Expr)}
    (hrules : ∀ r ∈ rules, NodeRule L r) :
    (firstOf L form rules).Parses L lo hi e k ↔ (firstOf L form rules).Parses L lo hi' e k := by
  have hnext : (∃ t, L.Next lo hi t) ↔ ∃ t, L.Next lo hi' t :=
    exists_congr fun t => and_congr_left fun _ =>
      ⟨fun _ => Nat.lt_of_lt_of_le hlt S.le', fun _ => Nat.lt_of_lt_of_le hlt S.le⟩
  rw [parses_firstOf, parses_firstOf, hnext]
  refine and_congr_right fun _ => exists_congr fun before => exists_congr fun r =>
    exists_congr fun after => and_congr_right fun hsplit => ?_
  rw [hsplit] at hrules
  refine and_congr (forall₂_congr fun r' hr' => ?_) ?_
  · exact nodeRule_fails_iff hL hS below S (hrules r' (List.mem_append_left _ hr'))
  · exact nodeRule_iff hL hS below S (hrules r (by simp))

theorem ofLevel_iff (hlt : lo < m) {l : Level} (hl : l ≠ .expr) :
    (ofLevel L l).Parses L lo hi e k ↔ (ofLevel L l).Parses L lo hi' e k := by
  have hnode : ∀ {r}, NodeRule L r → (r.Parses L lo hi e k ↔ r.Parses L lo hi' e k) :=
    nodeRule_iff hL hS below S
  cases l with
  | expr => exact absurd rfl hl
  | top =>
    simp only [ofLevel, parses_top, parses_control, hnode .assign, hnode .call, hnode .store,
      hnode .branch, hnode .forIn, hnode .loop, hnode .ret, hnode .binding]
  | math =>
    apply firstOf_iff hL hS below S hlt
    simp only [List.forall_mem_cons]
    exact ⟨.neg, .not, .binary _, .binary _, .binary _, .binary _, .binary _, .parens, by simp⟩
  | comparison =>
    apply firstOf_iff hL hS below S hlt
    simp only [List.forall_mem_cons]
    exact ⟨.binary _, .binary _, .binary _, .binary _, by simp⟩
  | short =>
    simp only [ofLevel, parses_short, hnode .literal, hnode .index, hnode .variableName,
      nodeRule_fails_iff hL hS below S .index]

theorem level_iff (hlt : lo < m) {l : Level} :
    (level l).Parses L lo hi e k ↔ (level l).Parses L lo hi' e k := by
  have hm := S.le
  have hm' := S.le'
  have hrule : ∀ {l : Level} {e : Expr} {k : Nat}, l ≠ .expr →
      ((level l).Parses L lo hi e k ↔ (level l).Parses L lo hi' e k) := by
    intro l e k hl
    rw [parses_level hL (by omega) S.within, parses_level hL (by omega) S.within']
    exact ofLevel_iff hL hS below S hlt hl
  by_cases hl : l = .expr
  · subst hl
    have hlevels : ∀ l ∈ [Level.top, .math, .comparison, .short], ∀ e k,
        (level l).Parses L lo hi e k ↔ (level l).Parses L lo hi' e k := by
      intro l hl e k
      apply hrule
      rintro rfl
      simp at hl
    rw [parses_level hL (by omega) S.within, parses_level hL (by omega) S.within', ofLevel,
      parses_expr, parses_expr]
    constructor
    · rintro ⟨⟨t, hnext⟩, hbest⟩
      exact ⟨⟨t, by omega, hnext.2⟩, hbest.congr hlevels⟩
    · rintro ⟨⟨t, hnext⟩, hbest⟩
      exact ⟨⟨t, by omega, hnext.2⟩, hbest.congr fun l hl e k => (hlevels l hl e k).symm⟩
  · exact hrule hl

end

theorem sealedBelow (hL : L.Sound) (hS : L.Scans) (n : Nat) : SealedBelow L n := by
  induction n with
  | zero =>
    intro l lo m hi hi' k e _ hn
    omega
  | succ n ih =>
    intro l lo m hi hi' k e S hn h
    have hlo := S.encloses.le
    have hm := S.le
    have hbounds := bounds_level hL (by omega) S.within h
    -- What was read ends before the token that ends expressions, so that token is not the first.
    have hk := S.le_of_encloses (encloses_level hL (by omega) S.within h) hbounds.2
    have hbelow : SealedBelow L ((hi - lo) + (hi' - lo)) := fun S' hn' => ih S' (by omega)
    exact (level_iff hL hS hbelow S (by omega)).1 h

/-- An expression that reaches up to a token that ends expressions, or up to the end of its window, is
read alike in a window that ends elsewhere. -/
theorem parses_of_stops (hL : L.Sound) (hS : L.Scans) {l : Level} (hlo : lo ≤ k)
    (hk : k ≤ L.lexemes.size) (hhi' : hi' ≤ L.lexemes.size) (hle : k ≤ hi')
    (hstops : k < hi' → L.StopsAt k) (h : (level l).Parses L lo k e k) :
    (level l).Parses L lo hi' e k := by
  have S : Sealed L lo k k hi' :=
    { encloses := encloses_level hL hlo hk h
      le := Nat.le_refl k
      le' := hle
      within := hk
      within' := hhi'
      stops := fun hlt => hstops (by omega) }
  exact sealedBelow hL hS ((k - lo) + (hi' - lo) + 1) S (Nat.lt_succ_self _) h

/-- What is read from some lexemes is read from the same lexemes among others. -/
theorem parses_among (before after : List Lexeme) {lexemes : List Lexeme} {l : Level}
    (hlo : lo ≤ hi) (hhi : hi ≤ lexemes.length)
    (h : (level l).Parses (Layout.indexed lexemes) lo hi e k) :
    (level l).Parses (Layout.indexed (before ++ lexemes ++ after)) (lo + before.length)
      (hi + before.length) e (k + before.length) := by
  have hguarded : Guarded (Layout.indexed lexemes) (Layout.indexed (before ++ lexemes ++ after))
      before.length lo hi hi (hi + before.length) := by
    apply guarded_same hlo
    · simpa [Layout.indexed] using hhi
    · simp only [Layout.indexed, List.size_toArray, List.length_append]
      omega
    · intro i _ hi
      rw [List.append_assoc, Program.getElem?_indexed_right,
        Program.getElem?_indexed_left _ _ (by omega)]
  obtain ⟨_, h', rfl, -⟩ := (alikeBelow (2 * hi + 2) l (sound_indexed _) (scans_indexed _)
    (sound_indexed _) (scans_indexed _) hguarded
    (by have := Goal.size_le l lo hi; omega)
    (by have := Goal.size_le l (lo + before.length) (hi + before.length); omega)).of_ok h
  exact h'

/-- Scans find what tables find, so they read the same; and they can be evaluated. -/
theorem parses_of_scanned {lexemes : List Lexeme} {l : Level} (hlo : lo ≤ hi)
    (hhi : hi ≤ lexemes.length) (h : (level l).Parses (Layout.scanned lexemes) lo hi e k) :
    (level l).Parses (Layout.indexed lexemes) lo hi e k := by
  have hsound : (Layout.scanned lexemes).Sound :=
    { closing := fun hw h => (sound_indexed lexemes).closing hw ((closing?_indexed hw).trans h)
      find := fun hw h => (sound_indexed lexemes).find hw ((find?_indexed hw).trans h) }
  have hscans : (Layout.scanned lexemes).Scans := ⟨fun _ => rfl, fun _ _ => rfl⟩
  have hguarded : Guarded (Layout.scanned lexemes) (Layout.indexed lexemes) 0 lo hi hi (hi + 0) :=
    guarded_same hlo (by simpa [Layout.scanned] using hhi) (by simpa [Layout.indexed] using hhi)
      fun _ _ _ => rfl
  have hsize := Goal.size_le l lo hi
  obtain ⟨_, h', rfl, -⟩ := (alikeBelow (2 * (hi - lo) + 2) l hsound hscans (sound_indexed _)
    (scans_indexed _) hguarded (by omega) (by simpa using by omega)).of_ok h
  exact h'

end Grammar

/-! ## Fragments -/

namespace Production

variable {lexemes : List Lexeme} {lo hi k : Nat}

/-- Reading a fragment is running its rule. -/
theorem read_eq (p : Production) (hlo : lo ≤ hi) (hhi : hi ≤ lexemes.length) :
    p.read lexemes ⟨lo, hi⟩ =
      ((p.rule (Layout.indexed lexemes)).eval (Layout.indexed lexemes) ⟨lo, hi⟩).map
        fun found => (found.1, ⟨found.2, hi⟩) := by
  have hw : Window.Within ⟨lo, hi⟩ (Layout.indexed lexemes).lexemes.size := by
    refine ⟨hlo, ?_⟩
    simpa [Layout.indexed] using hhi
  have houtcome :=
    (p.spec_rule (Layout.sound_indexed lexemes) hw).outcome_eq (Layout.sound_indexed lexemes)
      (Nat.le_refl _)
  rw [read, read?, Rule.tabled_eq houtcome, Option.map_some, Option.getD_some]

theorem read_eq_ok_iff (p : Production) (hlo : lo ≤ hi) (hhi : hi ≤ lexemes.length)
    {n : Fragment} :
    p.read lexemes ⟨lo, hi⟩ = .ok (n, ⟨k, hi⟩) ↔
      (p.rule (Layout.indexed lexemes)).Parses (Layout.indexed lexemes) lo hi n k := by
  rw [read_eq p hlo hhi, Rule.Parses]
  cases (p.rule (Layout.indexed lexemes)).eval (Layout.indexed lexemes) ⟨lo, hi⟩ with
  | error e => simp [Except.map]
  | ok found => simp [Except.map, Prod.ext_iff]

theorem read_expr_iff (hlo : lo ≤ hi) (hhi : hi ≤ lexemes.length) {e : Expr} :
    Production.expr.read lexemes ⟨lo, hi⟩ = .ok (.expr e, ⟨k, hi⟩) ↔
      (Rule.level .expr).Parses (Layout.indexed lexemes) lo hi e k := by
  rw [read_eq_ok_iff _ hlo hhi, rule]
  simp only [Grammar.parses_level_bind, Rule.parses_pure]
  constructor
  · rintro ⟨e', j, h, he, rfl⟩
    rwa [Fragment.expr.inj he]
  · exact fun h => ⟨e, k, h, rfl, rfl⟩

end Production

/-- The lexemes, read on their own, are the whole of the expression. -/
def Expr.ReadFrom (e : Expr) (lexemes : List Lexeme) : Prop :=
  Production.expr.read lexemes ⟨0, lexemes.length⟩ =
    .ok (.expr e, ⟨lexemes.length, lexemes.length⟩)

/-- Lexemes that are an expression on their own are the same expression among others. -/
theorem Expr.ReadFrom.parses {e : Expr} {lexemes : List Lexeme} (h : e.ReadFrom lexemes)
    (before after : List Lexeme) :
    (Rule.level .expr).Parses (Layout.indexed (before ++ lexemes ++ after)) before.length
      (before.length + lexemes.length) e (before.length + lexemes.length) := by
  have hamong := Grammar.parses_among before after (Nat.zero_le _) (Nat.le_refl _)
    ((Production.read_expr_iff (Nat.zero_le _) (Nat.le_refl _)).1 h)
  rwa [Nat.zero_add, Nat.add_comm lexemes.length] at hamong

namespace Production

/-- What follows an expression does not change it.  If lexemes are read on their own as an expression,
then among others, and with nothing behind them or with a token that ends expressions, they are read
as the same expression, and what follows them is left. -/
theorem read_expr_followed (before lexemes after : List Lexeme) (e : Expr)
    (h : e.ReadFrom lexemes) (hafter : Token.Stops (after.map Lexeme.token)) :
    ∃ rest : Window,
      Production.expr.read (before ++ lexemes ++ after)
          ⟨before.length, (before ++ lexemes ++ after).length⟩ = .ok (.expr e, rest) ∧
        rest.toList (before ++ lexemes ++ after).toArray = after := by
  have hsize : (Layout.indexed (before ++ lexemes ++ after)).lexemes.size =
      before.length + lexemes.length + after.length := by
    simp [Layout.indexed, Nat.add_assoc]
  refine ⟨⟨before.length + lexemes.length, (before ++ lexemes ++ after).length⟩, ?_, ?_⟩
  · rw [read_expr_iff (by simp only [List.length_append]; omega) (Nat.le_refl _)]
    simp only [List.length_append]
    apply Grammar.parses_of_stops (Layout.sound_indexed _) (Layout.scans_indexed _) (by omega)
      (by omega) (by omega) (by omega) ?_ (h.parses before after)
    intro hlt
    cases after with
    | nil => simp at hlt
    | cons l after =>
      refine ⟨l.token, ⟨l, ?_, rfl⟩, hafter l.token rfl⟩
      simp [Layout.indexed]
  · simp only [Window.toList, Window.length, List.length_append]
    rw [← List.length_append, List.drop_left, Nat.add_sub_cancel_left, List.take_length]

/-- The lexemes of `a-f(b)`, as they stand in `(a-f(b))*c`. -/
def difference : List Lexeme :=
  [⟨.ident "a", ⟨1, 2⟩, "a"⟩, ⟨.symbol .minus, ⟨2, 3⟩, "-"⟩, ⟨.ident "f", ⟨3, 4⟩, "f"⟩,
   ⟨.symbol .lparen, ⟨4, 5⟩, "("⟩, ⟨.ident "b", ⟨5, 6⟩, "b"⟩, ⟨.symbol .rparen, ⟨6, 7⟩, ")"⟩]

/-- What `a-f(b)` is read as. -/
def differenceTree : Expr :=
  .binary ⟨1, 7⟩ .sub (.var ⟨1, 2⟩ "a") (.call ⟨3, 7⟩ "f" [.var ⟨5, 6⟩ "b"])

/-- Whether this is that expression, read from six lexemes. -/
def isDifference : Outcome Expr → Bool
  | .ok (.binary s .sub (.var s₁ a) (.call s₂ f [.var s₃ b]), k) =>
    s = ⟨1, 7⟩ && s₁ = ⟨1, 2⟩ && a = "a" && s₂ = ⟨3, 7⟩ && f = "f" && s₃ = ⟨5, 6⟩ && b = "b" &&
      k = 6
  | _ => false

theorem eq_of_isDifference {o : Outcome Expr} (h : isDifference o = true) :
    o = .ok (differenceTree, 6) := by
  unfold isDifference at h
  split at h
  · simp only [Bool.and_eq_true, decide_eq_true_eq] at h
    obtain ⟨⟨⟨⟨⟨⟨⟨rfl, rfl⟩, rfl⟩, rfl⟩, rfl⟩, rfl⟩, rfl⟩, rfl⟩ := h
    rfl
  · cases h

theorem readFrom_difference : differenceTree.ReadFrom difference := by
  have hread : isDifference ((Rule.level .expr).eval (Layout.scanned difference) ⟨0, 6⟩) = true := by
    decide +kernel
  apply (read_expr_iff (Nat.zero_le _) (Nat.le_refl _)).2
  exact Grammar.parses_of_scanned (Nat.zero_le _) (Nat.le_refl _) (eq_of_isDifference hread)

/-- The lexeme before them. -/
def opened : List Lexeme := [⟨.symbol .lparen, ⟨0, 1⟩, "("⟩]

/-- The lexemes behind them. -/
def closedTimes : List Lexeme :=
  [⟨.symbol .rparen, ⟨7, 8⟩, ")"⟩, ⟨.symbol .star, ⟨8, 9⟩, "*"⟩, ⟨.ident "c", ⟨9, 10⟩, "c"⟩]

theorem read_expr_followed_difference :
    differenceTree.ReadFrom difference ∧ Token.Stops (closedTimes.map Lexeme.token) ∧
      ∃ rest : Window,
        Production.expr.read (opened ++ difference ++ closedTimes) ⟨1, 10⟩ =
            .ok (.expr differenceTree, rest) ∧
          rest.toList (opened ++ difference ++ closedTimes).toArray = closedTimes :=
  ⟨readFrom_difference, Token.stops_cons rfl _,
    read_expr_followed opened difference closedTimes differenceTree readFrom_difference
      (Token.stops_cons rfl _)⟩

end Production

end Scriptlet
