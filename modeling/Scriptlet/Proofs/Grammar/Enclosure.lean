import Scriptlet.Proofs.Grammar.Choices

/-!
# Brackets of every kind

Whatever is read as an expression encloses its line ends and commas: they stand only inside of
brackets that it opens, and every bracket that it opens it also closes, by one of the same kind.  So an
expression cannot go past a line end, a comma or a closing bracket that it did not open.
-/

namespace Scriptlet

/-! ## Tokens -/

namespace Token

/-- What a token does to the brackets around it. -/
inductive Role
  /-- Nothing. -/
  | plain
  /-- It stands between expressions. -/
  | separator
  /-- It opens brackets that `close` closes. -/
  | opening (close : Punct)
  /-- It closes brackets. -/
  | closing

/-- The role of each token. -/
def role : Token → Role
  | .newline | .symbol .comma => .separator
  | .symbol .lparen => .opening .rparen
  | .symbol .lbracket => .opening .rbracket
  | .symbol .lbrace => .opening .rbrace
  | .symbol .rparen | .symbol .rbracket | .symbol .rbrace => .closing
  | _ => .plain

theorem isStop_iff {t : Token} : t.isStop = true ↔ t.role = .separator ∨ t.role = .closing := by
  cases t with
  | symbol p => cases p <;> simp [isStop, role]
  | _ => simp [isStop, role]

theorem role_close {t : Token} {close : Punct} (h : t.role = .opening close) :
    (Token.symbol close).role = .closing := by
  cases t with
  | symbol p => cases p <;> simp [role] at h <;> subst h <;> rfl
  | _ => simp [role] at h

/-- Of the three kinds of brackets only parentheses count as such. -/
theorem nesting_of_opening {t : Token} {close : Punct} (h : t.role = .opening close) :
    (t = .symbol .lparen ∧ close = .rparen) ∨
      (t.nesting = 0 ∧ (Token.symbol close).nesting = 0) := by
  cases t with
  | symbol p => cases p <;> simp [role] at h <;> subst h <;> simp [nesting]
  | _ => simp [role] at h

theorem nesting_of_role {t : Token} (h : t.role = .plain ∨ t.role = .separator) :
    t.nesting = 0 := by
  unfold nesting
  split
  · simp [role] at h
  · simp [role] at h
  · rfl

theorem role_op (op : BinOp) : op.token.role = .plain := by
  cases op <;> rfl

end Token

namespace Layout

/-- Lexeme `i` closes brackets. -/
def ClosesAt (L : Layout) (i : Nat) : Prop := ∃ t, L.At i t ∧ t.role = .closing

/-- Lexeme `i` ends every expression before it. -/
def StopsAt (L : Layout) (i : Nat) : Prop := ∃ t, L.At i t ∧ t.isStop = true

theorem ClosesAt.stopsAt {L : Layout} {i : Nat} (h : L.ClosesAt i) : L.StopsAt i := by
  obtain ⟨t, hat, hrole⟩ := h
  exact ⟨t, hat, Token.isStop_iff.2 (.inr hrole)⟩

theorem At.closesAt {L : Layout} {i : Nat} {t : Token} {close : Punct}
    (h : L.At i (.symbol close)) (hopen : t.role = .opening close) : L.ClosesAt i :=
  ⟨_, h, Token.role_close hopen⟩

/-- From lexeme `lo` up to `hi` every bracket is opened and closed by brackets of one kind.  Outside of
brackets, line ends and commas stand only with `sep`. -/
inductive Encloses (L : Layout) : (sep : Bool) → (lo hi : Nat) → Prop
  | refl (sep : Bool) (lo : Nat) : Encloses L sep lo lo
  | plain {sep : Bool} {lo hi : Nat} {t : Token} : L.At lo t → t.role = .plain →
      Encloses L sep (lo + 1) hi → Encloses L sep lo hi
  | separator {lo hi : Nat} {t : Token} : L.At lo t → t.role = .separator →
      Encloses L true (lo + 1) hi → Encloses L true lo hi
  | group {sep : Bool} {lo j hi : Nat} {t : Token} {close : Punct} : L.At lo t →
      t.role = .opening close → Encloses L true (lo + 1) j → L.At j (.symbol close) →
      Encloses L sep (j + 1) hi → Encloses L sep lo hi

/-- Tokens behind tokens. -/
theorem Spells.join {L : Layout} {lo m hi : Nat} {ts us : List Token} (h : L.Spells lo m ts)
    (h' : L.Spells m hi us) : L.Spells lo hi (ts ++ us) := by
  have hlo := h.start
  have hm := h'.start
  refine ⟨Nat.le_trans hlo hm, h'.stop, ?_⟩
  have hsplit : hi - lo = (m - lo) + (hi - m) := by omega
  have hdrop : lo + (m - lo) = m := by omega
  rw [hsplit, List.take_add, List.map_append, List.drop_drop, hdrop, h.tokens_eq, h'.tokens_eq]

theorem At.spells {L : Layout} {lo : Nat} {t : Token} (h : L.At lo t) :
    L.Spells lo (lo + 1) [t] := by
  have hsize := h.lt_size
  obtain ⟨l, hget, rfl⟩ := h
  have hget : L.lexemes.toList[lo]? = some l := by simpa using hget
  obtain ⟨hlt, rfl⟩ := List.getElem?_eq_some_iff.1 hget
  refine ⟨Nat.le_succ lo, hsize, ?_⟩
  rw [Nat.add_sub_cancel_left, List.drop_eq_getElem_cons hlt]
  simp

namespace Encloses

variable {L : Layout} {sep sep' : Bool} {lo m hi a b : Nat} {t : Token} {close : Punct}

theorem le (h : L.Encloses sep lo hi) : lo ≤ hi := by
  induction h with
  | refl => exact Nat.le_refl _
  | plain _ _ _ ih | separator _ _ _ ih => omega
  | group _ _ _ _ _ ihinner ih => omega

theorem trans (h : L.Encloses sep lo m) (h' : L.Encloses sep m hi) : L.Encloses sep lo hi := by
  induction h with
  | refl => exact h'
  | plain hat hrole _ ih => exact .plain hat hrole (ih h')
  | separator hat hrole _ ih => exact .separator hat hrole (ih h')
  | group hat hrole hinner hclose _ _ ih => exact .group hat hrole hinner hclose (ih h')

/-- Where none may stand, some may. -/
theorem loosen (h : L.Encloses sep lo hi) : L.Encloses true lo hi := by
  induction h with
  | refl => exact .refl _ _
  | plain hat hrole _ ih => exact .plain hat hrole ih
  | separator hat hrole _ ih => exact .separator hat hrole ih
  | group hat hrole hinner hclose _ _ ih => exact .group hat hrole hinner hclose ih

theorem token (hat : L.At lo t) (hrole : t.role = .plain) : L.Encloses sep lo (lo + 1) :=
  .plain hat hrole (.refl _ _)

theorem brackets (hat : L.At lo t) (hrole : t.role = .opening close)
    (hinner : L.Encloses sep (lo + 1) m) (hclose : L.At m (.symbol close)) :
    L.Encloses sep' lo (m + 1) :=
  .group hat hrole hinner.loosen hclose (.refl _ _)

/-- A closing bracket starts nothing. -/
theorem eq_of_closes (h : L.Encloses sep lo hi) (hclose : L.ClosesAt lo) : lo = hi := by
  obtain ⟨t, hat, hrole⟩ := hclose
  cases h with
  | refl => rfl
  | plain hat' hrole' _ | separator hat' hrole' _ | group hat' hrole' _ _ _ =>
    rw [hat.unique hat', hrole'] at hrole
    cases hrole

/-- A token that ends expressions starts none. -/
theorem eq_of_stops (h : L.Encloses false lo hi) (hstop : L.StopsAt lo) : lo = hi := by
  obtain ⟨t, hat, hstop⟩ := hstop
  have hrole := Token.isStop_iff.1 hstop
  cases h with
  | refl => rfl
  | plain hat' hrole' _ | group hat' hrole' _ _ _ =>
    rw [hat.unique hat', hrole'] at hrole
    rcases hrole with hrole | hrole <;> cases hrole

/-- Brackets are closed in one place only. -/
theorem closes_unique (h : L.Encloses sep lo a) (ha : L.ClosesAt a) (h' : L.Encloses sep' lo b)
    (hb : L.ClosesAt b) : a = b := by
  induction h generalizing sep' b with
  | refl => exact h'.eq_of_closes ha
  | plain hat hrole hrest ih =>
    cases h' with
    | refl => exact ((hrest.plain hat hrole).eq_of_closes hb).symm
    | plain _ _ hrest' | separator _ _ hrest' => exact ih ha hrest' hb
    | group hat' hrole' _ _ _ =>
      rw [hat.unique hat', hrole'] at hrole
      cases hrole
  | separator hat hrole hrest ih =>
    cases h' with
    | refl => exact ((hrest.separator hat hrole).eq_of_closes hb).symm
    | plain _ _ hrest' | separator _ _ hrest' => exact ih ha hrest' hb
    | group hat' hrole' _ _ _ =>
      rw [hat.unique hat', hrole'] at hrole
      cases hrole
  | group hat hrole hinner hclose hrest ihinner ih =>
    cases h' with
    | refl => exact ((hinner.group hat hrole hclose hrest).eq_of_closes hb).symm
    | group _ hrole' hinner' hclose' hrest' =>
      -- The inner brackets end in the same place, and so do the outer ones.
      obtain rfl := ihinner (hclose.closesAt hrole) hinner' (hclose'.closesAt hrole')
      exact ih ha hrest' hb
    | plain hat' hrole' _ | separator hat' hrole' _ =>
      rw [hat.unique hat', hrole'] at hrole
      cases hrole

/-- What is left behind the first part of what is enclosed is enclosed. -/
theorem rest (h : L.Encloses sep lo a) (h' : L.Encloses sep' lo b) (hle : a ≤ b) :
    L.Encloses sep' a b := by
  induction h generalizing sep' b with
  | refl => exact h'
  | plain hat hrole hrest ih =>
    cases h' with
    | refl =>
      have := hrest.le
      omega
    | plain _ _ hrest' | separator _ _ hrest' => exact ih hrest' hle
    | group hat' hrole' _ _ _ =>
      rw [hat.unique hat', hrole'] at hrole
      cases hrole
  | separator hat hrole hrest ih =>
    cases h' with
    | refl =>
      have := hrest.le
      omega
    | plain _ _ hrest' | separator _ _ hrest' => exact ih hrest' hle
    | group hat' hrole' _ _ _ =>
      rw [hat.unique hat', hrole'] at hrole
      cases hrole
  | group hat hrole hinner hclose hrest _ ih =>
    cases h' with
    | refl =>
      have := hrest.le
      have := hinner.le
      omega
    | group hat' hrole' hinner' hclose' hrest' =>
      obtain rfl := hinner.closes_unique (hclose.closesAt hrole) hinner' (hclose'.closesAt hrole')
      exact ih hrest' hle
    | plain hat' hrole' _ | separator hat' hrole' _ =>
      rw [hat.unique hat', hrole'] at hrole
      cases hrole

/-- An expression ends where a token stops it. -/
theorem le_of_stops (h : L.Encloses false lo a) (h' : L.Encloses sep lo m) (hstop : L.StopsAt m) :
    a ≤ m := by
  rcases Nat.le_total a m with hle | hle
  · exact hle
  · exact Nat.le_of_eq ((h'.rest h hle).eq_of_stops hstop).symm

/-- Inside of brackets, what encloses its line ends and commas goes up to the first of them, or up to
the bracket that closes. -/
theorem exists_stop (h : L.Encloses sep lo hi) (hclose : L.ClosesAt hi) :
    ∃ m, m ≤ hi ∧ L.Encloses false lo m ∧ L.StopsAt m := by
  induction h with
  | refl => exact ⟨_, Nat.le_refl _, .refl _ _, hclose.stopsAt⟩
  | plain hat hrole _ ih =>
    obtain ⟨m, hm, hinner, hstop⟩ := ih hclose
    exact ⟨m, hm, .plain hat hrole hinner, hstop⟩
  | separator hat hrole hrest _ =>
    have hle := hrest.le
    exact ⟨_, by omega, .refl _ _, _, hat, Token.isStop_iff.2 (.inl hrole)⟩
  | group hat hrole hinner hclosed _ _ ih =>
    obtain ⟨m, hm, hrest, hstop⟩ := ih hclose
    exact ⟨m, hm, .group hat hrole hinner hclosed hrest, hstop⟩

/-- Parentheses are brackets, so they are nested. -/
theorem exists_nested (h : L.Encloses sep lo hi) (hhi : hi ≤ L.lexemes.size) :
    ∃ ts, L.Spells lo hi ts ∧ Token.Nested ts := by
  induction h with
  | refl sep lo => exact ⟨[], ⟨Nat.le_refl lo, hhi, by simp⟩, .nil⟩
  | plain hat hrole _ ih =>
    obtain ⟨ts, hspells, hnested⟩ := ih hhi
    exact ⟨_, hat.spells.join hspells, .cons (Token.nesting_of_role (.inl hrole)) hnested⟩
  | separator hat hrole _ ih =>
    obtain ⟨ts, hspells, hnested⟩ := ih hhi
    exact ⟨_, hat.spells.join hspells, .cons (Token.nesting_of_role (.inr hrole)) hnested⟩
  | group hat hrole _ hclose hrest ihinner ih =>
    have hle := hrest.le
    obtain ⟨ts, hspells, hnested⟩ := ihinner (by omega)
    obtain ⟨us, hspells', hnested'⟩ := ih hhi
    refine ⟨_, hat.spells.join (hspells.join (hclose.spells.join hspells')), ?_⟩
    rcases Token.nesting_of_opening hrole with ⟨rfl, rfl⟩ | ⟨hopen, hclosed⟩
    · exact .parens hnested hnested'
    · exact .cons hopen (hnested.append (.cons hclosed hnested'))

end Encloses

end Layout

/-! ## Every expression -/

namespace Grammar

open Rule Layout

variable {L : Layout} {lo hi k : Nat} {e : Expr}

/-- Expressions read from windows shorter than `n` enclose their line ends and commas. -/
def EnclosesBelow (L : Layout) (n : Nat) : Prop :=
  ∀ {l : Level} {lo hi k : Nat} {e : Expr}, lo ≤ hi → hi ≤ L.lexemes.size → hi - lo < n →
    (level l).Parses L lo hi e k → L.Encloses false lo k

theorem encloses_newlineRun {n : Nat} : L.Encloses true lo (L.newlineRun n lo) := by
  induction n generalizing lo with
  | zero => exact .refl _ _
  | succ n ih =>
    rw [newlineRun]
    split
    · rename_i l hget
      split
      · rename_i hnewline
        exact .separator ⟨l, hget, hnewline⟩ rfl ih
      · exact .refl _ _
    · exact .refl _ _

/-- Up to the symbol that closes a sequence. -/
theorem encloses_elements {α : Type} {close : Punct} {item : Rule α} {rounds : Nat} {xs : List α}
    (hitem : ∀ {i j x}, lo ≤ i → i < hi → item.Parses L i hi x j → L.Encloses false i j)
    (h : (elements L close .comma item rounds).Parses L lo hi xs k) :
    ∃ c, k = c + 1 ∧ L.Encloses true lo c ∧ L.Next c hi (.symbol close) := by
  induction rounds generalizing lo xs with
  | zero => cases h
  | succ rounds ih =>
    rcases parses_elements_succ.1 h with
      ⟨hclose, -, rfl⟩ | ⟨⟨t, hnext, -⟩, x, j, hx, j', hskip, rest, i, hrest, -, rfl⟩
    · exact ⟨lo, rfl, .refl _ _, hclose⟩
    · have hread := (hitem (Nat.le_refl lo) hnext.1 hx).loosen
      have hcomma : L.Encloses true j j' := by
        rcases hskip with ⟨hnext, rfl⟩ | ⟨-, rfl⟩
        · exact .separator hnext.2 rfl (.refl _ _)
        · exact .refl _ _
      have hle := hread.le
      have hle' := hcomma.le
      obtain ⟨c, rfl, hinner, hclose⟩ := ih (fun hi => hitem (by omega)) hrest
      exact ⟨c, rfl, hread.trans (hcomma.trans hinner), hclose⟩

/-- Up to the brace that closes a block. -/
theorem encloses_statements {rounds : Nat} {es : List Expr}
    (hstatement : ∀ {i j s}, lo ≤ i → i < hi → (level .top).Parses L i hi s j →
      L.Encloses false i j)
    (h : (statements L rounds).Parses L lo hi es k) :
    ∃ c, k = c + 1 ∧ L.Encloses true lo c ∧ L.Next c hi (.symbol .rbrace) := by
  induction rounds generalizing lo es with
  | zero => cases h
  | succ rounds ih =>
    have hlines : L.Encloses true lo (L.newlineRun (hi - lo) lo) := encloses_newlineRun
    have hle := hlines.le
    rcases parses_statements_succ.1 h with
      ⟨hclose, -, rfl⟩ | ⟨⟨t, hnext, -⟩, s, j, hs, rest, i, hrest, -, rfl⟩
    · exact ⟨_, rfl, hlines, hclose⟩
    · have hread := (hstatement hle hnext.1 hs).loosen
      have hle' := hread.le
      obtain ⟨c, rfl, hinner, hclose⟩ := ih (fun hi => hstatement (by omega)) hrest
      exact ⟨c, rfl, hlines.trans (hread.trans hinner), hclose⟩

section

variable (hhi : hi ≤ L.lexemes.size) (below : EnclosesBelow L (hi - lo))

include hhi below

theorem encloses_body {i : Nat} (hi' : lo < i) {es : List Expr}
    (h : (body L).Parses L i hi es k) : L.Encloses false i k := by
  obtain ⟨hopen, hstatements⟩ := parses_body.1 h
  obtain ⟨c, rfl, hinner, hclose⟩ := encloses_statements
    (fun hle hlt hs => below (by omega) hhi (by omega) hs) hstatements
  exact .brackets hopen.2 rfl hinner hclose.2

/-- Behind the first token of a window, expressions are read from a shorter one. -/
theorem encloses_later {i : Nat} (hlt : lo < i) (hle : i ≤ hi)
    (h : (level .expr).Parses L i hi e k) : L.Encloses false i k := below hle hhi (by omega) h

theorem encloses_otherwise {i : Nat} (hlt : lo < i) (hle : i ≤ hi) {es : List Expr}
    (h : (otherwise L).Parses L i hi es k) : L.Encloses false i k := by
  rcases parses_otherwise.1 h with ⟨x, j, hx, -, rfl⟩ | ⟨-, hbody⟩
  · exact encloses_later hhi below hlt hle hx
  · exact encloses_body hhi below hlt hbody

theorem encloses_nodeRule (hL : L.Sound) (hlo : lo ≤ hi) {r : Rule Expr} (hr : NodeRule L r)
    (h : r.Parses L lo hi e k) : L.Encloses false lo k := by
  cases hr with
  | literal =>
    obtain ⟨l, hlt, hget, hliteral, rfl⟩ := parses_literal.1 h
    refine .token ⟨l, hget, rfl⟩ ?_
    cases htoken : l.token <;> simp [Lexeme.literal?, htoken] at hliteral <;> rfl
  | variableName =>
    obtain ⟨n, hname, -, rfl⟩ := parses_variableName.1 h
    exact .token hname.next.2 rfl
  | index =>
    obtain ⟨n, hname, hopen, position, j, hposition, hclose, -, rfl⟩ := parses_index.1 h
    have hinner := encloses_later hhi below (by omega) hopen.1 hposition
    exact .plain hname.next.2 rfl (.brackets hopen.2 rfl hinner hclose.2)
  | neg =>
    obtain ⟨hsign, x, j, hx, -, rfl⟩ := parses_neg.1 h
    exact .plain hsign.2 rfl (encloses_later hhi below (by omega) hsign.1 hx)
  | not =>
    obtain ⟨hsign, x, j, hx, -, rfl⟩ := parses_not.1 h
    exact .plain hsign.2 rfl (encloses_later hhi below (by omega) hsign.1 hx)
  | binary op =>
    obtain ⟨p, hfind, x, hx, y, j, hy, -, rfl⟩ := (parses_binary hL hlo hhi).1 h
    obtain ⟨hp, hp', hat⟩ := hL.find ⟨hlo, hhi⟩ hfind
    simp only at hp hp'
    -- The left operand starts with the window, and is shorter as it ends before the operator.
    have hleft : L.Encloses false lo p := below hp (by omega) (by omega) hx
    have hright : L.Encloses false (p + 1) k :=
      encloses_later hhi below (by omega) (by omega) hy
    exact hleft.trans (.plain hat (Token.role_op op) hright)
  | parens =>
    obtain ⟨hopen, p, hclosing, x, hx, hclose, -, rfl⟩ := (parses_parens hL hhi).1 h
    obtain ⟨hp, hp'⟩ := hL.closing (w := ⟨lo + 1, hi⟩) ⟨hopen.1, hhi⟩ hclosing
    simp only at hp hp'
    have hinner : L.Encloses false (lo + 1) p := below hp (by omega) (by omega) hx
    exact .brackets hopen.2 rfl hinner hclose.2
  | assign =>
    obtain ⟨n, hname, hequals, value, j, hvalue, -, rfl⟩ := parses_assign.1 h
    have hright := encloses_later hhi below (by omega) hequals.1 hvalue
    exact .plain hname.next.2 rfl (.plain hequals.2 rfl hright)
  | call =>
    obtain ⟨n, hname, hopen, args, j, hargs, -, rfl⟩ := parses_call.1 h
    obtain ⟨c, rfl, hinner, hclose⟩ := encloses_elements
      (fun hle hlt hx => encloses_later hhi below (by omega) (Nat.le_of_lt hlt) hx) hargs
    exact .plain hname.next.2 rfl (.brackets hopen.2 rfl hinner hclose.2)
  | store =>
    obtain ⟨n, hname, hopen, position, j, hposition, hclose, hequals, value, i, hvalue, -, rfl⟩ :=
      parses_store.1 h
    have hinner := encloses_later hhi below (by omega) hopen.1 hposition
    have hle := hinner.le
    have hright := encloses_later hhi below (by omega) hequals.1 hvalue
    exact .plain hname.next.2 rfl
      (.group hopen.2 rfl hinner.loosen hclose.2 (.plain hequals.2 rfl hright))
  | branch =>
    obtain ⟨hif, hopen, cond, j, hcond, hclose, thenBody, i, hthen, helse⟩ := parses_branch.1 h
    have hinner := encloses_later hhi below (by omega) hopen.1 hcond
    have hle := hinner.le
    have hblock := encloses_body hhi below (by omega) hthen
    have hle' := hblock.le
    have hhead : L.Encloses false lo i :=
      .plain hif.2 rfl (.group hopen.2 rfl hinner.loosen hclose.2 hblock)
    rcases helse with ⟨helse, elseBody, i', hother, -, rfl⟩ | ⟨-, -, rfl⟩
    · have hother := encloses_otherwise hhi below (by omega) helse.1 hother
      exact hhead.trans (.plain helse.2 rfl hother)
    · exact hhead
  | forIn =>
    obtain ⟨hfor, hopen, n, hname, hin, iterable, j, hiterable, hclose, loopBody, i, hbody, -, rfl⟩ :=
      parses_forIn.1 h
    have hinner := encloses_later hhi below (by omega) hin.1 hiterable
    have hle := hinner.le
    have hblock := encloses_body hhi below (by omega) hbody
    exact .plain hfor.2 rfl (.group hopen.2 rfl
      (.plain hname.next.2 rfl (.plain hin.2 rfl hinner.loosen)) hclose.2 hblock)
  | loop =>
    obtain ⟨hwhile, hopen, cond, j, hcond, hclose, loopBody, i, hbody, -, rfl⟩ := parses_loop.1 h
    have hinner := encloses_later hhi below (by omega) hopen.1 hcond
    have hle := hinner.le
    have hblock := encloses_body hhi below (by omega) hbody
    exact .plain hwhile.2 rfl (.group hopen.2 rfl hinner.loosen hclose.2 hblock)
  | ret =>
    obtain ⟨hreturn, ⟨x, j, hx, -, rfl⟩ | ⟨-, -, rfl⟩⟩ := parses_ret.1 h
    · exact .plain hreturn.2 rfl (encloses_later hhi below (by omega) hreturn.1 hx)
    · exact .token hreturn.2 rfl
  | binding =>
    obtain ⟨mutable, hkeyword, n, hname, hequals, value, j, hvalue, -, rfl⟩ := parses_binding.1 h
    have hright := encloses_later hhi below (by omega) hequals.1 hvalue
    exact .plain hkeyword.2 rfl (.plain hname.next.2 rfl (.plain hequals.2 rfl hright))

end

theorem enclosesBelow (hL : L.Sound) (n : Nat) : EnclosesBelow L n := by
  induction n with
  | zero =>
    intro l lo hi k e _ _ hn
    omega
  | succ n ih =>
    intro l lo hi k e hlo hhi hn h
    obtain ⟨r, hr, h⟩ := exists_nodeRule hL hlo hhi h
    have hbelow : EnclosesBelow L (hi - lo) :=
      fun hlo' hhi' hn' => ih hlo' hhi' (by omega)
    exact encloses_nodeRule hhi hbelow hL hlo hr h

/-- An expression encloses its line ends and commas, whatever its level. -/
theorem encloses_level (hL : L.Sound) {l : Level} (hlo : lo ≤ hi) (hhi : hi ≤ L.lexemes.size)
    (h : (level l).Parses L lo hi e k) : L.Encloses false lo k :=
  enclosesBelow hL (hi - lo + 1) hlo hhi (Nat.lt_succ_self _) h

end Grammar

end Scriptlet
