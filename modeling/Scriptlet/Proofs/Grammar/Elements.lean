import Scriptlet.Proofs.Grammar.Precedence

/-!
# Operators behind an element

An operator is looked for with parentheses counted and square brackets not, and only its first
occurrence is tried.  So what stands in the brackets of an element decides whether an operator behind
them is reached: `Operation.read_operation`.
-/

namespace Scriptlet

open Token

/-- Where parentheses are nested, a token stands outside of them or it does not. -/
theorem Token.Nested.clear_or_split {ts : List Token} (h : Nested ts) (t : Token) :
    Clear t ts ∨ ∃ before after, ts = before ++ t :: after ∧ Clear t before := by
  induction h with
  | nil => exact .inl .nil
  | @cons u ts hu _ ih =>
    by_cases hut : u = t
    · exact .inr ⟨[], ts, by rw [hut]; rfl, .nil⟩
    · rcases ih with hclear | ⟨before, after, rfl, hbefore⟩
      · exact .inl (.cons hu hut hclear)
      · exact .inr ⟨u :: before, after, rfl, .cons hu hut hbefore⟩
  | @parens ts us hts _ _ ih =>
    rcases ih with hclear | ⟨before, after, rfl, hbefore⟩
    · exact .inl (.parens hts hclear)
    · exact .inr ⟨_, after, by simp, .parens hts hbefore⟩

namespace Grammar

open Rule Layout

variable {L : Layout} {lo hi p c k : Nat} {base : Name} {position e : Expr}

/-- From lexeme `lo` up to the square bracket at `c` stands an element of a list. -/
structure ElementAt (L : Layout) (base : Name) (position : Expr) (lo c : Nat) : Prop where
  name : L.NameNext lo (lo + 1) base
  opening : L.At (lo + 1) (.symbol .lbracket)
  parses : (level .expr).Parses L (lo + 2) c position c
  closing : L.At c (.symbol .rbracket)
  start : lo + 2 ≤ c

namespace ElementAt

/-- What stands in the brackets encloses its line ends and commas. -/
theorem encloses (hL : L.Sound) (E : ElementAt L base position lo c) :
    L.Encloses false (lo + 2) c :=
  encloses_level hL E.start (Nat.le_of_lt E.closing.lt_size) E.parses

theorem framed (hL : L.Sound) (E : ElementAt L base position lo c) (span : Span) :
    L.Framed lo (.index span base position) (c + 1) :=
  .index E.name.next.2 E.opening (E.encloses hL).loosen E.closing

/-- In a longer window the position is the same, as a bracket ends it. -/
theorem parses_index (hL : L.Sound) (hS : L.Scans) (E : ElementAt L base position lo c)
    (hlt : c < hi) (hhi : hi ≤ L.lexemes.size) :
    (index L).Parses L lo hi (.index (L.spanOf lo (c + 1)) base position) (c + 1) := by
  have hstart := E.start
  have hposition : (level .expr).Parses L (lo + 2) hi position c :=
    parses_of_stops hL hS hstart (by omega) hhi (Nat.le_of_lt hlt)
      (fun _ => (E.closing.closesAt (t := .symbol .lbracket) rfl).stopsAt) E.parses
  rw [Grammar.parses_index]
  exact ⟨base, ⟨by omega, E.name.2⟩, ⟨by omega, E.opening⟩, position, c, hposition,
    ⟨hlt, E.closing⟩, rfl, rfl⟩

/-- Nothing that starts with the element is enclosed up to a place inside of its brackets. -/
theorem lt_of_encloses (hL : L.Sound) (E : ElementAt L base position lo c) {sep : Bool}
    (h : L.Encloses sep (lo + 1) p) (hp : p ≠ lo + 1) : c < p := by
  cases h with
  | refl => exact absurd rfl hp
  | plain hat hrole _ | separator hat hrole _ =>
    rw [← E.opening.unique hat] at hrole
    cases hrole
  | group hat hrole hinner hclose hrest =>
    obtain rfl := hinner.closes_unique (hclose.closesAt hrole) (E.encloses hL)
      (E.closing.closesAt (t := .symbol .lbracket) rfl)
    exact hrest.le

/-- A rule for an operator reads only if it finds the operator behind the brackets. -/
theorem lt_of_binary (hL : L.Sound) (E : ElementAt L base position lo c) (hlo : lo ≤ hi)
    (hhi : hi ≤ L.lexemes.size) {op : BinOp} (h : (binary L op).Parses L lo hi e k) :
    ∃ p, L.find? op.token ⟨lo, hi⟩ = some p ∧ c < p ∧ p < hi ∧ L.At p op.token := by
  obtain ⟨p, hfind, l, hl, -⟩ := (parses_binary hL hlo hhi).1 h
  obtain ⟨hp, hp', hat⟩ := hL.find ⟨hlo, hhi⟩ hfind
  simp only at hp hp'
  refine ⟨p, hfind, ?_, hp', hat⟩
  have hlt := (bounds_level hL hp (by omega) hl).1
  have hname : L.Encloses false lo (lo + 1) := .token E.name.next.2 rfl
  -- The left operand is all of the window before the operator, so it holds whole brackets only.
  have hrest := hname.rest (encloses_level hL hp (by omega) hl) hlt
  apply E.lt_of_encloses hL hrest
  rintro rfl
  -- What stands there is the bracket, which is no operator.
  have htoken := E.opening.unique hat
  cases op <;> cases htoken

/-- An element with no value stored into it starts no statement. -/
theorem top_fails (hL : L.Sound) (E : ElementAt L base position lo c) (hhi : hi ≤ L.lexemes.size)
    (hequals : ¬ L.At (c + 1) (.symbol .equals)) : (top L).Fails L lo hi := by
  rw [fails_iff]
  intro e k h
  rcases (E.framed hL (L.spanOf lo (c + 1))).named_of_top h with h | h | h
  · obtain ⟨_, -, hnext, -⟩ := parses_assign.1 h
    cases hnext.2.unique E.opening
  · obtain ⟨_, -, hnext, -⟩ := parses_call.1 h
    cases hnext.2.unique E.opening
  · obtain ⟨_, -, hopen, x, j, hx, hclose, hnext, -⟩ := parses_store.1 h
    obtain rfl := (encloses_level hL hopen.1 hhi hx).closes_unique ⟨_, hclose.2, rfl⟩
      (E.encloses hL) ⟨_, E.closing, rfl⟩
    exact hequals hnext.2

theorem math_fails (hL : L.Sound) (E : ElementAt L base position lo c) (hhi : hi ≤ L.lexemes.size)
    (hops : ∀ op, (binary L op).Fails L lo hi) : (math L).Fails L lo hi := by
  rw [fails_iff]
  intro e k h
  have hparens := (E.framed hL (L.spanOf lo (c + 1))).parens_of_math (fun op _ => hops op) h
  cases E.name.next.2.unique ((parses_parens hL hhi).1 hparens).1.2

theorem comparison_fails (hops : ∀ op, (binary L op).Fails L lo hi) :
    (comparison L).Fails L lo hi := by
  rw [fails_iff]
  intro e k h
  obtain ⟨op, h⟩ := comparison_cases h
  exact fails_iff.1 (hops op) e k h

/-- Where no operator is reached and no value is stored, the element is read alone. -/
theorem parses_alone (hL : L.Sound) (hS : L.Scans) (E : ElementAt L base position lo c)
    (hlt : c < hi) (hhi : hi ≤ L.lexemes.size) (hequals : ¬ L.At (c + 1) (.symbol .equals))
    (hops : ∀ op, (binary L op).Fails L lo hi) :
    (level .expr).Parses L lo hi (.index (L.spanOf lo (c + 1)) base position) (c + 1) := by
  have hstart := E.start
  have hlo : lo ≤ hi := by omega
  have hlevel : ∀ {l : Level}, (ofLevel L l).Fails L lo hi → ∀ e k,
      (level l).Parses L lo hi e k → k < c + 1 := by
    intro l hfails e k h
    exact absurd ((parses_level hL hlo hhi).1 h) (fails_iff.1 hfails e k)
  have hshort : (level .short).Parses L lo hi (.index (L.spanOf lo (c + 1)) base position) (c + 1) :=
    (parses_level hL hlo hhi).2 (parses_short.2 (.inr (.inl (E.parses_index hL hS hlt hhi))))
  refine (parses_level hL hlo hhi).2 (parses_expr.2 ⟨⟨_, by omega, E.name.next.2⟩,
    [.top, .math, .comparison], .short, [], rfl, hshort, ?_, by simp⟩)
  intro l hl
  simp only [List.mem_cons, List.not_mem_nil, or_false] at hl
  rcases hl with rfl | rfl | rfl
  · exact hlevel (E.top_fails hL hhi hequals)
  · exact hlevel (E.math_fails hL hhi hops)
  · exact hlevel (comparison_fails hops)

/-- In a window that ends with its bracket, the element is all there is. -/
theorem parses_whole (hL : L.Sound) (hS : L.Scans) (E : ElementAt L base position lo c)
    (hequals : ¬ L.At (c + 1) (.symbol .equals)) :
    (level .expr).Parses L lo (c + 1) (.index (L.spanOf lo (c + 1)) base position) (c + 1) := by
  have hstart := E.start
  have hsize := E.closing.lt_size
  apply E.parses_alone hL hS (Nat.lt_succ_self c) hsize hequals
  intro op
  rw [fails_iff]
  intro e k h
  obtain ⟨p, -, hp, hp', -⟩ := E.lt_of_binary hL (by omega) hsize h
  omega

theorem spells (E : ElementAt L base position lo c) {ts : List Token}
    (h : L.Spells (lo + 2) c ts) :
    L.Spells lo (c + 1) (.ident base.text :: .symbol .lbracket :: (ts ++ [.symbol .rbracket])) :=
  E.name.next.2.spells.join (E.opening.spells.join (h.join E.closing.spells))

end ElementAt

/-- Behind the element at `lo` stand an operator and a literal or a name. -/
structure OperationAt (L : Layout) (base : Name) (position : Expr) (op : BinOp) (operand : Expr)
    (lo c : Nat) : Prop extends ElementAt L base position lo c where
  sign : L.At (c + 1) op.token
  right : ∃ l, L.lexemes[c + 2]? = some l ∧ l.atom? = some operand

namespace OperationAt

variable {op op' : BinOp} {operand : Expr} {ts : List Token}

theorem equals_absent (O : OperationAt L base position op operand lo c) :
    ¬ L.At (c + 1) (.symbol .equals) := by
  intro hat
  have htoken := O.sign.unique hat
  cases op <;> cases htoken

theorem le_size (O : OperationAt L base position op operand lo c) : c + 3 ≤ L.lexemes.size := by
  obtain ⟨l, hget, -⟩ := O.right
  exact (Array.getElem?_eq_some_iff.1 hget).1

/-- Neither a name nor the bracket behind it is an operator. -/
theorem clear_opened {name : String} (h : Clear op.token ts) :
    Clear op.token (.ident name :: .symbol .lbracket :: ts) := by
  refine .cons rfl ?_ (.cons rfl ?_ h)
  · cases op <;> simp [BinOp.token]
  · cases op <;> simp [BinOp.token]

/-- Only the operator behind the brackets may be reached. -/
theorem eq_of_binary (hL : L.Sound) (O : OperationAt L base position op operand lo c)
    (h : (binary L op').Parses L lo (c + 3) e k) :
    op' = op ∧ L.find? op.token ⟨lo, c + 3⟩ = some (c + 1) := by
  have hstart := O.start
  obtain ⟨p, hfind, hp, hp', hat⟩ := O.lt_of_binary hL (by omega) O.le_size h
  rcases (show p = c + 1 ∨ p = c + 2 by omega) with rfl | rfl
  · obtain rfl := BinOp.token_inj (hat.unique O.sign)
    exact ⟨rfl, hfind⟩
  · -- The last lexeme is no operator.
    obtain ⟨l, hget, hatom⟩ := O.right
    have htoken := Lexeme.isAtom_of_atom? hatom
    rw [show l.token = op'.token from At.unique ⟨l, hget, rfl⟩ hat] at htoken
    cases op' <;> cases htoken

/-- Brackets that are clear of the operator isolate what is in them. -/
theorem parses_of_clear (hL : L.Sound) (hS : L.Scans)
    (O : OperationAt L base position op operand lo c) (hspells : L.Spells (lo + 2) c ts)
    (hclear : Clear op.token ts) :
    (level .expr).Parses L lo (c + 3) (.binary (L.spanOf lo (c + 3)) op
      (.index (L.spanOf lo (c + 1)) base position) operand) (c + 3) := by
  have hstart := O.start
  have hsize := O.le_size
  have hclosing : Clear op.token [.symbol .rbracket] := by
    refine .cons rfl ?_ .nil
    cases op <;> simp [BinOp.token]
  have hfind := hS.find?_eq_some (O.spells hspells) (clear_opened (hclear.append hclosing)) O.sign
    (by omega) hsize
  obtain ⟨l, hget, hatom⟩ := O.right
  have hbinary : (binary L op).Parses L lo (c + 3) (.binary (L.spanOf lo (c + 3)) op
      (.index (L.spanOf lo (c + 1)) base position) operand) (c + 3) := by
    rw [parses_binary hL (by omega) hsize]
    exact ⟨c + 1, hfind, _, O.parses_whole hL hS O.equals_absent, operand, c + 3,
      parses_atom hL hS hget hatom, rfl, rfl⟩
  -- The operators that are tried before it are not reached.
  obtain ⟨looser, tighter, hranking⟩ := List.append_of_mem op.mem_ranking
  apply (O.framed hL (L.spanOf lo (c + 1))).parses_of_binary hL (by omega) hsize O.sign hranking
    _ hbinary
  intro op' hop'
  rw [fails_iff]
  intro e k h
  obtain ⟨rfl, -⟩ := O.eq_of_binary hL h
  have hnodup : BinOp.ranking.Nodup := by decide
  rw [hranking, List.nodup_append] at hnodup
  exact hnodup.2.2 op' hop' op' List.mem_cons_self rfl

/-- An operator that stands in the brackets, outside of parentheses, is not reached behind them. -/
theorem parses_of_not_clear (hL : L.Sound) (hS : L.Scans)
    (O : OperationAt L base position op operand lo c) (hspells : L.Spells (lo + 2) c ts)
    (hclear : ¬ Clear op.token ts) :
    (level .expr).Parses L lo (c + 3) (.index (L.spanOf lo (c + 1)) base position) (c + 1) := by
  have hstart := O.start
  have hsize := O.le_size
  obtain ⟨us, hspells', hnested⟩ := (O.encloses hL).exists_nested (by omega)
  obtain rfl : us = ts := by rw [← hspells'.tokens_eq, hspells.tokens_eq]
  obtain ⟨before, after, rfl, hbefore⟩ := (hnested.clear_or_split op.token).resolve_left hclear
  obtain ⟨hleft, hright⟩ := hspells.append
  obtain ⟨hlt, hat, -⟩ := hright.cons
  -- The first occurrence is the one in the brackets.
  have hfind : L.find? op.token ⟨lo, c + 3⟩ = some (lo + 2 + before.length) :=
    hS.find?_eq_some (O.name.next.2.spells.join (O.opening.spells.join hleft))
      (clear_opened hbefore) hat (by omega) hsize
  apply O.parses_alone hL hS (by omega) hsize O.equals_absent
  intro op'
  rw [fails_iff]
  intro e k h
  obtain ⟨rfl, hfind'⟩ := O.eq_of_binary hL h
  have hplace := Option.some.inj (hfind.symm.trans hfind')
  omega

end OperationAt

end Grammar

/-- An element of a list with an operator and a literal or a name behind it. -/
structure Operation where
  /-- The name of the list. -/
  base : Lexeme
  /-- What it spells. -/
  name : String
  /-- The opening bracket. -/
  opening : Lexeme
  /-- What stands in the brackets. -/
  inner : List Lexeme
  /-- The expression that it is. -/
  position : Expr
  /-- The closing bracket. -/
  closing : Lexeme
  /-- The operator. -/
  op : BinOp
  /-- Its lexeme. -/
  sign : Lexeme
  /-- The literal or name behind it. -/
  right : Lexeme
  /-- The expression that it is. -/
  operand : Expr
  named : base.token = .ident name
  opened : opening.token = .symbol .lbracket
  whole : position.ReadFrom inner
  closed : closing.token = .symbol .rbracket
  spelled : sign.token = op.token
  atom : right.atom? = some operand

namespace Operation

/-- The lexemes of the element. -/
def element (o : Operation) : List Lexeme := o.base :: o.opening :: (o.inner ++ [o.closing])

/-- All its lexemes. -/
def lexemes (o : Operation) : List Lexeme := o.element ++ [o.sign, o.right]

/-- The node of the element. -/
def elementNode (o : Operation) : Expr :=
  .index ⟨o.base.span.lo, o.closing.span.hi⟩ ⟨o.name, o.base.span⟩ o.position

/-- The node of the operator, with the element on its left. -/
def node (o : Operation) : Expr :=
  .binary ⟨o.base.span.lo, o.right.span.hi⟩ o.op o.elementNode o.operand

/-- The place of the closing bracket. -/
def close (o : Operation) (before : List Lexeme) : Nat := before.length + 2 + o.inner.length

section

variable (o : Operation) (before after : List Lexeme)

theorem length_element : before.length + o.element.length = o.close before + 1 := by
  simp only [element, close, List.length_cons, List.length_append, List.length_nil]
  omega

theorem length_lexemes : before.length + o.lexemes.length = o.close before + 3 := by
  rw [lexemes, List.length_append, ← Nat.add_assoc, length_element]
  rfl

/-- The lexemes around what stands in the brackets. -/
theorem lexemes_among : before ++ o.lexemes ++ after =
    (before ++ [o.base, o.opening]) ++ o.inner ++ o.closing :: o.sign :: o.right :: after := by
  simp [lexemes, element]

theorem getElem?_base :
    (Layout.indexed (before ++ o.lexemes ++ after)).lexemes[before.length]? = some o.base := by
  simp [Layout.indexed, lexemes, element]

theorem getElem?_behind (i : Nat) :
    (Layout.indexed (before ++ o.lexemes ++ after)).lexemes[o.close before + i]? =
      (o.closing :: o.sign :: o.right :: after)[i]? := by
  have hlength : o.close before = (before ++ [o.base, o.opening] ++ o.inner).length := by
    simp only [close, List.length_append, List.length_cons, List.length_nil]
  rw [lexemes_among, hlength]
  simp only [Layout.indexed, List.getElem?_toArray]
  rw [List.getElem?_append_right (Nat.le_add_right _ _), Nat.add_sub_cancel_left]

theorem operationAt :
    Grammar.OperationAt (Layout.indexed (before ++ o.lexemes ++ after)) ⟨o.name, o.base.span⟩
      o.position o.op o.operand before.length (o.close before) where
  name := ⟨Nat.lt_succ_self _, o.base, o.getElem?_base before after, o.named, rfl⟩
  opening := ⟨o.opening, by simp [Layout.indexed, lexemes, element], o.opened⟩
  parses := by
    have hread := o.whole.parses (before ++ [o.base, o.opening])
      (o.closing :: o.sign :: o.right :: after)
    rw [← lexemes_among] at hread
    simpa [close] using hread
  closing := ⟨o.closing, o.getElem?_behind before after 0, o.closed⟩
  start := Nat.le_add_right _ _
  sign := ⟨o.sign, o.getElem?_behind before after 1, o.spelled⟩
  right := ⟨o.right, o.getElem?_behind before after 2, o.atom⟩

theorem spells_inner :
    (Layout.indexed (before ++ o.lexemes ++ after)).Spells (before.length + 2) (o.close before)
      (o.inner.map Lexeme.token) := by
  have hspells := Grammar.spells_indexed (before ++ [o.base, o.opening])
    (o.closing :: o.sign :: o.right :: after) o.inner
  rw [← lexemes_among] at hspells
  simpa [close] using hspells

theorem spanOf_behind {i : Nat} {l : Lexeme}
    (h : (o.closing :: o.sign :: o.right :: after)[i]? = some l) :
    (Layout.indexed (before ++ o.lexemes ++ after)).spanOf before.length (o.close before + i + 1) =
      ⟨o.base.span.lo, l.span.hi⟩ := by
  have hlt : ¬ o.close before + i + 1 ≤ before.length := by
    rw [close]
    omega
  rw [Layout.spanOf, if_neg hlt, Nat.add_sub_cancel, getElem?_base, getElem?_behind, h]
  rfl

theorem parses_node (h : Clear o.op.token (o.inner.map Lexeme.token)) :
    (Rule.level .expr).Parses (Layout.indexed (before ++ o.lexemes ++ after)) before.length
      (o.close before + 3) o.node (o.close before + 3) := by
  have hread := (o.operationAt before after).parses_of_clear (Layout.sound_indexed _)
    (Layout.scans_indexed _) (o.spells_inner before after) h
  rwa [o.spanOf_behind before after (i := 2) rfl, o.spanOf_behind before after (i := 0) rfl]
    at hread

theorem parses_elementNode (h : ¬ Clear o.op.token (o.inner.map Lexeme.token)) :
    (Rule.level .expr).Parses (Layout.indexed (before ++ o.lexemes ++ after)) before.length
      (o.close before + 3) o.elementNode (o.close before + 1) := by
  have hread := (o.operationAt before after).parses_of_not_clear (Layout.sound_indexed _)
    (Layout.scans_indexed _) (o.spells_inner before after) h
  rwa [o.spanOf_behind before after (i := 0) rfl] at hread

end

/-- Square brackets that are clear of an operator isolate what stands in them: the operator behind
them has the element on its left.  Otherwise that operator is not reached, and only the element is
read. -/
theorem read_operation (o : Operation) (before after : List Lexeme) :
    (Clear o.op.token (o.inner.map Lexeme.token) →
      Production.expr.read (before ++ o.lexemes ++ after)
          ⟨before.length, before.length + o.lexemes.length⟩ =
        .ok (.expr o.node,
          ⟨before.length + o.lexemes.length, before.length + o.lexemes.length⟩)) ∧
    (¬ Clear o.op.token (o.inner.map Lexeme.token) →
      Production.expr.read (before ++ o.lexemes ++ after)
          ⟨before.length, before.length + o.lexemes.length⟩ =
        .ok (.expr o.elementNode,
          ⟨before.length + o.element.length, before.length + o.lexemes.length⟩)) := by
  have hsize : before.length + o.lexemes.length ≤ (before ++ o.lexemes ++ after).length := by
    simp
  rw [Production.read_expr_iff (Nat.le_add_right _ _) hsize,
    Production.read_expr_iff (Nat.le_add_right _ _) hsize, length_lexemes, length_element]
  exact ⟨o.parses_node before after, o.parses_elementNode before after⟩

/-- The lexemes of `a[i ? 1] - b`, for an operator in the place of the question mark. -/
def offset (op : BinOp) (sign : Lexeme) (h : sign.token = op.token) : Operation where
  base := ⟨.ident "a", ⟨0, 1⟩, "a"⟩
  name := "a"
  opening := ⟨.symbol .lbracket, ⟨1, 2⟩, "["⟩
  inner := [⟨.ident "i", ⟨2, 3⟩, "i"⟩, sign, ⟨.int 1, ⟨6, 7⟩, "1"⟩]
  position := .binary ⟨2, 7⟩ op (.var ⟨2, 3⟩ "i") (.int ⟨6, 7⟩ 1)
  closing := ⟨.symbol .rbracket, ⟨7, 8⟩, "]"⟩
  op := .sub
  sign := ⟨.symbol .minus, ⟨9, 10⟩, "-"⟩
  right := ⟨.ident "b", ⟨11, 12⟩, "b"⟩
  operand := .var ⟨11, 12⟩ "b"
  named := rfl
  opened := rfl
  whole := by
    have hread := Chain.readFrom
      ⟨.ofAtom ⟨.ident "i", ⟨2, 3⟩, "i"⟩ (.var ⟨2, 3⟩ "i") rfl,
        [⟨op, sign, h, .ofAtom ⟨.int 1, ⟨6, 7⟩, "1"⟩ (.int ⟨6, 7⟩ 1) rfl⟩]⟩
    rwa [Chain.tree_pair] at hread
  closed := rfl
  spelled := rfl
  atom := rfl

/-- The lexemes of `a[i + 1] - b`. -/
def plusOffset : Operation := offset .add ⟨.symbol .plus, ⟨4, 5⟩, "+"⟩ rfl

/-- The lexemes of `a[i - 1] - b`. -/
def minusOffset : Operation := offset .sub ⟨.symbol .minus, ⟨4, 5⟩, "-"⟩ rfl

theorem clear_plusOffset : Clear plusOffset.op.token (plusOffset.inner.map Lexeme.token) :=
  .cons rfl (by decide) (.cons rfl (by decide) (.cons rfl (by decide) .nil))

theorem not_clear_minusOffset :
    ¬ Clear minusOffset.op.token (minusOffset.inner.map Lexeme.token) := by
  intro h
  cases h with
  | cons _ _ h =>
    cases h with
    | cons _ hne _ => exact hne rfl

theorem read_operation_offset :
    Production.expr.read plusOffset.lexemes ⟨0, 8⟩ = .ok (.expr plusOffset.node, ⟨8, 8⟩) ∧
      Production.expr.read minusOffset.lexemes ⟨0, 8⟩ =
        .ok (.expr minusOffset.elementNode, ⟨6, 8⟩) :=
  ⟨(read_operation plusOffset [] []).1 clear_plusOffset,
    (read_operation minusOffset [] []).2 not_clear_minusOffset⟩

/-- Not all brackets isolate what stands in them. -/
theorem minusOffset_not_read :
    Production.expr.read minusOffset.lexemes ⟨0, 8⟩ ≠ .ok (.expr minusOffset.node, ⟨8, 8⟩) := by
  intro h
  have hnode := (Production.read_expr_iff (Nat.zero_le _) (Nat.le_refl _)).1 h
  have helement := minusOffset.parses_elementNode [] [] not_clear_minusOffset
  cases (hnode.unique helement).2

end Operation

end Scriptlet
