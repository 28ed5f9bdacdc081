import Scriptlet.Proofs.Grammar.Following

/-!
# Operands and what is read behind them

An operand starts with a literal, a name or a parenthesis, and its brackets tell where it ends:
`Layout.Framed`.  Behind an operand that an operator follows, no statement and no parenthesis reads on,
so an expression that starts with the operand and reaches the end of the window is one that a rule for
an operator reads, the first one in the `BinOp.ranking` that does.
-/

namespace Scriptlet

/-- The operators in the order in which the grammar tries them; the first ones bind loosest. -/
def BinOp.ranking : List BinOp := [.range, .sub, .add, .mul, .div, .and, .or, .less, .greater]

/-- Every operator has a rank. -/
theorem BinOp.mem_ranking (op : BinOp) : op ∈ ranking := by
  cases op <;> decide

/-- Whether a token is a whole operand: a literal or a name. -/
def Token.isAtom : Token → Bool
  | .int _ | .bool _ | .char _ | .str _ | .ident _ => true
  | _ => false

/-- The literal or the variable that a lexeme is. -/
def Lexeme.atom? (l : Lexeme) : Option Expr :=
  match l.token with
  | .ident name => some (.var l.span name)
  | _ => l.literal?

namespace Layout

/-- From lexeme `lo` up to `k` stand a literal or a name, a name with brackets behind it, or
parentheses; only an element has square brackets. -/
inductive Framed (L : Layout) (lo : Nat) : (operand : Expr) → (k : Nat) → Prop
  | atom {x : Expr} {t : Token} : L.At lo t → t.isAtom = true → Framed L lo x (lo + 1)
  | call {x : Expr} {name : String} {c : Nat} : L.At lo (.ident name) →
      L.At (lo + 1) (.symbol .lparen) → L.Encloses true (lo + 2) c → L.At c (.symbol .rparen) →
      Framed L lo x (c + 1)
  | index {span : Span} {base : Name} {position : Expr} {name : String} {c : Nat} :
      L.At lo (.ident name) → L.At (lo + 1) (.symbol .lbracket) → L.Encloses true (lo + 2) c →
      L.At c (.symbol .rbracket) → Framed L lo (.index span base position) (c + 1)
  | parens {x : Expr} {c : Nat} : L.At lo (.symbol .lparen) → L.Encloses true (lo + 1) c →
      L.At c (.symbol .rparen) → Framed L lo x (c + 1)

end Layout

namespace Grammar

open Rule Layout

variable {L : Layout} {lo hi j k : Nat} {e : Expr}

/-- The brackets of an operand are those of its form. -/
theorem framed_of_parses (hL : L.Sound) (hlo : lo ≤ hi) (hhi : hi ≤ L.lexemes.size) {l : Level}
    (h : (level l).Parses L lo hi e k) (he : e.isOperand = true) : L.Framed lo e k := by
  obtain ⟨r, hr, h⟩ := exists_nodeRule hL hlo hhi h
  cases hr with
  | literal =>
    obtain ⟨l, -, hget, hliteral, rfl⟩ := parses_literal.1 h
    refine .atom ⟨l, hget, rfl⟩ ?_
    cases htoken : l.token <;> simp [Lexeme.literal?, htoken] at hliteral <;> rfl
  | variableName =>
    obtain ⟨n, hname, -, rfl⟩ := parses_variableName.1 h
    exact .atom hname.next.2 rfl
  | index =>
    obtain ⟨n, hname, hopen, position, c, hposition, hclose, rfl, rfl⟩ := parses_index.1 h
    have hinner := encloses_level hL hopen.1 hhi hposition
    exact .index hname.next.2 hopen.2 hinner.loosen hclose.2
  | call =>
    obtain ⟨n, hname, hopen, args, j, hargs, -, rfl⟩ := parses_call.1 h
    obtain ⟨c, rfl, hinner, hclose⟩ := encloses_elements
      (fun _ hlt hx => encloses_level hL (Nat.le_of_lt hlt) hhi hx) hargs
    exact .call hname.next.2 hopen.2 hinner hclose.2
  | parens =>
    obtain ⟨hopen, c, hclosing, x, hx, hclose, -, rfl⟩ := (parses_parens hL hhi).1 h
    obtain ⟨hc, hc'⟩ := hL.closing (w := ⟨lo + 1, hi⟩) ⟨hopen.1, hhi⟩ hclosing
    have hinner := encloses_level hL hc (Nat.le_trans (Nat.le_of_lt hc') hhi) hx
    exact .parens hopen.2 hinner.loosen hclose.2
  -- every other rule reads something that is no operand
  | neg =>
    obtain ⟨_, _, _, _, rfl, _⟩ := parses_neg.1 h
    cases he
  | not =>
    obtain ⟨_, _, _, _, rfl, _⟩ := parses_not.1 h
    cases he
  | binary op =>
    obtain ⟨_, _, _, _, _, _, _, rfl, _⟩ := (parses_binary hL hlo hhi).1 h
    cases he
  | assign =>
    obtain ⟨_, _, _, _, _, _, rfl, _⟩ := parses_assign.1 h
    cases he
  | store =>
    obtain ⟨_, _, _, _, _, _, _, _, _, _, _, rfl, _⟩ := parses_store.1 h
    cases he
  | branch =>
    obtain ⟨_, _, _, _, _, _, _, _, _, ⟨_, _, _, _, rfl, _⟩ | ⟨_, rfl, _⟩⟩ := parses_branch.1 h
    · cases he
    · cases he
  | forIn =>
    obtain ⟨_, _, _, _, _, _, _, _, _, _, _, _, rfl, _⟩ := parses_forIn.1 h
    cases he
  | loop =>
    obtain ⟨_, _, _, _, _, _, _, _, _, rfl, _⟩ := parses_loop.1 h
    cases he
  | ret =>
    obtain ⟨_, ⟨_, _, _, rfl, _⟩ | ⟨_, rfl, _⟩⟩ := parses_ret.1 h
    · cases he
    · cases he
  | binding =>
    obtain ⟨_, _, _, _, _, _, _, _, rfl, _⟩ := parses_binding.1 h
    cases he

end Grammar

namespace Layout.Framed

open Rule Grammar

variable {L : Layout} {lo hi j k : Nat} {x e : Expr}

theorem lt (F : L.Framed lo x k) : lo < k := by
  cases F with
  | atom _ _ => exact Nat.lt_succ_self lo
  | call _ _ hinner _ | index _ _ hinner _ | parens _ hinner _ =>
    have hle := hinner.le
    omega

/-- The first token of an operand. -/
theorem first (F : L.Framed lo x k) :
    ∃ t, L.At lo t ∧ (t.isAtom = true ∨ t = .symbol .lparen) := by
  cases F with
  | atom hat hatom => exact ⟨_, hat, .inl hatom⟩
  | call hat _ _ _ | index hat _ _ _ => exact ⟨_, hat, .inl rfl⟩
  | parens hat _ _ => exact ⟨_, hat, .inr rfl⟩

theorem first_cases (F : L.Framed lo x k) {t : Token} (hat : L.At lo t) :
    t.isAtom = true ∨ t = .symbol .lparen := by
  obtain ⟨u, hu, hfirst⟩ := F.first
  rwa [hu.unique hat] at hfirst

/-- No operand starts with a sign. -/
theorem sign_fails (F : L.Framed lo x k) : (neg L).Fails L lo hi ∧ (not L).Fails L lo hi := by
  refine ⟨fails_iff.2 fun e j h => ?_, fails_iff.2 fun e j h => ?_⟩
  · rcases F.first_cases (parses_neg.1 h).1.2 with hfirst | hfirst <;> cases hfirst
  · rcases F.first_cases (parses_not.1 h).1.2 with hfirst | hfirst <;> cases hfirst

/-- Parentheses that an operand starts with end where it ends. -/
theorem parens_le (hL : L.Sound) (hhi : hi ≤ L.lexemes.size) (F : L.Framed lo x k)
    (h : (Grammar.parens L).Parses L lo hi e j) : j ≤ k := by
  obtain ⟨hopen, p, hclosing, y, hy, hclose, -, rfl⟩ := (parses_parens hL hhi).1 h
  obtain ⟨hp, hp'⟩ := hL.closing (w := ⟨lo + 1, hi⟩) ⟨hopen.1, hhi⟩ hclosing
  have hinner := encloses_level hL hp (Nat.le_trans (Nat.le_of_lt hp') hhi) hy
  cases F with
  | atom hat hatom =>
    rw [← hopen.2.unique hat] at hatom
    cases hatom
  | call hat _ _ _ | index hat _ _ _ => cases hopen.2.unique hat
  | parens _ hinner' hclose' =>
    obtain rfl := hinner.closes_unique ⟨_, hclose.2, rfl⟩ hinner' ⟨_, hclose', rfl⟩
    exact Nat.le_refl _

/-- A statement that starts with an operand starts with no keyword. -/
theorem named_of_top (F : L.Framed lo x k) (h : (top L).Parses L lo hi e j) :
    (assign L).Parses L lo hi e j ∨ (Grammar.call L).Parses L lo hi e j ∨
      (store L).Parses L lo hi e j := by
  have hkeyword : ∀ kw, ¬ L.At lo (.keyword kw) := by
    intro kw hkw
    rcases F.first_cases hkw with hfirst | hfirst <;> cases hfirst
  rcases parses_top.1 h with h | h | h | h | h
  · exact .inl h
  · exact .inr (.inl h)
  · exact .inr (.inr h)
  · exfalso
    rcases parses_control.1 h with h | h | h | h
    · exact hkeyword _ (parses_branch.1 h).1.2
    · exact hkeyword _ (parses_forIn.1 h).1.2
    · exact hkeyword _ (parses_loop.1 h).1.2
    · exact hkeyword _ (parses_ret.1 h).1.2
  · obtain ⟨mutable, hkw, -⟩ := parses_binding.1 h
    exact absurd hkw.2 (hkeyword _)

/-- A statement that starts with an operand that an operator follows is a call, and ends where the
operand ends. -/
theorem top_le (hL : L.Sound) (hhi : hi ≤ L.lexemes.size) (F : L.Framed lo x k) {op : BinOp}
    (hop : L.At k op.token) (h : (top L).Parses L lo hi e j) : j ≤ k := by
  -- No statement goes on behind a name with an operator.
  have hne : ∀ {p}, L.At k (.symbol p) → p ≠ .equals ∧ p ≠ .lparen ∧ p ≠ .lbracket := by
    intro p hat
    have heq := hop.unique hat
    refine ⟨?_, ?_, ?_⟩ <;> rintro rfl <;> cases op <;> cases heq
  rcases F.named_of_top h with h | h | h
  · obtain ⟨n, hname, hequals, -⟩ := parses_assign.1 h
    cases F with
    | atom _ _ => exact absurd rfl (hne hequals.2).1
    | call _ hopen _ _ | index _ hopen _ _ => cases hequals.2.unique hopen
    | parens hopen _ _ => cases hname.next.2.unique hopen
  · obtain ⟨n, hname, hopen, args, _, hargs, -, rfl⟩ := parses_call.1 h
    obtain ⟨c, rfl, hinner, hclose⟩ := encloses_elements
      (fun _ hlt hx => encloses_level hL (Nat.le_of_lt hlt) hhi hx) hargs
    cases F with
    | atom _ _ => exact absurd rfl (hne hopen.2).2.1
    | call _ _ hinner' hclose' =>
      obtain rfl := hinner.closes_unique ⟨_, hclose.2, rfl⟩ hinner' ⟨_, hclose', rfl⟩
      exact Nat.le_refl _
    | index _ hopen' _ _ => cases hopen.2.unique hopen'
    | parens hopen' _ _ => cases hname.next.2.unique hopen'
  · obtain ⟨n, hname, hopen, position, c, hposition, hclose, hequals, -⟩ := parses_store.1 h
    have hinner := encloses_level hL hopen.1 hhi hposition
    cases F with
    | atom _ _ => exact absurd rfl (hne hopen.2).2.2
    | call _ hopen' _ _ => cases hopen.2.unique hopen'
    | index _ _ hinner' hclose' =>
      obtain rfl := hinner.closes_unique ⟨_, hclose.2, rfl⟩ hinner' ⟨_, hclose', rfl⟩
      exact absurd rfl (hne hequals.2).1
    | parens hopen' _ _ => cases hname.next.2.unique hopen'

/-- Where no rule for an operator reads, arithmetic is parentheses only. -/
theorem parens_of_math (F : L.Framed lo x k)
    (hops : ∀ op ∈ [BinOp.range, .sub, .add, .mul, .div], (binary L op).Fails L lo hi)
    (h : (math L).Parses L lo hi e j) : (Grammar.parens L).Parses L lo hi e j := by
  rcases math_cases h with h | h | ⟨op, hop, h⟩ | h
  · exact absurd h (fails_iff.1 F.sign_fails.1 e j)
  · exact absurd h (fails_iff.1 F.sign_fails.2 e j)
  · exact absurd h (fails_iff.1 (hops op hop) e j)
  · exact h

/-- The operators of arithmetic are tried before the others. -/
theorem ranking_cases {op : BinOp} {before after : List BinOp}
    (h : BinOp.ranking = before ++ op :: after) :
    (∃ after', [BinOp.range, .sub, .add, .mul, .div] = before ++ op :: after') ∨
      ∃ before', before = [BinOp.range, .sub, .add, .mul, .div] ++ before' ∧
        [BinOp.and, .or, .less, .greater] = before' ++ op :: after := by
  have hsplit : [BinOp.range, .sub, .add, .mul, .div] ++ [.and, .or, .less, .greater] =
      before ++ op :: after := h
  rcases List.append_eq_append_iff.1 hsplit with ⟨before', rfl, hrest⟩ | ⟨between, hmath, hrest⟩
  · exact .inr ⟨before', rfl, hrest⟩
  · cases between with
    | nil => exact .inr ⟨[], by simpa using hmath.symm, by simpa using hrest.symm⟩
    | cons op' between =>
      obtain ⟨rfl, -⟩ := List.cons.inj hrest
      exact .inl ⟨between, hmath⟩

/-- An expression that starts with an operand and reaches up to the end of the window is what the rule
of the first operator in the ranking reads that reads anything. -/
theorem parses_of_binary (hL : L.Sound) (hlt : k < hi) (hhi : hi ≤ L.lexemes.size)
    (F : L.Framed lo x k) {op next : BinOp} (hnext : L.At k next.token) {before after : List BinOp}
    (hranking : BinOp.ranking = before ++ op :: after)
    (hbefore : ∀ op' ∈ before, (binary L op').Fails L lo hi)
    (h : (binary L op).Parses L lo hi e hi) : (level .expr).Parses L lo hi e hi := by
  have hlo : lo ≤ hi := Nat.le_of_lt (Nat.lt_trans F.lt hlt)
  have hfirst : ∃ t, L.Next lo hi t := by
    obtain ⟨t, hat, -⟩ := F.first
    exact ⟨t, Nat.lt_trans F.lt hlt, hat⟩
  have htop : ∀ e' k', (level .top).Parses L lo hi e' k' → k' < hi := by
    intro e' k' hread
    exact Nat.lt_of_le_of_lt (F.top_le hL hhi hnext ((parses_level hL hlo hhi).1 hread)) hlt
  have hothers : ∀ {l : Level} {e' : Expr} {k' : Nat}, (level l).Parses L lo hi e' k' → k' ≤ hi :=
    fun hread => (bounds_level hL hlo hhi hread).2
  refine (parses_level hL hlo hhi).2 (parses_expr.2 ⟨hfirst, ?_⟩)
  rcases ranking_cases hranking with ⟨after', hmath⟩ | ⟨before', rfl, hcomparison⟩
  · have hread : (level .math).Parses L lo hi e hi := by
      refine (parses_level hL hlo hhi).2 (parses_math.2 ⟨hfirst,
        [neg L, not L] ++ before.map (binary L), binary L op,
        after'.map (binary L) ++ [Grammar.parens L], ?_, ?_, h⟩)
      · show [neg L, not L] ++ ([BinOp.range, .sub, .add, .mul, .div].map (binary L) ++
          [Grammar.parens L]) = _
        rw [hmath]
        simp
      · simpa [F.sign_fails] using hbefore
    refine ⟨[.top], .math, [.comparison, .short], rfl, hread, ?_, fun l' _ e' k' => hothers⟩
    simpa using htop
  · have hread : (level .comparison).Parses L lo hi e hi := by
      refine (parses_level hL hlo hhi).2 (parses_comparison.2 ⟨hfirst,
        before'.map (binary L), binary L op, after.map (binary L), ?_, ?_, h⟩)
      · show [BinOp.and, .or, .less, .greater].map (binary L) = _
        rw [hcomparison]
        simp
      · simpa using fun op' hop' => hbefore op' (List.mem_append_right _ hop')
    -- Without an operator of its own, arithmetic ends with the operand.
    have hmath : ∀ e' k', (level .math).Parses L lo hi e' k' → k' < hi := by
      intro e' k' hread
      have hparens := F.parens_of_math
        (fun op' hop' => hbefore op' (List.mem_append_left _ hop'))
        ((parses_level hL hlo hhi).1 hread)
      exact Nat.lt_of_le_of_lt (F.parens_le hL hhi hparens) hlt
    refine ⟨[.top, .math], .comparison, [.short], rfl, hread, ?_, fun l' _ e' k' => hothers⟩
    simpa using ⟨htop, hmath⟩

/-- Outside of parentheses, only an element may hold an operator. -/
theorem exists_clear (F : L.Framed lo x k) (hk : k ≤ L.lexemes.size) (op : BinOp)
    (hindex : ∀ {span base position}, x = .index span base position →
      ∃ ts, L.Spells lo k ts ∧ Token.Clear op.token ts) :
    ∃ ts, L.Spells lo k ts ∧ Token.Clear op.token ts := by
  cases F with
  | @atom _ t hat hatom =>
    have hne : t ≠ op.token := by
      rintro rfl
      cases op <;> cases hatom
    have hnesting : t.nesting = 0 := by
      cases t with
      | symbol p => cases hatom
      | _ => rfl
    exact ⟨_, hat.spells, .cons hnesting hne .nil⟩
  | @call _ name c hat hopen hinner hclose =>
    obtain ⟨ts, hspells, hnested⟩ := hinner.exists_nested (by omega)
    have hne : Token.ident name ≠ op.token := by
      cases op <;> simp [BinOp.token]
    exact ⟨_, hat.spells.join (hopen.spells.join (hspells.join hclose.spells)),
      .cons rfl hne (.parens hnested .nil)⟩
  | index _ _ _ _ => exact hindex rfl
  | parens hopen hinner hclose =>
    obtain ⟨ts, hspells, hnested⟩ := hinner.exists_nested (by omega)
    exact ⟨_, hopen.spells.join (hspells.join hclose.spells), .parens hnested .nil⟩

end Layout.Framed

/-! ## Where an operator is found -/

namespace Layout.Scans

variable {L : Layout} {lo p hi : Nat} {ts : List Token}

/-- Behind tokens that are clear of it an operator is found. -/
theorem find?_eq_some (hS : L.Scans) {op : BinOp} (h : L.Spells lo p ts)
    (hclear : Token.Clear op.token ts) (hat : L.At p op.token) (hp : p < hi)
    (hhi : hi ≤ L.lexemes.size) : L.find? op.token ⟨lo, hi⟩ = some p := by
  have hrest : L.Spells (p + 1) hi
      (((L.lexemes.toList.drop (p + 1)).take (hi - (p + 1))).map Lexeme.token) :=
    ⟨hp, hhi, rfl⟩
  have hhere : ∀ us, Search.findIn op.token 0 (op.token :: us) = some 0 := by
    intro us
    rw [Search.findIn, if_neg fun hclose => Search.ne_rparen_of_nesting op.nesting_token hclose.1,
      if_pos ⟨rfl, rfl⟩]
  rw [hS.find?_spells (h.join (hat.spells.join hrest)), Search.findIn_clear op.nesting_token hclear,
    List.singleton_append, hhere]
  simp only [Option.map_some, Nat.add_zero]
  rw [h.length_eq]

theorem find?_eq_none (hS : L.Scans) {op : BinOp} (h : L.Spells lo hi ts)
    (hclear : Token.Clear op.token ts) : L.find? op.token ⟨lo, hi⟩ = none := by
  have hpass := Search.findIn_clear op.nesting_token hclear []
  rw [List.append_nil] at hpass
  rw [hS.find?_spells h, hpass]
  rfl

end Layout.Scans

/-! ## Atoms -/

namespace Lexeme

variable {l : Lexeme} {e : Expr}

theorem isAtom_of_atom? (h : l.atom? = some e) : l.token.isAtom = true := by
  cases htoken : l.token <;> simp [atom?, literal?, htoken] at h <;> rfl

/-- The expression that a lexeme is has the token and the span of the lexeme. -/
theorem plain_of_atom? (h : l.atom? = some e) :
    e.Plain ∧ e.tokens = [l.token] ∧ e.span = l.span := by
  cases htoken : l.token <;> simp [atom?, literal?, htoken] at h <;> subst h <;>
    exact ⟨trivial, rfl, rfl⟩

/-- Up to its span, nothing else is the expression that a lexeme is. -/
theorem eq_of_atom? {e' : Expr} (h : l.atom? = some e) (hspanless : e'.spanless = e.spanless)
    (hspan : e'.span = l.span) : e' = e := by
  cases htoken : l.token <;> simp [atom?, literal?, htoken] at h <;> subst h <;>
    cases e' <;> simp_all [Expr.spanless, Expr.span]

end Lexeme

/-- A literal or a name is read as the expression that it is. -/
theorem Grammar.parses_atom {L : Layout} {lo : Nat} {l : Lexeme} {e : Expr} (hL : L.Sound)
    (hS : L.Scans) (hget : L.lexemes[lo]? = some l) (h : l.atom? = some e) :
    (Rule.level .expr).Parses L lo (lo + 1) e (lo + 1) := by
  have hspells := Layout.At.spells ⟨l, hget, rfl⟩
  obtain ⟨hplain, htokens, -⟩ := Lexeme.plain_of_atom? h
  obtain ⟨e', k, hread, hspanless, rfl⟩ := reads_expr hL hS hplain Token.stops_nil
    (by rwa [htokens, List.append_nil] : L.Spells lo (lo + 1) (e.tokens ++ []))
  rw [htokens, List.length_singleton] at hread
  have hspan : e'.span = l.span := by
    rw [span_level hL hspells.start hspells.stop hread, spanOf_succ hget]
  rwa [Lexeme.eq_of_atom? h hspanless hspan] at hread

theorem Expr.readFrom_atom {l : Lexeme} {e : Expr} (h : l.atom? = some e) : e.ReadFrom [l] := by
  apply (Production.read_expr_iff (Nat.zero_le _) (Nat.le_refl _)).2
  exact Grammar.parses_atom (Layout.sound_indexed _) (Layout.scans_indexed _) rfl h

end Scriptlet
