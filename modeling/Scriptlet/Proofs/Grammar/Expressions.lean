import Scriptlet.Proofs.Grammar.ReadBack

/-!
# Expressions are read back

The tokens of a printable expression, followed by nothing or by a token that no expression goes on
with, are read as that expression, wherever the window ends: `Grammar.reads_expr`.  The induction is on
the length of the window.  For every form one level reads the whole expression, and the other levels
fail or stop inside of it.
-/

namespace Scriptlet

open Token

namespace Grammar

open Rule

variable {L : Layout} {n lo hi : Nat} {e : Expr} {ts T : List Token}

/-! ## Parts that several levels read -/

theorem gets_element (ih : ReadsBelow L n) (hn : hi - lo ≤ n) {base : String} {position : Expr}
    (hposition : position.Plain)
    (h : L.Spells lo hi (.ident base :: .symbol .lbracket ::
      (position.tokens ++ .symbol .rbracket :: T))) :
    (element L).Gets L lo hi fun found k => found.1.text = base ∧
      found.2.1.spanless = position.spanless ∧ k = lo + position.tokens.length + 3 := by
  obtain ⟨hlt₁, -, hopen⟩ := h.cons
  obtain ⟨hlt₂, -, hinner⟩ := hopen.cons
  obtain ⟨-, hclose⟩ := hinner.append
  refine gets_bind gets_here ?_
  rintro _ _ ⟨rfl, rfl⟩
  refine gets_bind (gets_name h) ?_
  rintro base' _ ⟨hbase, rfl⟩
  refine gets_bind (gets_symbol hopen) ?_
  rintro _ _ rfl
  refine gets_bind (ih position _ _ _ hposition (by omega) (stops_cons rfl T) hinner) ?_
  rintro position' _ ⟨hposition', rfl⟩
  refine gets_bind (gets_symbol hclose) ?_
  rintro _ _ rfl
  refine gets_bind (gets_spanFrom _) ?_
  rintro span _ rfl
  exact gets_pure ⟨hbase, hposition', by omega⟩

theorem fails_element {text : String} (h : L.Spells lo hi (.ident text :: ts))
    (hopen : ts.head? ≠ some (.symbol .lbracket)) : (element L).Fails L lo hi := by
  refine fails_bind_right gets_here ?_
  rintro _ _ ⟨rfl, rfl⟩
  refine fails_bind_right (gets_name h) ?_
  rintro base _ ⟨-, rfl⟩
  exact fails_bind_left (fails_symbol h.cons.2.2 hopen)

theorem gets_call (ih : ReadsBelow L n) (hn : hi - lo ≤ n) {s : Span} {name : String}
    {args : List Expr} (hargs : ∀ e ∈ args, e.Plain)
    (h : L.Spells lo hi ((Expr.call s name args).tokens ++ T)) :
    Returns L (call L) (.call s name args) lo hi := by
  have htokens : (Expr.call s name args).tokens ++ T = .ident name :: .symbol .lparen ::
      (separate (.symbol .comma) (args.map Expr.tokens) ++ .symbol .rparen :: T) := by
    simp [Expr.tokens, tokensOfAll_eq]
  rw [htokens] at h
  obtain ⟨hlt, -, hopen⟩ := h.cons
  refine gets_bind gets_here ?_
  rintro _ lo ⟨rfl, rfl⟩
  refine gets_bind (gets_name h) ?_
  rintro n' _ ⟨hname, rfl⟩
  -- no argument starts like the end of the list
  have hfirst : ∀ e ∈ args, ∃ t ts, e.tokens = t :: ts ∧ t ≠ .symbol .rparen := by
    intro e he
    obtain ⟨t, ts, htokens, hstarts⟩ := (hargs e he).exists_first
    refine ⟨t, ts, htokens, ?_⟩
    rintro rfl
    cases hstarts
  -- behind an argument stands a comma or a parenthesis, and either one ends it
  have hargument : ∀ e ∈ args, ∀ k u us, lo + 1 < k →
      (u = .symbol .comma ∨ u = .symbol .rparen) → L.Spells k hi (e.tokens ++ u :: us) →
        Returns L (level .expr) e k hi := by
    intro e he k u us hk hu hspells
    have hstop : u.isStop = true := by
      rcases hu with rfl | rfl <;> rfl
    exact ih e k hi _ (hargs e he) (by omega) (stops_cons hstop us) hspells
  refine gets_bind (gets_sequence (by decide) args hfirst hargument hopen) ?_
  rintro args' _ ⟨hargs', rfl⟩
  refine gets_bind (gets_spanFrom _) ?_
  rintro span _ rfl
  refine gets_pure ⟨?_, ?_⟩
  · rw [Expr.spanless, Expr.spanless, Expr.spanlessAll_eq, Expr.spanlessAll_eq, hargs', hname]
  · simp only [Expr.tokens, tokensOfAll_eq, List.cons_append, List.length_cons, List.length_append,
      List.length_nil]
    omega

/-- A name is not the start of a call, an assignment or an element unless it goes on as such. -/
theorem fails_call {text : String} (h : L.Spells lo hi (.ident text :: ts))
    (hopen : ts.head? ≠ some (.symbol .lparen)) : (call L).Fails L lo hi := by
  refine fails_bind_right gets_here ?_
  rintro _ _ ⟨rfl, rfl⟩
  refine fails_bind_right (gets_name h) ?_
  rintro base _ ⟨-, rfl⟩
  exact fails_bind_left (fails_bind_left (fails_symbol h.cons.2.2 hopen))

theorem fails_assign {text : String} (h : L.Spells lo hi (.ident text :: ts))
    (hequals : ts.head? ≠ some (.symbol .equals)) : (assign L).Fails L lo hi := by
  refine fails_bind_right gets_here ?_
  rintro _ _ ⟨rfl, rfl⟩
  refine fails_bind_left (fails_bind_right (gets_name h) ?_)
  rintro base _ ⟨-, rfl⟩
  exact fails_bind_left (fails_symbol h.cons.2.2 hequals)

/-! ## Short expressions and statements on operands -/

/-- A token that is a literal is read as one. -/
theorem returns_short_literal (h : L.Spells lo hi (e.tokens ++ T))
    (he : (∃ s v, e = .int s v) ∨ (∃ s v, e = .bool s v) ∨ (∃ s v, e = .char s v) ∨
      ∃ s v, e = .str s v) : Returns L (short L) e lo hi := by
  rcases he with ⟨s, v, rfl⟩ | ⟨s, v, rfl⟩ | ⟨s, v, rfl⟩ | ⟨s, v, rfl⟩
  all_goals
    rw [Expr.tokens, List.singleton_append] at h
    refine gets_bind (gets_first h) ?_
    rintro l _ ⟨htoken, rfl⟩
    rw [htoken]
    refine gets_bind (gets_first h) ?_
    rintro l' _ ⟨htoken', rfl⟩
    rw [htoken']
    refine gets_bind (gets_advance h) ?_
    rintro _ _ rfl
    exact gets_pure ⟨rfl, rfl⟩

/-- A name alone is read as a variable, unless it is the start of an element. -/
theorem gets_short_name {text : String} (h : L.Spells lo hi (.ident text :: ts))
    (hopen : ts.head? ≠ some (.symbol .lbracket)) :
    (short L).Gets L lo hi fun e' k => e'.spanless = .var .zero text ∧ k = lo + 1 := by
  refine gets_bind (gets_first h) ?_
  rintro l _ ⟨htoken, rfl⟩
  rw [htoken]
  refine gets_orElse_right (fails_bind_left (fails_element h hopen)) ?_
  refine gets_bind (gets_name h) ?_
  rintro n' _ ⟨rfl, rfl⟩
  exact gets_pure ⟨rfl, rfl⟩

theorem returns_short_index (ih : ReadsBelow L n) (hn : hi - lo ≤ n) {s : Span} {base : Name}
    {position : Expr} (hposition : position.Plain)
    (h : L.Spells lo hi ((Expr.index s base position).tokens ++ T)) :
    Returns L (short L) (.index s base position) lo hi := by
  simp only [Expr.tokens, List.cons_append, List.append_assoc, List.nil_append] at h
  refine gets_bind (gets_first h) ?_
  rintro l _ ⟨htoken, rfl⟩
  rw [htoken]
  refine gets_orElse_left (gets_bind (gets_element ih hn hposition h) ?_)
  rintro ⟨base', position', span⟩ _ ⟨hbase, hposition', rfl⟩
  refine gets_pure ⟨?_, ?_⟩
  · simp only [Expr.spanless, Name.spanless] at hposition' ⊢
    rw [hposition', hbase]
  · simp only [Expr.tokens, List.cons_append, List.length_cons, List.length_append, List.length_nil]
    omega

theorem fails_short {p : Punct} (h : L.Spells lo hi (.symbol p :: ts)) :
    (short L).Fails L lo hi := by
  refine fails_bind_right (gets_first h) ?_
  rintro l _ ⟨htoken, rfl⟩
  rw [htoken]
  exact fails_fail _

/-- A statement or a call starts with a name or a reserved word. -/
theorem fails_top {t : Token} (h : L.Spells lo hi (t :: ts)) (hstarts : t.starts = true)
    (hident : ∀ text, t ≠ .ident text) : (top L).Fails L lo hi := by
  refine fails_bind_right (gets_first h) ?_
  rintro l _ ⟨rfl, rfl⟩
  split
  · exact absurd ‹_› (hident _)
  all_goals first
    | exact fails_fail _
    | rename_i htoken
      rw [htoken] at hstarts
      cases hstarts

/-- What `top` makes of a name. -/
theorem eval_top_ident {text : String} (h : L.Spells lo hi (.ident text :: ts)) :
    (top L).eval L ⟨lo, hi⟩ =
      (firstOf L .top [assign L, call L, store L]).eval L ⟨lo, hi⟩ := by
  obtain ⟨l, k, heval, htoken, rfl⟩ := gets_first h
  rw [top, eval_bind, heval]
  simp only [htoken]

theorem fails_top_var {text : String} (h : L.Spells lo hi (.ident text :: ts))
    (hts : Severs ts) : (top L).Fails L lo hi := by
  have hne : ∀ p, p = .equals ∨ p = .lparen ∨ p = .lbracket → ts.head? ≠ some (.symbol p) := by
    intro p hp hhead
    obtain ⟨hequals, hparen, hbracket⟩ := hts _ hhead
    rcases hp with rfl | rfl | rfl
    · exact hequals rfl
    · exact hparen rfl
    · exact hbracket rfl
  rw [Rule.Fails, eval_top_ident h]
  refine fails_firstOf h ?_
  intro r hr
  simp only [List.mem_cons, List.not_mem_nil, or_false] at hr
  rcases hr with rfl | rfl | rfl
  · exact fails_assign h (hne _ (.inl rfl))
  · exact fails_call h (hne _ (.inr (.inl rfl)))
  · refine fails_bind_right gets_here ?_
    rintro _ _ ⟨rfl, rfl⟩
    exact fails_bind_left (fails_element h (hne _ (.inr (.inr rfl))))

theorem fails_top_index (ih : ReadsBelow L n) (hn : hi - lo ≤ n) {s : Span} {base : Name}
    {position : Expr} (hposition : position.Plain) (hT : Severs T)
    (h : L.Spells lo hi ((Expr.index s base position).tokens ++ T)) :
    (top L).Fails L lo hi := by
  simp only [Expr.tokens, List.cons_append, List.append_assoc, List.nil_append] at h
  rw [Rule.Fails, eval_top_ident h]
  refine fails_firstOf h ?_
  intro r hr
  simp only [List.mem_cons, List.not_mem_nil, or_false] at hr
  rcases hr with rfl | rfl | rfl
  · exact fails_assign h (by simp)
  · exact fails_call h (by simp)
  · -- The element is there, but nothing is stored in it.
    obtain ⟨-, hclose⟩ := h.cons.2.2.cons.2.2.append
    have hend := hclose.cons.2.2
    refine fails_bind_right gets_here ?_
    rintro _ lo ⟨rfl, rfl⟩
    refine fails_bind_right (gets_element ih hn hposition h) ?_
    rintro ⟨base', position', span⟩ k ⟨-, -, hk⟩
    rw [show k = lo + 1 + 1 + position.tokens.length + 1 by omega]
    exact fails_bind_left (fails_symbol hend fun hhead => (hT _ hhead).1 rfl)

theorem returns_top_call (ih : ReadsBelow L n) (hn : hi - lo ≤ n) {s : Span} {name : String}
    {args : List Expr} (hargs : ∀ e ∈ args, e.Plain)
    (h : L.Spells lo hi ((Expr.call s name args).tokens ++ T)) :
    Returns L (top L) (.call s name args) lo hi := by
  have hcall := gets_call ih hn hargs h
  simp only [Expr.tokens, List.cons_append] at h
  rw [Returns, Rule.Gets, eval_top_ident h]
  refine gets_firstOf [assign L] h ?_ hcall
  intro r hr
  obtain rfl := List.mem_singleton.1 hr
  exact fails_assign h (by simp)

/-! ## Operators on operands -/

/-- The operators of arithmetic, in the order in which they are tried. -/
def mathOps : List BinOp := [.range, .sub, .add, .mul, .div]

/-- The operators of comparison, in the order in which they are tried. -/
def comparisonOps : List BinOp := [.and, .or, .less, .greater]

theorem notMem_mathOps {op : BinOp} (h : op ∈ comparisonOps) : op ∉ mathOps := by
  revert h
  cases op <;> decide

theorem math_eq : math L =
    firstOf L .math ([neg L, not L] ++ mathOps.map (binary L) ++ [parens L]) := rfl

theorem comparison_eq : comparison L =
    firstOf L .comparison (comparisonOps.map (binary L)) := rfl

theorem fails_comparison (hS : L.Scans) (ih : ReadsBelow L n) (hn : hi - lo ≤ n) (he : e.Plain)
    (hclear : ∀ op ∈ comparisonOps, Clear op.token e.tokens) (hT : Stops T)
    (h : L.Spells lo hi (e.tokens ++ T)) : (comparison L).Fails L lo hi := by
  rw [comparison_eq]
  refine fails_firstOf h ?_
  intro r hr
  obtain ⟨op, hop, rfl⟩ := List.mem_map.1 hr
  exact fails_binary hS ih hn he (hclear op hop) hT h

/-- No sign and no operator of arithmetic. -/
theorem fails_signs_mathOps (hS : L.Scans) (ih : ReadsBelow L n) (hn : hi - lo ≤ n) (he : e.Plain)
    (hminus : e.tokens.head? ≠ some (.symbol .minus))
    (hbang : e.tokens.head? ≠ some (.symbol .bang))
    (hT : Stops T) (h : L.Spells lo hi (e.tokens ++ T)) {ops : List BinOp}
    (hclear : ∀ op ∈ ops, Clear op.token e.tokens) :
    ∀ r ∈ [neg L, not L] ++ ops.map (binary L), r.Fails L lo hi := by
  obtain ⟨t, us, hfirst, -⟩ := he.exists_first
  have hhead : (e.tokens ++ T).head? = e.tokens.head? := by rw [hfirst]; rfl
  obtain ⟨hneg, hnot⟩ := fails_sign h (by rwa [hhead]) (by rwa [hhead])
  intro r hr
  rcases List.mem_append.1 hr with hr | hr
  · simp only [List.mem_cons, List.not_mem_nil, or_false] at hr
    rcases hr with rfl | rfl
    · exact hneg
    · exact hnot
  · obtain ⟨op, hop, rfl⟩ := List.mem_map.1 hr
    exact fails_binary hS ih hn he (hclear op hop) hT h

/-- A binary operation is clear of all other operators. -/
theorem clear_binary {s : Span} {op op' : BinOp} {l r : Expr}
    (he : (Expr.binary s op l r).Plain) (hne : op' ≠ op) :
    Clear op'.token (Expr.binary s op l r).tokens := by
  obtain ⟨⟨hlop, hl⟩, hrop, hr⟩ := he
  exact (hl.clear hlop op').append
    (.cons op.nesting_token (fun heq => hne (BinOp.token_inj heq).symm) (hr.clear hrop op'))

/-! ## Levels on operands -/

section Levels

variable (hL : L.Sound) (hS : L.Scans) (ih : ReadsBelow L n) (hn : hi - lo ≤ n)

include hL ih hn in
/-- Neither statements nor short expressions reach behind an operand. -/
theorem endsBefore_operand (he : e.Plain) (hop : e.isOperand = true) (hT : Severs T)
    (h : L.Spells lo hi (e.tokens ++ T)) {m : Nat} (hm : lo + e.tokens.length < m) :
    EndsBefore L .top lo hi m ∧ EndsBefore L .short lo hi m := by
  have hshort : Returns L (short L) e lo hi → EndsBefore L .short lo hi m := by
    intro hread
    refine .inr (gets_level hL h (hread.imp ?_))
    rintro _ _ ⟨-, rfl⟩
    exact hm
  cases e with
  | int s v | bool s v | char s v | str s v =>
    refine ⟨.inl (fails_level hL h (fails_top h rfl fun _ => by simp)), hshort ?_⟩
    exact returns_short_literal h (by simp)
  | var s text =>
    refine ⟨.inl (fails_level hL h (fails_top_var h hT)), hshort ?_⟩
    exact gets_short_name h fun hhead => (hT _ hhead).2.2 rfl
  | index s base position =>
    refine ⟨.inl (fails_level hL h (fails_top_index ih hn he.2 hT h)), hshort ?_⟩
    exact returns_short_index ih hn he.2 h
  | call s name args =>
    have hargs := (Expr.plainAll_iff args).1 he
    have hlen : 1 ≤ (Expr.call s name args).tokens.length := by simp [Expr.tokens]
    refine ⟨.inr (gets_level hL h ((returns_top_call ih hn hargs h).imp ?_)),
      .inr (gets_level hL h ((gets_short_name h (by simp)).imp ?_))⟩
    · rintro _ _ ⟨-, rfl⟩
      exact hm
    · rintro _ _ ⟨-, rfl⟩
      omega
  | parens s inner =>
    exact ⟨.inl (fails_level hL h (fails_top h rfl fun _ => by simp)),
      .inl (fails_level hL h (fails_short h))⟩
  | _ => cases hop

include hL hS ih hn in
/-- No comparison reads an expression without comparisons. -/
theorem endsBefore_comparison (he : e.Plain)
    (hclear : ∀ op ∈ comparisonOps, Clear op.token e.tokens) (hT : Stops T)
    (h : L.Spells lo hi (e.tokens ++ T)) (m : Nat) : EndsBefore L .comparison lo hi m :=
  .inl (fails_level hL h (fails_comparison hS ih hn he hclear hT h))

include hL hS ih hn in
/-- Arithmetic reads no operand but one in parentheses. -/
theorem endsBefore_math (he : e.Plain) (hop : e.isOperand = true)
    (hopen : e.tokens.head? ≠ some (.symbol .lparen)) (hT : Stops T)
    (h : L.Spells lo hi (e.tokens ++ T)) (m : Nat) : EndsBefore L .math lo hi m := by
  obtain ⟨t, us, hfirst, hminus, hbang⟩ := Expr.Plain.exists_first_operand hop
  refine .inl (fails_level hL h ?_)
  rw [ofLevel, math_eq]
  refine fails_firstOf h ?_
  intro r hr
  rcases List.mem_append.1 hr with hr | hr
  · exact fails_signs_mathOps hS ih hn he (by simpa [hfirst] using hminus)
      (by simpa [hfirst] using hbang) hT h (fun op _ => he.clear hop op) r hr
  · obtain rfl := List.mem_singleton.1 hr
    exact fails_parens h (by simpa [hfirst] using hopen)

include hL hS ih hn in
/-- An operand is read back by the one level that it belongs to. -/
theorem reads_operand (he : e.Plain) (hop : e.isOperand = true) (hT : Stops T)
    (h : L.Spells lo hi (e.tokens ++ T)) : Returns L (level .expr) e lo hi := by
  obtain ⟨t, us, hfirst, hminus, hbang⟩ := Expr.Plain.exists_first_operand hop
  have hcons : e.tokens ++ T = t :: (us ++ T) := by rw [hfirst, List.cons_append]
  have hcomparison := endsBefore_comparison hL hS ih hn he (fun op _ => he.clear hop op) hT h
    (lo + e.tokens.length)
  have hmath : e.tokens.head? ≠ some (.symbol .lparen) → EndsBefore L .math lo hi _ :=
    fun hopen => endsBefore_math hL hS ih hn he hop hopen hT h (lo + e.tokens.length)
  -- All operands but calls and parentheses are short expressions.
  have hshort : Returns L (short L) e lo hi → (top L).Fails L lo hi →
      e.tokens.head? ≠ some (.symbol .lparen) → Returns L (level .expr) e lo hi := by
    intro hread htop hopen
    refine reads_expr_of hL (by decide) (hcons ▸ h) (gets_level hL (l := .short) h hread) ?_
    intro l' hl' hne
    cases l' with
    | top => exact .inl (fails_level hL h htop)
    | math => exact hmath hopen
    | comparison => exact hcomparison
    | short => exact absurd rfl hne
    | expr => exact absurd rfl hl'
  cases e with
  | int s v | bool s v | char s v | str s v =>
    have hread := returns_short_literal h (by simp)
    exact hshort hread (fails_top h rfl fun _ => by simp) (by simp [Expr.tokens])
  | var s text =>
    have hread := gets_short_name h fun hhead => (hT.severs _ hhead).2.2 rfl
    exact hshort hread (fails_top_var h hT.severs) (by simp [Expr.tokens])
  | index s base position =>
    have hread := returns_short_index ih hn he.2 h
    exact hshort hread (fails_top_index ih hn he.2 hT.severs h) (by simp [Expr.tokens])
  | call s name args =>
    have hread := returns_top_call ih hn ((Expr.plainAll_iff args).1 he) h
    refine reads_expr_of hL (by decide) (hcons ▸ h) (gets_level hL (l := .top) h hread) ?_
    intro l' hl' hne
    cases l' with
    | top => exact absurd rfl hne
    | math => exact hmath (by simp [Expr.tokens])
    | comparison => exact hcomparison
    | short =>
      -- The name alone would be a variable, but the call reaches further.
      refine .inr (gets_level hL h ((gets_short_name h (by simp)).imp ?_))
      rintro _ _ ⟨-, rfl⟩
      simp [Expr.tokens]
    | expr => exact absurd rfl hl'
  | parens s inner =>
    have hread : Returns L (math L) (.parens s inner) lo hi := by
      rw [math_eq]
      exact gets_firstOf _ h (fails_signs_mathOps hS ih hn he (by simp [Expr.tokens])
        (by simp [Expr.tokens]) hT h fun op _ => he.clear hop op) (gets_parens hS ih hn he h)
    refine reads_expr_of hL (by decide) (hcons ▸ h) (gets_level hL (l := .math) h hread) ?_
    intro l' hl' hne
    cases l' with
    | top => exact .inl (fails_level hL h (fails_top h rfl fun _ => by simp))
    | math => exact absurd rfl hne
    | comparison => exact hcomparison
    | short => exact .inl (fails_level hL h (fails_short h))
    | expr => exact absurd rfl hl'
  | _ => cases hop

include hL hS ih hn in
/-- A negation is read back by arithmetic. -/
theorem reads_sign (he : e.Plain) (hop : e.isOperand = true) (hT : Stops T) {e₀ : Expr}
    {p : Punct} (hp : p = .minus ∨ p = .bang) (he₀ : e₀.Plain)
    (htokens : e₀.tokens = .symbol p :: e.tokens) (h : L.Spells lo hi (e₀.tokens ++ T))
    (hread : Returns L (level .expr) e (lo + 1) hi → Returns L (math L) e₀ lo hi) :
    Returns L (level .expr) e₀ lo hi := by
  -- Not so for all operators: the sign `-` is the operator of subtraction.
  have hclear : ∀ op ∈ comparisonOps, Clear op.token e₀.tokens := by
    intro op hmem
    rw [htokens]
    refine .cons ?_ ?_ (he.clear hop op)
    · rcases hp with rfl | rfl <;> rfl
    · simp only [comparisonOps, List.mem_cons, List.not_mem_nil, or_false] at hmem
      rcases hp with rfl | rfl <;> rcases hmem with rfl | rfl | rfl | rfl <;> decide
  have hcomparison := endsBefore_comparison hL hS ih hn he₀ hclear hT h (lo + e₀.tokens.length)
  rw [htokens, List.cons_append] at h
  obtain ⟨hlt, -, hrest⟩ := h.cons
  have hmath := hread (ih e _ _ T he (by omega) hT hrest)
  refine reads_expr_of hL (by decide) h (gets_level hL (l := .math) h hmath) ?_
  intro l' hl' hne
  cases l' with
  | top =>
    refine .inl (fails_level hL h (fails_top h ?_ fun _ => by simp))
    rcases hp with rfl | rfl <;> rfl
  | math => exact absurd rfl hne
  | comparison => exact hcomparison
  | short => exact .inl (fails_level hL h (fails_short h))
  | expr => exact absurd rfl hl'

/-- A sign and the operand that follows it. -/
theorem gets_sign {p : Punct} {make : Span → Expr → Expr} {e₀ : Expr}
    (htokens : e₀.tokens = .symbol p :: e.tokens)
    (hmake : ∀ span e', e'.spanless = e.spanless → (make span e').spanless = e₀.spanless)
    (h : L.Spells lo hi (e₀.tokens ++ T)) (hread : Returns L (level .expr) e (lo + 1) hi) :
    Returns L (do
      let start ← here
      let _ ← expect L (.symbol p)
      let e ← level .expr
      return make (← spanFrom L start) e) e₀ lo hi := by
  rw [htokens, List.cons_append] at h
  refine gets_bind gets_here ?_
  rintro _ _ ⟨rfl, rfl⟩
  refine gets_bind (gets_symbol h) ?_
  rintro _ _ rfl
  refine gets_bind hread ?_
  rintro e' _ ⟨he', rfl⟩
  refine gets_bind (gets_spanFrom _) ?_
  rintro span _ rfl
  refine gets_pure ⟨hmake span e' he', ?_⟩
  rw [htokens, List.length_cons]
  omega

/-- `-operand`. -/
theorem returns_neg {s : Span} (h : L.Spells lo hi ((Expr.neg s e).tokens ++ T))
    (hread : Returns L (level .expr) e (lo + 1) hi) : Returns L (math L) (.neg s e) lo hi := by
  have hsign : Returns L (neg L) (.neg s e) lo hi := by
    refine gets_sign (by rw [Expr.tokens]) ?_ h hread
    intro span e' he'
    rw [Expr.spanless, Expr.spanless, he']
  rw [Expr.tokens, List.cons_append] at h
  rw [math_eq]
  exact gets_firstOf [] h (by simp) hsign

/-- `!operand`. -/
theorem returns_not {s : Span} (h : L.Spells lo hi ((Expr.not s e).tokens ++ T))
    (hread : Returns L (level .expr) e (lo + 1) hi) : Returns L (math L) (.not s e) lo hi := by
  have hsign : Returns L (not L) (.not s e) lo hi := by
    refine gets_sign (by rw [Expr.tokens]) ?_ h hread
    intro span e' he'
    rw [Expr.spanless, Expr.spanless, he']
  rw [Expr.tokens, List.cons_append] at h
  rw [math_eq]
  refine gets_firstOf [neg L] h ?_ hsign
  intro r hr
  obtain rfl := List.mem_singleton.1 hr
  refine fails_bind_right gets_here ?_
  rintro _ _ ⟨rfl, rfl⟩
  exact fails_bind_left (fails_symbol h (by simp))

include hS ih hn in
/-- An operation starts with no sign, and is clear of operators other than its own. -/
theorem fails_signs_binary {s : Span} {op : BinOp} {l r : Expr}
    (he : (Expr.binary s op l r).Plain) (hT : Stops T)
    (h : L.Spells lo hi ((Expr.binary s op l r).tokens ++ T)) {ops : List BinOp}
    (hops : op ∉ ops) : ∀ r ∈ [neg L, not L] ++ ops.map (binary L), r.Fails L lo hi := by
  obtain ⟨t, us, hfirst, hminus, hbang⟩ := Expr.Plain.exists_first_operand he.1.1
  have hhead : (Expr.binary s op l r).tokens.head? = some t := by
    rw [Expr.tokens, hfirst]
    rfl
  exact fails_signs_mathOps hS ih hn he (by simpa [hhead] using hminus)
    (by simpa [hhead] using hbang) hT h fun op' hop' => clear_binary he fun heq => hops (heq ▸ hop')

include hS ih hn in
/-- The operator of an operation is tried after others that do not apply. -/
theorem returns_binary_math {s : Span} {op : BinOp} {l r : Expr}
    (he : (Expr.binary s op l r).Plain) (hop : op ∈ mathOps) (hT : Stops T)
    (h : L.Spells lo hi ((Expr.binary s op l r).tokens ++ T)) :
    Returns L (math L) (.binary s op l r) lo hi := by
  obtain ⟨t, us, hfirst, -⟩ := he.exists_first
  obtain ⟨before, after, hsplit, hnot⟩ := List.eq_append_cons_of_mem hop
  have hrules : [neg L, not L] ++ mathOps.map (binary L) ++ [parens L] =
      ([neg L, not L] ++ before.map (binary L)) ++
        binary L op :: (after.map (binary L) ++ [parens L]) := by
    simp [hsplit]
  rw [math_eq, hrules]
  have hcons : (Expr.binary s op l r).tokens ++ T = t :: (us ++ T) := by
    rw [hfirst, List.cons_append]
  exact gets_firstOf _ (hcons ▸ h) (fails_signs_binary hS ih hn he hT h hnot)
    (gets_binary hS ih hn he hT h)

include hS ih hn in
theorem returns_binary_comparison {s : Span} {op : BinOp} {l r : Expr}
    (he : (Expr.binary s op l r).Plain) (hop : op ∈ comparisonOps) (hT : Stops T)
    (h : L.Spells lo hi ((Expr.binary s op l r).tokens ++ T)) :
    Returns L (comparison L) (.binary s op l r) lo hi := by
  obtain ⟨t, us, hfirst, -⟩ := he.exists_first
  obtain ⟨before, after, hsplit, hnot⟩ := List.eq_append_cons_of_mem hop
  have hrules : comparisonOps.map (binary L) =
      before.map (binary L) ++ binary L op :: after.map (binary L) := by
    simp [hsplit]
  rw [comparison_eq, hrules]
  have hcons : (Expr.binary s op l r).tokens ++ T = t :: (us ++ T) := by
    rw [hfirst, List.cons_append]
  refine gets_firstOf _ (hcons ▸ h) ?_ (gets_binary hS ih hn he hT h)
  intro rule hrule
  obtain ⟨op', hop', rfl⟩ := List.mem_map.1 hrule
  exact fails_binary hS ih hn he (clear_binary he fun heq => hnot (heq ▸ hop')) hT h

include hL hS ih hn in
/-- Arithmetic stops inside of a comparison. -/
theorem endsBefore_math_comparison {s : Span} {op : BinOp} {l r : Expr}
    (he : (Expr.binary s op l r).Plain) (hop : op ∈ comparisonOps) (hT : Stops T)
    (h : L.Spells lo hi ((Expr.binary s op l r).tokens ++ T)) :
    EndsBefore L .math lo hi (lo + (Expr.binary s op l r).tokens.length) := by
  have hfails := fails_signs_binary hS ih hn he hT h (notMem_mathOps hop)
  have hleft := h
  rw [Expr.tokens, List.append_assoc] at hleft
  have hlen : l.tokens.length < (Expr.binary s op l r).tokens.length := by
    rw [Expr.tokens, List.length_append, List.length_cons]
    omega
  by_cases hopen : ∃ s' inner, l = .parens s' inner
  · -- The left operand alone is an expression in parentheses, and arithmetic stops behind it.
    obtain ⟨s', inner, rfl⟩ := hopen
    have hinner : inner.Plain := he.1.2
    refine .inr (gets_level hL h ?_)
    rw [ofLevel, math_eq]
    refine gets_firstOf _ hleft hfails ((gets_parens hS ih hn hinner hleft).imp ?_)
    rintro _ _ ⟨-, rfl⟩
    omega
  · refine .inl (fails_level hL h ?_)
    rw [ofLevel, math_eq]
    refine fails_firstOf h ?_
    intro rule hrule
    rcases List.mem_append.1 hrule with hrule | hrule
    · exact hfails rule hrule
    · obtain rfl := List.mem_singleton.1 hrule
      refine fails_parens h ?_
      have hop := he.1.1
      cases l with
      | parens s' inner => exact absurd ⟨s', inner, rfl⟩ hopen
      | int | bool | char | str | var | index | call => simp [Expr.tokens]
      | _ => cases hop

include hL hS ih hn in
theorem reads_binary {s : Span} {op : BinOp} {l r : Expr} (he : (Expr.binary s op l r).Plain)
    (hT : Stops T) (h : L.Spells lo hi ((Expr.binary s op l r).tokens ++ T)) :
    Returns L (level .expr) (.binary s op l r) lo hi := by
  obtain ⟨t, us, hfirst, -⟩ := he.exists_first
  have hcons : (Expr.binary s op l r).tokens ++ T = t :: (us ++ T) := by
    rw [hfirst, List.cons_append]
  have hleft := h
  rw [Expr.tokens, List.append_assoc, List.cons_append] at hleft
  have hlen : lo + l.tokens.length < lo + (Expr.binary s op l r).tokens.length := by
    rw [Expr.tokens, List.length_append, List.length_cons]
    omega
  -- Statements and short expressions see the left operand only.
  obtain ⟨htop, hshort⟩ := endsBefore_operand hL ih hn he.1.2 he.1.1 (severs_op op _) hleft hlen
  have hkind : op ∈ mathOps ∨ op ∈ comparisonOps := by
    cases op <;> decide
  rcases hkind with hop | hop
  · have hread := returns_binary_math hS ih hn he hop hT h
    refine reads_expr_of hL (by decide) (hcons ▸ h) (gets_level hL (l := .math) h hread) ?_
    intro l' hl' hne
    cases l' with
    | top => exact htop
    | math => exact absurd rfl hne
    | comparison =>
      refine endsBefore_comparison hL hS ih hn he (fun op' hop' => clear_binary he ?_) hT h _
      rintro rfl
      exact notMem_mathOps hop' hop
    | short => exact hshort
    | expr => exact absurd rfl hl'
  · have hread := returns_binary_comparison hS ih hn he hop hT h
    refine reads_expr_of hL (by decide) (hcons ▸ h) (gets_level hL (l := .comparison) h hread) ?_
    intro l' hl' hne
    cases l' with
    | top => exact htop
    | math => exact endsBefore_math_comparison hL hS ih hn he hop hT h
    | comparison => exact absurd rfl hne
    | short => exact hshort
    | expr => exact absurd rfl hl'

end Levels

/-! ## All expressions -/

/-- If shorter windows are read back, so are windows that are longer by one. -/
theorem ReadsBelow.succ (hL : L.Sound) (hS : L.Scans) (ih : ReadsBelow L n) :
    ReadsBelow L (n + 1) := by
  intro e lo hi T he hlt hT h
  have hn : hi - lo ≤ n := by omega
  cases e with
  | int | bool | char | str | var | index | call | parens =>
    exact reads_operand hL hS ih hn he rfl hT h
  | neg s e =>
    exact reads_sign hL hS ih hn he.2 he.1 hT (.inl rfl) he rfl h (returns_neg h)
  | not s e =>
    exact reads_sign hL hS ih hn he.2 he.1 hT (.inr rfl) he rfl h (returns_not h)
  | binary s op l r => exact reads_binary hL hS ih hn he hT h
  | _ => exact absurd he id

theorem readsBelow (hL : L.Sound) (hS : L.Scans) (n : Nat) : ReadsBelow L n := by
  induction n with
  | zero =>
    intro e lo hi T _ hlt
    omega
  | succ n ih => exact ih.succ hL hS

/-- A printable expression is read back, whatever follows the token that ends it. -/
theorem reads_expr (hL : L.Sound) (hS : L.Scans) (he : e.Plain) (hT : Stops T)
    (h : L.Spells lo hi (e.tokens ++ T)) : Returns L (level .expr) e lo hi :=
  readsBelow hL hS (hi - lo + 1) e lo hi T he (Nat.lt_succ_self _) hT h

end Grammar

end Scriptlet
