import Scriptlet.Proofs.Grammar.Expressions

/-!
# Statements are read back

A printable statement on a line of its own is read back, and so are the statements of a block.  Where
an expression may stand but none does, as behind a bare `return` or before the block of an `else`, the
attempt to read one fails: no expression starts with a token that only lays a program out.
-/

namespace Scriptlet

open Token

namespace Grammar

open Rule

variable {L : Layout} {lo hi : Nat} {t : Token} {ts T : List Token}

/-! ## Where no expression starts -/

theorem foldl_longer_none {levels : List Level} (h : ∀ l ∈ levels, (level l).Fails L lo hi) :
    levels.foldl (fun best l => longer best ((level l).eval L ⟨lo, hi⟩)) none = none := by
  induction levels with
  | nil => rfl
  | cons l levels ih =>
    obtain ⟨⟨e, he⟩, hrest⟩ := List.forall_mem_cons.1 h
    rw [List.foldl_cons, he, longer_error]
    exact ih hrest

/-- Where every other level fails, no expression is read. -/
theorem fails_expr_of (hL : L.Sound) (h : L.Spells lo hi (t :: ts))
    (hlevels : ∀ l, l ≠ .expr → (level l).Fails L lo hi) : (level .expr).Fails L lo hi := by
  refine fails_level hL h (fails_bind_right (gets_first h) ?_)
  rintro l lo ⟨-, rfl⟩
  have hnone := foldl_longer_none fun l' (hl' : l' ∈ [Level.top, .math, .comparison, .short]) =>
    hlevels l' (by rintro rfl; simp at hl')
  refine ⟨.wrongForm l .expr, ?_⟩
  show Query.eval _ (Query.bind _ _) = _
  rw [Query.eval_bind, eval_longest, hnone]
  rfl

/-- An operator behind a place where no expression starts has no left operand. -/
theorem fails_binary_of (hS : L.Scans) {op : BinOp} (h : L.Spells lo hi (t :: ts))
    (hne : op.token ≠ t) (hinner : ∀ p us, lo < p → p < hi → L.Spells lo p (t :: us) →
      (level .expr).Fails L lo p) : (binary L op).Fails L lo hi := by
  refine fails_binary_of_left hS h fun i hfound => ?_
  obtain ⟨hlt, hget⟩ := Search.findIn_getElem hfound
  obtain ⟨i, rfl⟩ : ∃ j, i = j + 1 := by
    cases i with
    | zero => exact absurd (Option.some.inj hget).symm hne
    | succ i => exact ⟨i, rfl⟩
  have hlen := h.length_eq
  have hleft := h.take (p := lo + (i + 1)) (by omega) (by omega)
  rw [Nat.add_sub_cancel_left, List.take_succ_cons] at hleft
  refine fails_bind_left (fails_exprIn ?_)
  exact hinner _ _ (by omega) (by omega) hleft

/-- No expression starts with a token that only lays a program out. -/
theorem fails_expr_layout (hL : L.Sound) (hS : L.Scans) (ht : t.isLayout = true)
    (h : L.Spells lo hi (t :: ts)) : (level .expr).Fails L lo hi := by
  -- Cutting at an operator leaves a shorter window with the same start.
  induction hlen : hi - lo using Nat.strongRecOn generalizing hi ts with
  | ind n ih =>
    -- No alternative of any level starts with such a token.
    have hop : ∀ op : BinOp, op.token ≠ t := by
      rintro op rfl
      cases op <;> cases ht
    have hbinary : ∀ op, (binary L op).Fails L lo hi := fun op =>
      fails_binary_of hS h (hop op) fun p us hlo hhi hspells => ih (p - lo) (by omega) hspells rfl
    have hhead : ∀ p, p ≠ .comma → p ≠ .lbrace → p ≠ .rbrace →
        (t :: ts).head? ≠ some (.symbol p) := by
      rintro p hcomma hopen hclose heq
      obtain rfl : t = .symbol p := Option.some.inj heq
      cases p <;> simp_all [isLayout]
    have hsign := fails_sign h (hhead .minus (by decide) (by decide) (by decide))
      (hhead .bang (by decide) (by decide) (by decide))
    refine fails_expr_of hL h ?_
    intro l hl
    refine fails_level hL h ?_
    cases l with
    | expr => exact absurd rfl hl
    | top =>
      refine fails_bind_right (gets_first h) ?_
      rintro l _ ⟨rfl, rfl⟩
      split <;> first | exact fails_fail _ | simp_all [isLayout]
    | math =>
      refine fails_firstOf h ?_
      intro r hr
      simp only [List.mem_cons, List.not_mem_nil, or_false] at hr
      rcases hr with rfl | rfl | rfl | rfl | rfl | rfl | rfl | rfl
      · exact hsign.1
      · exact hsign.2
      all_goals first
        | exact hbinary _
        | exact fails_parens h (hhead .lparen (by decide) (by decide) (by decide))
    | comparison =>
      refine fails_firstOf h ?_
      intro r hr
      obtain ⟨op, -, rfl⟩ := List.mem_map.1 (show r ∈ comparisonOps.map (binary L) from hr)
      exact hbinary op
    | short =>
      refine fails_bind_right (gets_first h) ?_
      rintro l _ ⟨rfl, rfl⟩
      split <;> first | exact fails_fail _ | simp_all [isLayout]

/-! ## Blocks -/

theorem newlineRun_eq {m : Nat} (h : L.Spells lo hi (List.replicate m .newline ++ ts))
    (hts : ts.head? ≠ some .newline) : L.newlineRun (hi - lo) lo = lo + m := by
  induction m generalizing lo with
  | zero =>
    rw [List.replicate_zero, List.nil_append] at h
    have hlen := h.length_eq
    cases ts with
    | nil =>
      have hempty : hi - lo = 0 := by
        rw [hlen, List.length_nil]
        omega
      rw [hempty]
      rfl
    | cons t ts =>
      obtain ⟨hlt, ⟨l, hget, rfl⟩, -⟩ := h.cons
      have hne : l.token ≠ .newline := by simpa using hts
      have hcount : hi - lo = hi - lo - 1 + 1 := by omega
      rw [hcount, Layout.newlineRun, hget]
      simp only [if_neg hne, Nat.add_zero]
  | succ m ih =>
    rw [List.replicate_succ, List.cons_append] at h
    obtain ⟨hlt, ⟨l, hget, hnewline⟩, hrest⟩ := h.cons
    have hcount : hi - lo = hi - (lo + 1) + 1 := by omega
    rw [hcount, Layout.newlineRun, hget]
    simp only [if_pos hnewline]
    rw [ih hrest]
    omega

theorem gets_skipNewlines (m : Nat) (h : L.Spells lo hi (List.replicate m .newline ++ ts))
    (hts : ts.head? ≠ some .newline) :
    (skipNewlines L).Gets L lo hi fun _ k => k = lo + m := by
  refine gets_bind gets_window ?_
  rintro _ lo ⟨rfl, rfl⟩
  refine (gets_jump _).imp ?_
  rintro _ _ rfl
  exact newlineRun_eq h hts

theorem exists_first_statement {e : Expr} (he : e.PlainStatement) :
    ∃ t ts, e.tokens = t :: ts ∧ t.isLayout = false := by
  cases e with
  | declare s mutable name value => cases mutable <;> exact ⟨_, _, rfl, rfl⟩
  | assign | call | store | branch | forIn | loop | returnUnit | returnValue =>
    exact ⟨_, _, rfl, rfl⟩
  | _ => exact absurd he id

/-- Printable statements, each of which is read back from a line of its own. -/
structure ReadsLines (L : Layout) (hi : Nat) (es : List Expr) : Prop where
  plain : ∀ e ∈ es, e.PlainStatement
  reads : ∀ e ∈ es, ∀ k us, L.Spells k hi (e.tokens ++ .newline :: us) →
    Returns L (level .top) e k hi

/-- Statements, each on a line of its own, up to the closing brace. -/
theorem gets_statements {es : List Expr} (hes : ReadsLines L hi es) {rounds : Nat}
    (hrounds : es.length < rounds)
    (h : L.Spells lo hi (.newline :: (es.flatMap (fun e => e.tokens ++ [.newline]) ++
      .symbol .rbrace :: T))) :
    (statements L rounds).Gets L lo hi fun es' k => es'.map Expr.spanless = es.map Expr.spanless ∧
      k = lo + (es.flatMap fun e => e.tokens ++ [.newline]).length + 2 := by
  induction es generalizing lo rounds with
  | nil =>
    obtain ⟨rounds, rfl⟩ : ∃ r, rounds = r + 1 := ⟨rounds - 1, by simp at hrounds; omega⟩
    rw [statements]
    refine gets_bind (gets_skipNewlines 1 h (by simp)) ?_
    rintro _ _ rfl
    refine gets_bind (gets_accept h.cons.2.2) ?_
    rintro _ _ ⟨rfl, rfl⟩
    exact gets_pure ⟨rfl, rfl⟩
  | cons e es ih =>
    obtain ⟨rounds, rfl⟩ : ∃ r, rounds = r + 1 := ⟨rounds - 1, by simp at hrounds; omega⟩
    obtain ⟨hplain, hplains⟩ := List.forall_mem_cons.1 hes.plain
    obtain ⟨hread, hreads⟩ := List.forall_mem_cons.1 hes.reads
    obtain ⟨t, ts, hcons, ht⟩ := exists_first_statement hplain
    have htokens : (e :: es).flatMap (fun e => e.tokens ++ [Token.newline]) ++
        Token.symbol .rbrace :: T = e.tokens ++ .newline ::
          (es.flatMap (fun e => e.tokens ++ [.newline]) ++ .symbol .rbrace :: T) := by
      simp
    rw [htokens] at h
    obtain ⟨-, -, hstatement⟩ := h.cons
    obtain ⟨-, hrest⟩ := hstatement.append
    have hstart := hstatement
    rw [hcons, List.cons_append] at hstart
    -- The first token of a statement is neither a line end nor the closing brace.
    have hnewline : t ≠ .newline := by
      rintro rfl
      cases ht
    have hbrace : t ≠ .symbol .rbrace := by
      rintro rfl
      cases ht
    rw [statements]
    refine gets_bind (gets_skipNewlines 1 h (by simpa [hcons] using hnewline)) ?_
    rintro _ _ rfl
    refine gets_bind (gets_accept_other hstart hbrace) ?_
    rintro _ _ ⟨rfl, rfl⟩
    rw [if_neg (by simp)]
    refine gets_bind (hread _ _ hstatement) ?_
    rintro e' _ ⟨he', rfl⟩
    refine gets_bind (ih ⟨hplains, hreads⟩ (by simpa using hrounds) hrest) ?_
    rintro es' _ ⟨hes', rfl⟩
    refine gets_pure ⟨congrArg₂ List.cons he' hes', ?_⟩
    rw [List.flatMap_cons, List.length_append, List.length_append, List.length_singleton]
    omega

/-- There are no more lines than tokens. -/
theorem length_le_lines {α : Type} (tokens : α → List Token) (xs : List α) :
    xs.length ≤ (xs.flatMap fun x => tokens x ++ [Token.newline]).length := by
  induction xs with
  | nil => exact Nat.le_refl _
  | cons x xs ih =>
    rw [List.flatMap_cons, List.length_append, List.length_append, List.length_cons,
      List.length_singleton]
    omega

theorem braced_eq (es : List Expr) : Expr.braced (Expr.tokensOfAll es) =
    .symbol .lbrace :: .newline :: (es.flatMap (fun e => e.tokens ++ [.newline]) ++
      [.symbol .rbrace]) := by
  rw [Expr.braced, tokensOfAll_eq, List.flatMap_map, List.cons_append, List.cons_append]

theorem gets_body {es : List Expr} (hes : ReadsLines L hi es)
    (h : L.Spells lo hi (Expr.braced (Expr.tokensOfAll es) ++ T)) :
    (body L).Gets L lo hi fun es' k => es'.map Expr.spanless = es.map Expr.spanless ∧
      k = lo + (Expr.braced (Expr.tokensOfAll es)).length := by
  rw [braced_eq] at h ⊢
  simp only [List.cons_append, List.append_assoc, List.nil_append] at h
  obtain ⟨-, -, hrest⟩ := h.cons
  have hlen := hrest.length_eq
  have hcount := length_le_lines Expr.tokens es
  rw [List.length_cons, List.length_append] at hlen
  refine gets_bind (gets_symbol h) ?_
  rintro _ _ rfl
  refine Gets.imp (gets_sized (gets_statements hes (by omega) hrest)) ?_
  rintro es' _ ⟨hes', rfl⟩
  refine ⟨hes', ?_⟩
  simp only [List.length_cons, List.length_append, List.length_nil]
  omega

/-! ## Statements -/

/-- The rule that a reserved word selects. -/
def controlRule (L : Layout) : Keyword → Option (Rule Expr)
  | .ifKw => some (branch L)
  | .forKw => some (forIn L)
  | .whileKw => some (loop L)
  | .returnKw => some (ret L)
  | _ => none

theorem gets_control (hL : L.Sound) {kw : Keyword} {r : Rule Expr} {P : Expr → Nat → Prop}
    (h : L.Spells lo hi (.keyword kw :: ts)) (hr : controlRule L kw = some r)
    (hread : r.Gets L lo hi P) : (level .top).Gets L lo hi P := by
  have hcontrol : (control L).Gets L lo hi P := by
    refine gets_bind (gets_first h) ?_
    rintro l _ ⟨htoken, rfl⟩
    cases kw <;> first | cases hr; done | (cases hr; simpa only [htoken])
  refine gets_level hL h (gets_bind (gets_first h) ?_)
  rintro l _ ⟨htoken, rfl⟩
  cases kw <;> first | (cases hr; done) | simpa only [htoken]

section Statements

variable (hL : L.Sound) (hS : L.Scans)

include hL hS in
theorem gets_assignment {name : String} {value : Expr} (hvalue : value.Plain) (hT : Stops T)
    (h : L.Spells lo hi (.ident name :: .symbol .equals :: (value.tokens ++ T))) :
    (assignment L).Gets L lo hi fun found k => found.1 = name ∧
      found.2.spanless = value.spanless ∧ k = lo + value.tokens.length + 2 := by
  refine gets_bind (gets_name h) ?_
  rintro n _ ⟨hname, rfl⟩
  obtain ⟨-, -, hequals⟩ := h.cons
  refine gets_bind (gets_symbol hequals) ?_
  rintro _ _ rfl
  refine gets_bind (reads_expr hL hS hvalue hT hequals.cons.2.2) ?_
  rintro value' _ ⟨hvalue', rfl⟩
  exact gets_pure ⟨hname, hvalue', by omega⟩

include hL hS in
/-- A condition or an iterable up to the closing parenthesis, and the block that it governs. -/
theorem gets_governed {α : Type} {e : Expr} {es : List Expr} {f : Expr → List Expr → Rule α}
    {P : α → Nat → Prop} (he : e.Plain) (hes : ReadsLines L hi es)
    (h : L.Spells lo hi (e.tokens ++ .symbol .rparen ::
      (Expr.braced (Expr.tokensOfAll es) ++ T)))
    (hf : ∀ e' es', e'.spanless = e.spanless → es'.map Expr.spanless = es.map Expr.spanless →
      (f e' es').Gets L
        (lo + e.tokens.length + 1 + (Expr.braced (Expr.tokensOfAll es)).length) hi P) :
    Rule.Gets L (do
      let e ← level .expr
      let _ ← expect L (.symbol .rparen)
      let es ← body L
      f e es) lo hi P := by
  refine gets_bind (reads_expr hL hS he (stops_cons rfl _) h) ?_
  rintro e' _ ⟨he', rfl⟩
  obtain ⟨-, hclose⟩ := h.append
  refine gets_bind (gets_symbol hclose) ?_
  rintro _ _ rfl
  refine gets_bind (gets_body hes hclose.cons.2.2) ?_
  rintro es' _ ⟨hes', rfl⟩
  exact hf e' es' he' hes'

/-- The word that a statement starts with, and the parenthesis that opens behind it. -/
theorem gets_headed {α : Type} {kw : Keyword} {f : Nat → Rule α} {P : α → Nat → Prop}
    (h : L.Spells lo hi (.keyword kw :: .symbol .lparen :: ts)) (hf : (f lo).Gets L (lo + 2) hi P) :
    Rule.Gets L (do
      let start ← here
      let _ ← expect L (.keyword kw)
      let _ ← expect L (.symbol .lparen)
      f start) lo hi P := by
  refine gets_bind gets_here ?_
  rintro _ lo ⟨rfl, rfl⟩
  refine gets_bind (gets_keyword h) ?_
  rintro _ _ rfl
  refine gets_bind (gets_symbol h.cons.2.2) ?_
  rintro _ _ rfl
  exact hf

include hL hS in
/-- The block of an `else` is no expression. -/
theorem gets_otherwise {es : List Expr} (hes : ReadsLines L hi es)
    (h : L.Spells lo hi (Expr.braced (Expr.tokensOfAll es) ++ T)) :
    (otherwise L).Gets L lo hi fun es' k => es'.map Expr.spanless = es.map Expr.spanless ∧
      k = lo + (Expr.braced (Expr.tokensOfAll es)).length := by
  have hbraced := h
  rw [braced_eq, List.cons_append] at hbraced
  have hnone := fails_expr_layout hL hS rfl hbraced
  exact gets_orElse_right (fails_bind_left hnone) (gets_body hes h)

include hL hS in
theorem returns_branch {s : Span} {cond : Expr} {thenBody elseBody : List Expr}
    (hcond : cond.Plain) (hthen : ReadsLines L hi thenBody) (helse : ReadsLines L hi elseBody)
    (h : L.Spells lo hi ((Expr.branch s cond thenBody elseBody).tokens ++ .newline :: T)) :
    Returns L (branch L) (.branch s cond thenBody elseBody) lo hi := by
  simp only [Expr.tokens, List.cons_append, List.append_assoc] at h
  have hopen := h.cons.2.2
  have hcondition := hopen.cons.2.2
  obtain ⟨-, hblock⟩ := hcondition.append
  obtain ⟨-, hrest⟩ := hblock.cons.2.2.append
  refine gets_headed h ?_
  refine gets_governed hL hS hcond hthen hcondition ?_
  intro cond' thenBody' hcond' hthen'
  -- An empty else branch is not written, so the line ends here.
  cases elseBody with
  | nil =>
    rw [Expr.tokensOfAll, Expr.elsePart, List.nil_append] at hrest
    refine gets_bind (gets_nextIs hrest) ?_
    rintro _ _ ⟨rfl, rfl⟩
    refine gets_bind (gets_spanFrom _) ?_
    rintro span _ rfl
    refine gets_pure ⟨?_, ?_⟩
    · simp only [Expr.spanless, Expr.spanlessAll_eq, hcond', hthen']
    · simp only [Expr.tokens, Expr.tokensOfAll, Expr.elsePart, List.cons_append, List.length_cons,
        List.length_append, List.length_nil]
      omega
  | cons e es =>
    have helsePart : Expr.elsePart (Expr.tokensOfAll (e :: es)) =
        .keyword .elseKw :: Expr.braced (Expr.tokensOfAll (e :: es)) := rfl
    rw [helsePart, List.cons_append] at hrest
    refine gets_bind (gets_nextIs hrest) ?_
    rintro _ _ ⟨rfl, rfl⟩
    refine gets_bind (gets_advance hrest) ?_
    rintro _ _ rfl
    refine gets_bind (gets_otherwise hL hS helse hrest.cons.2.2) ?_
    rintro elseBody' _ ⟨helse', rfl⟩
    refine gets_bind (gets_spanFrom _) ?_
    rintro span _ rfl
    refine gets_pure ⟨?_, ?_⟩
    · simp only [Expr.spanless, Expr.spanlessAll_eq, hcond', hthen', helse']
    · rw [Expr.tokens, helsePart]
      simp only [List.cons_append, List.length_cons, List.length_append]
      omega

include hL hS in
theorem returns_forIn {s : Span} {name : String} {iterable : Expr} {loopBody : List Expr}
    (hiterable : iterable.Plain) (hbody : ReadsLines L hi loopBody)
    (h : L.Spells lo hi ((Expr.forIn s name iterable loopBody).tokens ++ T)) :
    Returns L (forIn L) (.forIn s name iterable loopBody) lo hi := by
  simp only [Expr.tokens, List.cons_append, List.append_assoc] at h
  have hopen := h.cons.2.2
  have hname := hopen.cons.2.2
  have hin := hname.cons.2.2
  refine gets_headed h ?_
  refine gets_bind (gets_name hname) ?_
  rintro n _ ⟨hn, rfl⟩
  refine gets_bind (gets_keyword hin) ?_
  rintro _ _ rfl
  refine gets_governed hL hS hiterable hbody hin.cons.2.2 ?_
  intro iterable' loopBody' hiterable' hbody'
  refine gets_bind (gets_spanFrom _) ?_
  rintro span _ rfl
  refine gets_pure ⟨?_, ?_⟩
  · simp only [Expr.spanless, Expr.spanlessAll_eq, hiterable', hbody', hn]
  · simp only [Expr.tokens, List.cons_append, List.length_cons, List.length_append]
    omega

include hL hS in
theorem returns_loop {s : Span} {cond : Expr} {loopBody : List Expr}
    (hcond : cond.Plain) (hbody : ReadsLines L hi loopBody)
    (h : L.Spells lo hi ((Expr.loop s cond loopBody).tokens ++ T)) :
    Returns L (loop L) (.loop s cond loopBody) lo hi := by
  simp only [Expr.tokens, List.cons_append, List.append_assoc] at h
  have hopen := h.cons.2.2
  refine gets_headed h ?_
  refine gets_governed hL hS hcond hbody hopen.cons.2.2 ?_
  intro cond' loopBody' hcond' hbody'
  refine gets_bind (gets_spanFrom _) ?_
  rintro span _ rfl
  refine gets_pure ⟨?_, ?_⟩
  · simp only [Expr.spanless, Expr.spanlessAll_eq, hcond', hbody']
  · simp only [Expr.tokens, List.cons_append, List.length_cons, List.length_append]
    omega

include hL hS in
/-- A `return` at the end of a line has no value. -/
theorem returns_returnUnit {s : Span}
    (h : L.Spells lo hi ((Expr.returnUnit s).tokens ++ .newline :: T)) :
    Returns L (ret L) (.returnUnit s) lo hi := by
  rw [Expr.tokens, List.singleton_append] at h
  have hfails := fails_expr_layout hL hS rfl h.cons.2.2
  have hnone : (orElse (do return some (← level .expr)) (return none) :
      Rule (Option Expr)).Gets L (lo + 1) hi fun value? k => value? = none ∧ k = lo + 1 :=
    gets_orElse_right (fails_bind_left hfails) (gets_pure ⟨rfl, rfl⟩)
  refine gets_bind gets_here ?_
  rintro _ lo ⟨rfl, rfl⟩
  refine gets_bind (gets_keyword h) ?_
  rintro _ _ rfl
  refine gets_bind hnone ?_
  rintro _ _ ⟨rfl, rfl⟩
  refine gets_bind (gets_spanFrom _) ?_
  rintro span _ rfl
  exact gets_pure ⟨rfl, rfl⟩

include hL hS in
theorem returns_returnValue {s : Span} {value : Expr} (hvalue : value.Plain) (hT : Stops T)
    (h : L.Spells lo hi ((Expr.returnValue s value).tokens ++ T)) :
    Returns L (ret L) (.returnValue s value) lo hi := by
  rw [Expr.tokens, List.cons_append] at h
  have hread := reads_expr hL hS hvalue hT h.cons.2.2
  refine gets_bind gets_here ?_
  rintro _ lo ⟨rfl, rfl⟩
  refine gets_bind (gets_keyword h) ?_
  rintro _ _ rfl
  have hsome : (orElse (do return some (← level .expr)) (return none) :
      Rule (Option Expr)).Gets L (lo + 1) hi fun value? k =>
        value?.map Expr.spanless = some value.spanless ∧ k = lo + 1 + value.tokens.length := by
    refine gets_orElse_left (gets_bind hread ?_)
    rintro value' _ ⟨hvalue', rfl⟩
    exact gets_pure ⟨congrArg some hvalue', rfl⟩
  refine gets_bind hsome ?_
  rintro value? _ ⟨hvalue?, rfl⟩
  obtain ⟨value', rfl, hvalue'⟩ := Option.map_eq_some_iff.1 hvalue?
  refine gets_bind (gets_spanFrom _) ?_
  rintro span _ rfl
  refine gets_pure ⟨by rw [Expr.spanless, Expr.spanless, hvalue'], ?_⟩
  rw [Expr.tokens, List.length_cons]
  omega

include hL hS in
theorem returns_store {s target : Span} {base : Name} {position value : Expr}
    (hposition : position.Plain) (hvalue : value.Plain) (hT : Stops T)
    (h : L.Spells lo hi ((Expr.store s target base position value).tokens ++ T)) :
    Returns L (store L) (.store s target base position value) lo hi := by
  simp only [Expr.tokens, List.cons_append, List.append_assoc] at h
  obtain ⟨-, hclose⟩ := h.cons.2.2.cons.2.2.append
  have hequals := hclose.cons.2.2
  refine gets_bind gets_here ?_
  rintro _ lo ⟨rfl, rfl⟩
  refine gets_bind (gets_element (readsBelow hL hS _) (Nat.le_refl _) hposition h) ?_
  rintro ⟨base', position', target'⟩ k ⟨hbase, hposition', hk⟩
  rw [show k = lo + 1 + 1 + position.tokens.length + 1 by omega]
  refine gets_bind (gets_symbol hequals) ?_
  rintro _ _ rfl
  refine gets_bind (reads_expr hL hS hvalue hT hequals.cons.2.2) ?_
  rintro value' _ ⟨hvalue', rfl⟩
  refine gets_bind (gets_spanFrom _) ?_
  rintro span _ rfl
  refine gets_pure ⟨?_, ?_⟩
  · simp only [Expr.spanless, Name.spanless] at hposition' hbase ⊢
    rw [hposition', hbase, hvalue']
  · simp only [Expr.tokens, List.cons_append, List.length_cons, List.length_append]
    omega

include hL hS in
theorem returns_declare {s : Span} {mutable : Bool} {name : String} {value : Expr}
    (hvalue : value.Plain) (hT : Stops T)
    (h : L.Spells lo hi ((Expr.declare s mutable name value).tokens ++ T)) :
    Returns L (binding L) (.declare s mutable name value) lo hi := by
  have hdeclaration : Returns L (binding.declaration L lo mutable)
      (.declare s mutable name value) lo hi := by
    refine gets_bind (gets_advance h) ?_
    rintro _ _ rfl
    refine gets_bind (gets_assignment hL hS hvalue hT h.cons.2.2) ?_
    rintro ⟨name', value'⟩ _ ⟨hname, hvalue', rfl⟩
    refine gets_bind (gets_spanFrom _) ?_
    rintro span _ rfl
    refine gets_pure ⟨?_, ?_⟩
    · simp only at hname hvalue'
      rw [Expr.spanless, Expr.spanless, hname, hvalue']
    · rw [Expr.tokens, List.length_cons, List.length_cons, List.length_cons]
      omega
  refine gets_bind gets_here ?_
  rintro _ _ ⟨rfl, rfl⟩
  refine gets_bind (gets_first h) ?_
  rintro l _ ⟨htoken, rfl⟩
  cases mutable <;> simpa only [htoken, if_true, Bool.false_eq_true, if_false]

include hL hS in
theorem returns_assign {s : Span} {name : String} {value : Expr} (hvalue : value.Plain)
    (hT : Stops T) (h : L.Spells lo hi ((Expr.assign s name value).tokens ++ T)) :
    Returns L (assign L) (.assign s name value) lo hi := by
  refine gets_bind gets_here ?_
  rintro _ _ ⟨rfl, rfl⟩
  refine gets_bind (gets_assignment hL hS hvalue hT h) ?_
  rintro ⟨name', value'⟩ _ ⟨hname, hvalue', rfl⟩
  refine gets_bind (gets_spanFrom _) ?_
  rintro span _ rfl
  refine gets_pure ⟨?_, ?_⟩
  · simp only at hname hvalue'
    rw [Expr.spanless, Expr.spanless, hname, hvalue']
  · rw [Expr.tokens, List.length_cons, List.length_cons]
    omega

include hL hS in
/-- A printable statement on a line of its own is read back. -/
theorem reads_statement {e : Expr} (he : e.PlainStatement)
    (h : L.Spells lo hi (e.tokens ++ .newline :: T)) : Returns L (level .top) e lo hi := by
  have hstops : Stops (.newline :: T) := stops_cons rfl T
  induction e using Expr.induction generalizing lo T with
  | declare s mutable name value _ =>
    have hread := returns_declare hL hS he hstops h
    refine gets_level hL h (gets_bind (gets_first h) ?_)
    rintro l lo ⟨htoken, rfl⟩
    cases mutable <;> simpa only [htoken, if_true, Bool.false_eq_true, if_false]
  | assign s name value _ =>
    refine gets_level hL h ?_
    rw [ofLevel, Rule.Gets, eval_top_ident h]
    exact gets_firstOf [] h (by simp) (returns_assign hL hS he hstops h)
  | call s name args _ =>
    exact gets_level hL h (returns_top_call (readsBelow hL hS _) (Nat.le_refl _)
      ((Expr.plainAll_iff args).1 he) h)
  | store s target base position value _ _ =>
    have hread := returns_store hL hS he.1.2 he.2 hstops h
    simp only [Expr.tokens, List.cons_append] at h
    refine gets_level hL h ?_
    rw [ofLevel, Rule.Gets, eval_top_ident h]
    -- A bracket follows the name, so it is neither assigned to nor called.
    refine gets_firstOf [assign L, call L] h ?_ hread
    intro r hr
    simp only [List.mem_cons, List.not_mem_nil, or_false] at hr
    rcases hr with rfl | rfl
    · exact fails_assign h (by simp)
    · exact fails_call h (by simp)
  | branch s cond body otherwise _ ihb iho =>
    have hbody := (Expr.plainStatements_iff body).1 he.2.1
    have hotherwise := (Expr.plainStatements_iff otherwise).1 he.2.2
    refine gets_control hL h rfl (returns_branch hL hS he.1 ⟨hbody, ?_⟩ ⟨hotherwise, ?_⟩ h)
    · exact fun e' he' k us hspells =>
        ihb e' he' (hbody e' he') hspells (stops_cons rfl us)
    · exact fun e' he' k us hspells =>
        iho e' he' (hotherwise e' he') hspells (stops_cons rfl us)
  | forIn s name iterable body _ ihb =>
    have hbody := (Expr.plainStatements_iff body).1 he.2
    refine gets_control hL h rfl (returns_forIn hL hS he.1 ⟨hbody, ?_⟩ h)
    exact fun e' he' k us hspells => ihb e' he' (hbody e' he') hspells (stops_cons rfl us)
  | loop s cond body _ ihb =>
    have hbody := (Expr.plainStatements_iff body).1 he.2
    refine gets_control hL h rfl (returns_loop hL hS he.1 ⟨hbody, ?_⟩ h)
    exact fun e' he' k us hspells => ihb e' he' (hbody e' he') hspells (stops_cons rfl us)
  | returnUnit s => exact gets_control hL h rfl (returns_returnUnit hL hS h)
  | returnValue s value _ => exact gets_control hL h rfl (returns_returnValue hL hS he hstops h)
  | _ => exact absurd he id

include hL hS in
theorem readsLines {es : List Expr} (hes : ∀ e ∈ es, e.PlainStatement) : ReadsLines L hi es :=
  ⟨hes, fun e he _ _ h => reads_statement hL hS (hes e he) h⟩

end Statements

end Grammar

end Scriptlet
