import Scriptlet.Proofs.Grammar.Accounts
import Scriptlet.Proofs.Grammar.Statements
import Scriptlet.Proofs.Token.Reading

/-!
# Programs are read back

Types, functions and whole programs are read back from their tokens.  With the tokens of a written text
known, `Program.ofSource_print` says that reading undoes printing, up to spans, and
`Program.ofSource_accounts` that a program which was read has the tokens of its source.
-/

namespace Scriptlet

open Token

namespace Grammar

open Rule

variable {L : Layout} {lo hi : Nat} {ts T : List Token}

/-! ## Types -/

theorem exists_first_type (t : TypeRef) : ∃ text ts, t.tokens = .ident text :: ts := by
  cases t <;> exact ⟨_, _, rfl⟩

theorem length_le_separate_of_mem {lists : List (List Token)} (h : ts ∈ lists) :
    ts.length ≤ (separate (.symbol .comma) lists).length := by
  induction lists with
  | nil => cases h
  | cons us lists ih =>
    cases lists with
    | nil =>
      obtain rfl := List.mem_singleton.1 h
      exact Nat.le_refl _
    | cons vs lists =>
      rw [separate_cons_cons, List.length_append, List.length_cons]
      rcases List.mem_cons.1 h with rfl | h
      · omega
      · have hlen := ih h
        omega

/-- A type is read back if nothing behind it looks like its arguments. -/
theorem gets_typeWithin (t : TypeRef) {depth : Nat} (hdepth : t.tokens.length ≤ depth)
    (hT : T.head? ≠ some (.symbol .less)) (h : L.Spells lo hi (t.tokens ++ T)) :
    (typeWithin L depth).Gets L lo hi fun t' k =>
      t'.spanless = t.spanless ∧ k = lo + t.tokens.length := by
  induction depth generalizing t lo T with
  | zero =>
    obtain ⟨text, ts, hcons⟩ := exists_first_type t
    rw [hcons] at hdepth
    cases hdepth
  | succ depth ih =>
    rw [typeWithin]
    refine gets_bind gets_here ?_
    rintro _ lo ⟨rfl, rfl⟩
    -- Whether `<` follows the name decides between the two forms.
    cases t with
    | simple s name =>
      rw [TypeRef.tokens, List.singleton_append] at h
      refine gets_bind (gets_name h) ?_
      rintro n _ ⟨hname, rfl⟩
      have hnext : (T.head?.map (Expected.symbol .less).accepts).getD false = false := by
        cases T with
        | nil => rfl
        | cons u T =>
          refine Bool.eq_false_iff.2 fun haccepts => hT ?_
          exact congrArg some (eq_of_accepts_symbol haccepts)
      refine gets_bind (gets_nextIs h.cons.2.2) ?_
      rintro _ _ ⟨rfl, rfl⟩
      rw [hnext, if_neg (by simp)]
      exact gets_pure ⟨by rw [TypeRef.spanless, TypeRef.spanless, hname], rfl⟩
    | generic s name args =>
      simp only [TypeRef.tokens, typeTokensOfAll_eq, List.cons_append, List.append_assoc,
        List.nil_append, List.length_cons, List.length_append, List.length_nil] at h hdepth
      refine gets_bind (gets_name h) ?_
      rintro n _ ⟨hname, rfl⟩
      have hless := h.cons.2.2
      refine gets_bind (gets_nextIs hless) ?_
      rintro _ _ ⟨rfl, rfl⟩
      have hfirst : ∀ t ∈ args, ∃ u us, t.tokens = u :: us ∧ u ≠ .symbol .greater := by
        intro t _
        obtain ⟨text, us, hcons⟩ := exists_first_type t
        exact ⟨_, us, hcons, by simp⟩
      have hargument : ∀ t ∈ args, ∀ k u us, lo + 1 < k →
          (u = .symbol .comma ∨ u = .symbol .greater) → L.Spells k hi (t.tokens ++ u :: us) →
            (typeWithin L depth).Gets L k hi fun t' k' =>
              t'.spanless = t.spanless ∧ k' = k + t.tokens.length := by
        intro t ht k u us _ hu hspells
        -- An argument has fewer tokens than the type, so the depth is enough for it.
        have hlen := length_le_separate_of_mem (List.mem_map_of_mem (f := TypeRef.tokens) ht)
        refine ih t (by omega) ?_ hspells
        rcases hu with rfl | rfl <;> simp
      refine gets_bind (gets_sequence (by decide) args hfirst hargument hless) ?_
      rintro args' _ ⟨hargs, rfl⟩
      refine gets_bind (gets_spanFrom _) ?_
      rintro span _ rfl
      refine gets_pure ⟨?_, ?_⟩
      · rw [TypeRef.spanless, TypeRef.spanless, TypeRef.spanlessAll_eq, TypeRef.spanlessAll_eq, hargs,
          hname]
      · simp only [TypeRef.tokens, typeTokensOfAll_eq, List.cons_append, List.length_cons,
          List.length_append, List.length_nil]
        omega

theorem gets_type (t : TypeRef) (hT : T.head? ≠ some (.symbol .less))
    (h : L.Spells lo hi (t.tokens ++ T)) :
    (type L).Gets L lo hi fun t' k => t'.spanless = t.spanless ∧ k = lo + t.tokens.length := by
  have hlen := h.length_eq
  rw [List.length_append] at hlen
  exact gets_sized (gets_typeWithin t (by omega) hT h)

/-! ## Functions -/

theorem gets_param (p : Param) (hT : T.head? ≠ some (.symbol .less))
    (h : L.Spells lo hi (p.tokens ++ T)) :
    (param L).Gets L lo hi fun p' k => p'.spanless = p.spanless ∧ k = lo + p.tokens.length := by
  rw [Param.tokens, List.cons_append, List.cons_append] at h
  refine gets_bind gets_here ?_
  rintro _ _ ⟨rfl, rfl⟩
  refine gets_bind (gets_name h) ?_
  rintro n _ ⟨hname, rfl⟩
  refine gets_bind (gets_symbol h.cons.2.2) ?_
  rintro _ _ rfl
  refine gets_bind (gets_type p.type hT h.cons.2.2.cons.2.2) ?_
  rintro t' _ ⟨ht', rfl⟩
  refine gets_bind (gets_spanFrom _) ?_
  rintro span _ rfl
  refine gets_pure ⟨by simp only [Param.spanless, hname, ht'], ?_⟩
  rw [Param.tokens, List.length_cons, List.length_cons]
  omega

theorem gets_resultType (t? : Option TypeRef)
    (h : L.Spells lo hi (TypeRef.resultTokens t? ++ .symbol .lbrace :: T)) :
    (resultType L).Gets L lo hi fun t?' k =>
      t?'.map TypeRef.spanless = t?.map TypeRef.spanless ∧
        k = lo + (TypeRef.resultTokens t?).length := by
  refine gets_bind (gets_nextIs h) ?_
  rintro _ _ ⟨rfl, rfl⟩
  cases t? with
  | none => exact gets_pure ⟨rfl, rfl⟩
  | some t =>
    rw [TypeRef.resultTokens, List.cons_append] at h
    refine gets_bind (gets_advance h) ?_
    rintro _ _ rfl
    refine gets_bind (gets_type t (by simp) h.cons.2.2) ?_
    rintro t' _ ⟨ht', rfl⟩
    refine gets_pure ⟨congrArg some ht', ?_⟩
    rw [TypeRef.resultTokens, List.length_cons]
    omega

theorem gets_function (hL : L.Sound) (hS : L.Scans) (f : Fun)
    (hf : ∀ e ∈ f.body, e.PlainStatement) (h : L.Spells lo hi (f.tokens ++ T)) :
    (function L).Gets L lo hi fun f' k => f'.spanless = f.spanless ∧ k = lo + f.tokens.length := by
  simp only [Fun.tokens, List.cons_append, List.append_assoc] at h
  have hname := h.cons.2.2
  have hparams := hname.cons.2.2
  obtain ⟨-, hclose⟩ := hparams.cons.2.2.append
  have hresult := hclose.cons.2.2
  obtain ⟨-, hbody⟩ := hresult.append
  refine gets_bind gets_here ?_
  rintro _ lo ⟨rfl, rfl⟩
  refine gets_bind (gets_keyword h) ?_
  rintro _ _ rfl
  refine gets_bind (gets_name hname) ?_
  rintro n _ ⟨hn, rfl⟩
  have hfirst : ∀ p ∈ f.params, ∃ t ts, p.tokens = t :: ts ∧ t ≠ .symbol .rparen :=
    fun p _ => ⟨_, _, rfl, by simp⟩
  have hparam : ∀ p ∈ f.params, ∀ k u us, lo + 1 + 1 < k →
      (u = .symbol .comma ∨ u = .symbol .rparen) → L.Spells k hi (p.tokens ++ u :: us) →
        (param L).Gets L k hi fun p' k' =>
          p'.spanless = p.spanless ∧ k' = k + p.tokens.length := by
    intro p _ k u us _ hu hspells
    refine gets_param p ?_ hspells
    rcases hu with rfl | rfl <;> simp
  refine gets_bind (gets_sequence (by decide) f.params hfirst hparam hparams) ?_
  rintro params' k ⟨hparams', hk⟩
  have hk' : k = lo + 1 + 1 + 1 +
      (separate (.symbol .comma) (f.params.map Param.tokens)).length + 1 := by omega
  subst hk'
  -- What follows a result type is a brace, which no type goes on with.
  rw [braced_eq, List.cons_append] at hresult
  refine gets_bind (gets_resultType f.result hresult) ?_
  rintro result' _ ⟨hresult', rfl⟩
  refine gets_bind (gets_body (readsLines hL hS hf) hbody) ?_
  rintro body' _ ⟨hbody', rfl⟩
  refine gets_bind (gets_spanFrom _) ?_
  rintro span _ rfl
  refine gets_pure ⟨?_, ?_⟩
  · simp only [Fun.spanless, Expr.spanlessAll_eq, hn, hparams', hresult', hbody']
  · simp only [Fun.tokens, List.cons_append, List.length_cons, List.length_append]
    omega

/-! ## Programs -/

/-- Functions, with a line end behind each, up to the end of the window. -/
theorem gets_functions (hL : L.Sound) (hS : L.Scans) (fs : List Fun) {rounds : Nat}
    (hrounds : fs.length < rounds) (hfs : ∀ f ∈ fs, ∀ e ∈ f.body, e.PlainStatement) (m : Nat)
    (h : L.Spells lo hi (List.replicate m .newline ++ fs.flatMap fun f => f.tokens ++ [.newline])) :
    (functions L rounds).Gets L lo hi fun fs' k =>
      fs'.map Fun.spanless = fs.map Fun.spanless ∧ k = hi := by
  induction fs generalizing lo rounds m with
  | nil =>
    obtain ⟨rounds, rfl⟩ : ∃ r, rounds = r + 1 := ⟨rounds - 1, by simp at hrounds; omega⟩
    have hlen := h.length_eq
    obtain ⟨-, hend⟩ := h.append
    rw [List.length_replicate] at hend
    rw [functions]
    refine gets_bind (gets_skipNewlines m h (by simp)) ?_
    rintro _ _ rfl
    refine gets_bind (gets_peek? hend) ?_
    rintro l? _ ⟨hl, rfl⟩
    obtain rfl : l? = none := by simpa using hl
    exact gets_pure ⟨rfl, by simpa using hlen.symm⟩
  | cons f fs ih =>
    obtain ⟨rounds, rfl⟩ : ∃ r, rounds = r + 1 := ⟨rounds - 1, by simp at hrounds; omega⟩
    obtain ⟨hf, hrest⟩ := List.forall_mem_cons.1 hfs
    obtain ⟨-, hfunction⟩ := h.append
    rw [List.length_replicate] at hfunction
    -- The line end behind a function is skipped before the next one.
    have htokens : (f :: fs).flatMap (fun f => f.tokens ++ [Token.newline]) =
        f.tokens ++ (List.replicate 1 .newline ++ fs.flatMap fun f => f.tokens ++ [.newline]) := by
      simp
    rw [functions]
    refine gets_bind (gets_skipNewlines m h (by simp [Fun.tokens])) ?_
    rintro _ _ rfl
    refine gets_bind (gets_peek? hfunction) ?_
    rintro l? _ ⟨hl, rfl⟩
    cases l? with
    | none => simp [Fun.tokens] at hl
    | some l =>
      rw [htokens] at hfunction
      refine gets_bind (gets_function hL hS f hf hfunction) ?_
      rintro f' _ ⟨hf', rfl⟩
      refine gets_bind (ih (by simpa using hrounds) hrest 1 hfunction.append.2) ?_
      rintro fs' _ ⟨hfs', rfl⟩
      exact gets_pure ⟨congrArg₂ List.cons hf' hfs', rfl⟩

theorem gets_program (hL : L.Sound) (hS : L.Scans) (p : Program)
    (hp : ∀ f ∈ p.functions, ∀ e ∈ f.body, e.PlainStatement) (h : L.Spells lo hi p.tokens) :
    (program L).Gets L lo hi fun p' k => p'.spanless = p.spanless ∧ k = hi := by
  have hlen := h.length_eq
  have hcount : p.functions.length ≤ p.tokens.length := length_le_lines Fun.tokens p.functions
  refine gets_bind gets_here ?_
  rintro _ _ ⟨rfl, rfl⟩
  refine gets_bind (gets_sized (gets_functions hL hS p.functions (by omega) hp 0 h)) ?_
  rintro fs' _ ⟨hfs', rfl⟩
  refine gets_bind (gets_spanFrom _) ?_
  rintro span _ rfl
  exact gets_pure ⟨by simp only [Program.spanless, hfs'], rfl⟩

end Grammar

namespace Program

/-! ## Whole sources -/

/-- The outcome of the rule for programs is what is read. -/
theorem splitLexemes_eq_eval (lexemes : List Lexeme) :
    splitLexemes lexemes =
      ((Grammar.program (Layout.indexed lexemes)).eval (Layout.indexed lexemes)
        (wholeWindow lexemes)).map fun found => (found.1, lexemes.drop found.2) :=
  splitLexemes_eq ((spec_whole lexemes).outcome_eq (Layout.sound_indexed lexemes) (Nat.le_refl _))

/-- Lexemes with the tokens of a program are read as that program. -/
theorem exists_ofLexemes (p : Program) (hp : ∀ f ∈ p.functions, ∀ e ∈ f.body, e.PlainStatement)
    {lexemes : List Lexeme} (htokens : lexemes.map Lexeme.token = p.tokens) :
    ∃ q, ofLexemes lexemes = .ok q ∧ q.spanless = p.spanless := by
  have hspells : (Layout.indexed lexemes).Spells 0 lexemes.length p.tokens := by
    refine ⟨Nat.zero_le _, by simp [Layout.indexed], ?_⟩
    simp [Layout.indexed, htokens]
  obtain ⟨q, _, heval, hq, rfl⟩ := Grammar.gets_program (Layout.sound_indexed lexemes)
    (Layout.scans_indexed lexemes) p hp hspells
  refine ⟨q, ?_, hq⟩
  rw [ofLexemes, splitLexemes_eq_eval, wholeWindow, heval]
  simp [Except.map, complete, bind, Except.bind]

/-- Programs that are printed to be read back. -/
structure Printable (p : Program) : Prop where
  /-- Names and numbers are such as can be written. -/
  writable : ∀ t ∈ p.tokens, t.IsWritable
  /-- Bodies are made of printable statements. -/
  plain : ∀ f ∈ p.functions, Expr.PlainStatements f.body

/-- Reading undoes printing, up to spans. -/
theorem ofSource_print (p : Program) (hp : p.Printable) :
    ∃ q, Program.ofSource p.print = .ok q ∧ q.spanless = p.spanless :=
  exists_ofLexemes p (fun f hf => (Expr.plainStatements_iff f.body).1 (hp.plain f hf))
    (Scan.tokens_lexemes_spellAll hp.writable)

/-- A function with a statement of every form. -/
def everyForm : Program :=
  let z : Span := .zero
  let total : Expr := .var z "total"
  let first : Expr := .index z ⟨"xs", z⟩ (.int z 0)
  ⟨z, [⟨z, "total", [⟨z, "xs", .generic z "Array" [.simple z "Int"]⟩, ⟨z, "c", .simple z "Char"⟩],
    some (.simple z "Int"),
    [.declare z true "total" (.neg z (.parens z (.binary z .add first (.int z 2147483647)))),
     .forIn z "x" (.binary z .range (.int z 0) (.call z "size" [.var z "xs"]))
       [.assign z "total" (.binary z .mul (.parens z (.binary z .sub total (.int z 1))) first)],
     .branch z (.binary z .and (.parens z (.binary z .less total (.int z 9))) (.bool z true))
       [.call z "println" [.str z "a\"b", .char z '\'', .not z (.bool z false)]]
       [.loop z (.binary z .greater first total) [.returnUnit z]],
     .store z z ⟨"xs", z⟩ total (.binary z .div total (.int z 2)),
     .returnValue z total]⟩]⟩

theorem everyForm_plain : ∀ f ∈ everyForm.functions, Expr.PlainStatements f.body := by
  simp [everyForm, Expr.PlainStatements, Expr.PlainStatement, Expr.Plain, Expr.PlainAll,
    Expr.isOperand]

theorem everyForm_writable : ∀ t ∈ everyForm.tokens, t.IsWritable := by
  have hall : everyForm.tokens.all (fun t => decide t.IsWritable) = true := by
    decide +kernel
  exact fun t ht => of_decide_eq_true (List.all_eq_true.1 hall t ht)

theorem ofSource_print_everyForm : everyForm.Printable ∧
    ∃ q, Program.ofSource everyForm.print = .ok q ∧ q.spanless = everyForm.spanless :=
  ⟨⟨everyForm_writable, everyForm_plain⟩,
    ofSource_print everyForm ⟨everyForm_writable, everyForm_plain⟩⟩

/-- A program that was read has the tokens of its source, in the same order, those that only lay it out
aside; so no token stands in its source that no program has. -/
theorem ofSource_accounts {source : String} {p : Program} (h : Program.ofSource source = .ok p) :
    Token.strip ((Scan.lexemes source).map Lexeme.token) = Token.strip p.tokens ∧
      ∀ l ∈ Scan.lexemes source, l.token ≠ .unexpected ∧ l.token ≠ .keyword .breakKw ∧
        l.token ≠ .symbol .percent := by
  have hstrip := strip_of_ofLexemes h
  refine ⟨hstrip, fun l hl => ?_⟩
  exact AllUsed.of_strip hstrip p.allUsed_tokens l.token (List.mem_map_of_mem hl)

theorem ofSource_accounts_everyForm :
    ∃ q, Program.ofSource everyForm.print = .ok q ∧
      Token.strip ((Scan.lexemes everyForm.print).map Lexeme.token) = Token.strip q.tokens ∧
      ∀ l ∈ Scan.lexemes everyForm.print, l.token ≠ .unexpected ∧
        l.token ≠ .keyword .breakKw ∧ l.token ≠ .symbol .percent := by
  obtain ⟨q, hq, -⟩ := exists_ofLexemes everyForm
    (fun f hf => (Expr.plainStatements_iff f.body).1 (everyForm_plain f hf))
    (Scan.tokens_lexemes_spellAll everyForm_writable)
  exact ⟨q, hq, ofSource_accounts hq⟩

end Program

end Scriptlet
