import Scriptlet.Pipeline
import Scriptlet.Proofs.Grammar.Solve
import Scriptlet.Proofs.Syntax.Induction

/-!
# Programs account for their sources

What the rules for types, functions and programs promise, and with it what reading a whole source
promises: `Program.ofSource_accounts` says that a program which was read has the tokens of its
source, those that only lay it out aside.
-/

namespace Scriptlet

namespace Grammar

open Rule

variable {L : Layout} {N : Nat} {w₀ : Window} {lo hi : Nat}

/-! ## Types -/

theorem typeTokensOfAll_eq (ts : List TypeRef) :
    TypeRef.tokensOfAll ts = ts.map TypeRef.tokens := by
  induction ts with
  | nil => rfl
  | cons t ts ih => rw [TypeRef.tokensOfAll, ih, List.map_cons]

/-- A type is read from the tokens that it is written with, however deep it is nested. -/
theorem spec_typeWithin (depth : Nat) (hw : w₀.Holds lo hi) :
    (typeWithin L depth).Spec L N w₀ lo hi fun t k =>
      lo < k ∧ L.Reads hi lo k (Token.strip t.tokens) := by
  induction depth generalizing lo with
  | zero => exact spec_endOfInput
  | succ depth ih =>
    rw [typeWithin]
    refine spec_bind spec_here ?_
    rintro _ lo ⟨rfl, rfl⟩
    refine spec_bind (spec_name hw) ?_
    rintro n _ ⟨rfl, hname⟩
    refine spec_bind (spec_nextIs fun _ => eq_of_accepts_symbol) ?_
    rintro found _ ⟨rfl, -⟩
    cases found with
    | false => exact spec_pure ⟨Nat.lt_succ_self _, hname⟩
    | true =>
      refine spec_bind (spec_sequence rfl (fun k _ hk => (ih hk).imp fun _ _ ht => ht.2)
        (holds_rest hw hname)) ?_
      rintro args k ⟨hlt, hargs⟩
      refine spec_bind spec_spanFrom ?_
      rintro span _ rfl
      refine spec_pure ⟨by omega, (hname.append hargs).congr ?_⟩
      simp [TypeRef.tokens, Token.isLayout, strip_separate, typeTokensOfAll_eq, List.flatMap_map]

theorem spec_type (hw : w₀.Holds lo hi) :
    (type L).Spec L N w₀ lo hi fun t k => L.Reads hi lo k (Token.strip t.tokens) :=
  spec_sized ((spec_typeWithin _ hw).imp fun _ _ h => h.2)

/-! ## Functions -/

theorem spec_param (hw : w₀.Holds lo hi) :
    (param L).Spec L N w₀ lo hi fun p k => L.Reads hi lo k (Token.strip p.tokens) := by
  refine spec_bind spec_here ?_
  rintro _ lo ⟨rfl, rfl⟩
  refine spec_bind (spec_name hw) ?_
  rintro n _ ⟨rfl, hname⟩
  refine spec_bind (spec_symbol .colon (holds_rest hw hname)) ?_
  rintro _ _ ⟨rfl, hcolon⟩
  have hread := hname.append hcolon
  refine spec_bind (spec_type (holds_rest hw hread)) ?_
  intro t k ht
  refine spec_bind spec_spanFrom ?_
  rintro span _ rfl
  refine spec_pure ((hread.append ht).congr ?_)
  simp [Param.tokens, Token.isLayout]

theorem spec_resultType (hw : w₀.Holds lo hi) :
    (resultType L).Spec L N w₀ lo hi fun t? k =>
      L.Reads hi lo k (Token.strip (TypeRef.resultTokens t?)) := by
  refine spec_bind (spec_nextIs fun _ => eq_of_accepts_symbol) ?_
  rintro found lo ⟨rfl, hfound⟩
  cases found with
  | false => exact spec_pure (.refl hw.valid)
  | true =>
    have hcolon := hfound rfl
    refine spec_bind (spec_advance hcolon.stop) ?_
    rintro _ _ rfl
    refine spec_bind (spec_type (holds_rest hw hcolon)) ?_
    intro t k ht
    refine spec_pure ((hcolon.append ht).congr ?_)
    simp [TypeRef.resultTokens, Token.isLayout]

/-- A function is read from its tokens. -/
theorem spec_function (hw₀ : w₀.Within L.lexemes.size) (hw : w₀.Holds lo hi)
    (hN : 2 * (hi - lo) ≤ N) :
    (function L).Spec L N w₀ lo hi fun f k => L.Reads hi lo k (Token.strip f.tokens) := by
  refine spec_bind spec_here ?_
  rintro _ lo ⟨rfl, rfl⟩
  refine spec_bind (spec_keyword .funKw hw) ?_
  rintro _ _ ⟨rfl, hkw⟩
  refine spec_bind (spec_name (holds_rest hw hkw)) ?_
  rintro n _ ⟨rfl, hname⟩
  have hread₁ := hkw.append hname
  refine spec_bind (spec_sequence rfl (fun _ _ => spec_param) (holds_rest hw hread₁)) ?_
  rintro params k₁ ⟨hlt, hparams⟩
  have hread₂ := hread₁.append hparams
  refine spec_bind (spec_resultType (holds_rest hw hread₂)) ?_
  intro result k₂ hresult
  have hread₃ := hread₂.append hresult
  have hstart := hresult.start
  refine spec_bind (spec_body hw₀ (holds_rest hw hread₃) (by omega)) ?_
  rintro statements k₃ ⟨-, hbody⟩
  refine spec_bind spec_spanFrom ?_
  rintro span _ rfl
  refine spec_pure ((hread₃.append hbody).congr ?_)
  simp [Fun.tokens, Token.isLayout, strip_separate, strip_braced, List.flatMap_map]

/-- Inside of the lexemes there is a next one unless the window ends. -/
theorem spec_peek?_end (hhi : hi ≤ L.lexemes.size) : (peek? L).Spec L N w₀ lo hi fun l? k =>
    k = lo ∧ (l? = none → hi ≤ lo) := by
  refine ⟨rfl, fun hnone => Nat.not_lt.1 fun hlt => ?_⟩
  have hlength : 0 < Window.length ⟨lo, hi⟩ := Nat.sub_pos_of_lt hlt
  rw [Window.get?, if_pos hlength, Array.getElem?_eq_none_iff] at hnone
  exact Nat.not_lt.2 hnone (Nat.lt_of_lt_of_le hlt hhi)

/-- Functions one behind the other, with lines in between, up to the end of the window. -/
theorem spec_functions (hw₀ : w₀.Within L.lexemes.size) (rounds : Nat) (hw : w₀.Holds lo hi)
    (hN : 2 * (hi - lo) ≤ N) :
    (functions L rounds).Spec L N w₀ lo hi fun fs k =>
      k = hi ∧ L.Reads hi lo k (fs.flatMap fun f => Token.strip f.tokens) := by
  induction rounds generalizing lo with
  | zero => exact spec_endOfInput
  | succ rounds ih =>
    rw [functions]
    refine spec_bind (spec_skipNewlines hw.valid) ?_
    intro _ k hskip
    have hstart := hskip.start
    refine spec_bind (spec_peek?_end (Nat.le_trans hw.stop hw₀.2)) ?_
    rintro l? _ ⟨rfl, hend⟩
    cases l? with
    | none => exact spec_pure ⟨Nat.le_antisymm hskip.stop (hend rfl), hskip⟩
    | some l =>
      refine spec_bind (spec_function hw₀ (holds_rest hw hskip) (by omega)) ?_
      intro f k₁ hf
      have hread := hskip.append hf
      have hstart₁ := hread.start
      refine spec_bind (ih (holds_rest hw hread) (by omega)) ?_
      rintro fs k₂ ⟨hstop, hfs⟩
      exact spec_pure ⟨hstop, hread.append hfs⟩

/-- A program is read from all of the tokens of its window. -/
theorem spec_program (hw₀ : w₀.Within L.lexemes.size) (hw : w₀.Holds lo hi)
    (hN : 2 * (hi - lo) ≤ N) :
    (program L).Spec L N w₀ lo hi fun p k =>
      k = hi ∧ L.Reads hi lo k (Token.strip p.tokens) := by
  refine spec_bind spec_here ?_
  rintro _ lo ⟨rfl, rfl⟩
  refine spec_bind (spec_sized (spec_functions hw₀ _ hw hN)) ?_
  rintro fs k ⟨hstop, hfs⟩
  refine spec_bind spec_spanFrom ?_
  rintro span _ rfl
  refine spec_pure ⟨hstop, hfs.congr ?_⟩
  have hlines := strip_lines (fs.map Fun.tokens)
  rw [List.flatMap_map, List.flatMap_map] at hlines
  exact hlines.symm

end Grammar

/-! ## Whole sources -/

namespace Program

/-- All of the lexemes. -/
def wholeWindow (lexemes : List Lexeme) : Window := ⟨0, lexemes.length⟩

/-- With the outcome of a program's rule at hand, nothing else is read. -/
theorem splitLexemes_eq {lexemes : List Lexeme} {o : Outcome Program}
    (ho : (Grammar.program (Layout.indexed lexemes)).outcome? (Layout.indexed lexemes)
      (wholeWindow lexemes).enoughDepth (wholeWindow lexemes) = some o) :
    splitLexemes lexemes = o.map fun found => (found.1, lexemes.drop found.2) := by
  have htabled := Rule.tabled_eq ho
  have hsplit : splitLexemes? (wholeWindow lexemes).enoughDepth lexemes =
      some (o.map fun found => (found.1, lexemes.drop found.2)) := by
    rw [wholeWindow] at htabled ⊢
    rw [splitLexemes?, htabled, Option.map_some]
  rw [splitLexemes, ← wholeWindow, hsplit, Option.getD_some]

/-- The depth that reading starts with is enough for the rule for programs, which reads everything
and accounts for it. -/
theorem spec_whole (lexemes : List Lexeme) :
    (Grammar.program (Layout.indexed lexemes)).Spec (Layout.indexed lexemes)
      (wholeWindow lexemes).enoughDepth (wholeWindow lexemes) 0 lexemes.length fun p k =>
        k = lexemes.length ∧
          (Layout.indexed lexemes).Reads lexemes.length 0 k (Token.strip p.tokens) := by
  have hw : (wholeWindow lexemes).Within (Layout.indexed lexemes).lexemes.size :=
    ⟨Nat.zero_le _, by simp [wholeWindow, Layout.indexed]⟩
  have hholds : (wholeWindow lexemes).Holds 0 lexemes.length :=
    ⟨Nat.le_refl _, Nat.zero_le _, Nat.le_refl _⟩
  have hdepth := (wholeWindow lexemes).lt_enoughDepth
  exact Grammar.spec_program hw hholds (by simp only [wholeWindow] at hdepth ⊢; omega)

/-- A program that was read has the tokens of its lexemes, those that only lay it out aside. -/
theorem strip_of_ofLexemes {lexemes : List Lexeme} {p : Program}
    (h : ofLexemes lexemes = .ok p) :
    Token.strip (lexemes.map Lexeme.token) = Token.strip p.tokens := by
  obtain ⟨o, ho, hmeets⟩ :=
    (spec_whole lexemes).exists_outcome (Layout.sound_indexed lexemes) (Nat.le_refl _)
  rw [ofLexemes, splitLexemes_eq ho] at h
  cases o with
  | error e => cases h
  | ok found =>
    obtain ⟨q, k⟩ := found
    obtain ⟨rfl, hread⟩ : k = lexemes.length ∧
        (Layout.indexed lexemes).Reads lexemes.length 0 k (Token.strip q.tokens) := hmeets
    -- Nothing is left over.
    have hleft : complete (q, lexemes.drop lexemes.length) = .ok p := h
    rw [List.drop_length] at hleft
    obtain rfl : q = p := Except.ok.inj hleft
    have hall := hread.yield_eq
    rwa [Layout.yield, List.drop_zero, List.take_of_length_le (by simp [Layout.indexed])] at hall

end Program

/-! ## Tokens that no program has -/

/-- A token that stands in some program. -/
def Token.IsUsed (t : Token) : Prop :=
  t ≠ .unexpected ∧ t ≠ .keyword .breakKw ∧ t ≠ .symbol .percent

/-- All tokens of a list are used. -/
def Token.AllUsed (ts : List Token) : Prop := ∀ t ∈ ts, t.IsUsed

namespace Token

@[simp] theorem allUsed_nil : AllUsed [] := fun _ h => by cases h

@[simp] theorem allUsed_cons {t : Token} {ts : List Token} :
    AllUsed (t :: ts) ↔ t.IsUsed ∧ AllUsed ts := List.forall_mem_cons

@[simp] theorem allUsed_append {ts us : List Token} :
    AllUsed (ts ++ us) ↔ AllUsed ts ∧ AllUsed us := List.forall_mem_append

theorem AllUsed.flatMap {α : Type} {xs : List α} {f : α → List Token}
    (h : ∀ x ∈ xs, AllUsed (f x)) : AllUsed (xs.flatMap f) := by
  intro t ht
  obtain ⟨x, hx, ht⟩ := List.mem_flatMap.1 ht
  exact h x hx t ht

/-- Commas between lists of used tokens are used. -/
theorem AllUsed.separate {lists : List (List Token)} (h : ∀ ts ∈ lists, AllUsed ts) :
    AllUsed (Token.separate (.symbol .comma) lists) := by
  induction lists with
  | nil => exact allUsed_nil
  | cons ts lists ih =>
    have hts := h ts List.mem_cons_self
    have hrest := ih fun us hus => h us (List.mem_cons_of_mem _ hus)
    cases lists with
    | nil => exact hts
    | cons us lists => simpa [Token.separate, hts, IsUsed] using hrest

end Token

theorem BinOp.isUsed_token (op : BinOp) : op.token.IsUsed := by
  cases op <;> simp [BinOp.token, Token.IsUsed]

namespace Expr

open Token

theorem allUsed_braced {es : List Expr} (h : ∀ e ∈ es, AllUsed e.tokens) :
    AllUsed (braced (tokensOfAll es)) := by
  rw [braced, Grammar.tokensOfAll_eq, List.flatMap_map]
  have hlines : AllUsed (es.flatMap fun e => e.tokens ++ [.newline]) :=
    .flatMap fun e he => by simp [h e he, IsUsed]
  simp [hlines, IsUsed]

theorem allUsed_elsePart {es : List Expr} (h : ∀ e ∈ es, AllUsed e.tokens) :
    AllUsed (elsePart (tokensOfAll es)) := by
  cases es with
  | nil => exact allUsed_nil
  | cons e es =>
    -- Only an else branch that is not empty is written.
    show AllUsed (.keyword .elseKw :: braced (tokensOfAll (e :: es)))
    simp [allUsed_braced h, IsUsed]

theorem allUsed_tokens (e : Expr) : AllUsed e.tokens := by
  induction e using Expr.induction with
  | call s name args ih =>
    have hargs : AllUsed (Token.separate (.symbol .comma) (tokensOfAll args)) := by
      refine .separate ?_
      rw [Grammar.tokensOfAll_eq]
      simpa using ih
    simp [tokens, hargs, IsUsed]
  | branch s cond body otherwise ihc ihb iho =>
    simp [tokens, ihc, allUsed_braced ihb, allUsed_elsePart iho, IsUsed]
  | forIn s name iterable body ihi ihb => simp [tokens, ihi, allUsed_braced ihb, IsUsed]
  | loop s cond body ihc ihb => simp [tokens, ihc, allUsed_braced ihb, IsUsed]
  | binary s op l r ihl ihr => simp [tokens, ihl, ihr, op.isUsed_token]
  | declare s mutable name value ih => cases mutable <;> simp [tokens, ih, IsUsed]
  | _ => simp_all [tokens, IsUsed]

end Expr

namespace TypeRef

open Token

mutual

theorem allUsed_tokens : (t : TypeRef) → AllUsed t.tokens
  | simple _ _ => by simp [tokens, IsUsed]
  | generic _ _ args => by
    have hargs := AllUsed.separate (allUsed_tokensOfAll args)
    simp [tokens, hargs, IsUsed]

theorem allUsed_tokensOfAll : (ts : List TypeRef) → ∀ us ∈ tokensOfAll ts, AllUsed us
  | [] => fun _ h => by cases h
  | t :: ts => List.forall_mem_cons.2 ⟨allUsed_tokens t, allUsed_tokensOfAll ts⟩

end

end TypeRef

theorem Param.allUsed_tokens (p : Param) : Token.AllUsed p.tokens := by
  simp [Param.tokens, p.type.allUsed_tokens, Token.IsUsed]

theorem Fun.allUsed_tokens (f : Fun) : Token.AllUsed f.tokens := by
  have hparams : Token.AllUsed (Token.separate (.symbol .comma) (f.params.map Param.tokens)) :=
    .separate (by simpa using fun p _ => p.allUsed_tokens)
  have hresult : Token.AllUsed (TypeRef.resultTokens f.result) := by
    cases f.result with
    | none => exact Token.allUsed_nil
    | some t => simp [TypeRef.resultTokens, t.allUsed_tokens, Token.IsUsed]
  have hbody := Expr.allUsed_braced fun e (_ : e ∈ f.body) => e.allUsed_tokens
  simp [Fun.tokens, hparams, hresult, hbody, Token.IsUsed]

theorem Program.allUsed_tokens (p : Program) : Token.AllUsed p.tokens :=
  .flatMap fun f _ => by simp [f.allUsed_tokens, Token.IsUsed]

/-- A token that matters and stands in no program stands in no source that was read. -/
theorem Token.AllUsed.of_strip {ts us : List Token} (h : strip ts = strip us) (hus : AllUsed us) :
    AllUsed ts := by
  intro t ht
  cases hlayout : t.isLayout with
  | true =>
    refine ⟨?_, ?_, ?_⟩ <;> rintro rfl <;> cases hlayout
  | false =>
    have hmem : t ∈ strip ts := List.mem_filter.2 ⟨ht, by simp [hlayout]⟩
    rw [h] at hmem
    exact hus t (List.mem_filter.1 hmem).1

end Scriptlet
