import Scriptlet.Pipeline
import Scriptlet.Proofs.Grammar.Accounts
import Scriptlet.Proofs.Store.Valid
import Scriptlet.Proofs.Token.Tiling

/-!
# The numbers that are written in a source

Reading turns digits into a number only where the number is in range.  A program that was read has
the tokens of its source, so every number written in it is in range.
-/

namespace Scriptlet

/-! ## Reading -/

namespace Scan

theorem le_maxInt_of_int? {cs : List Char} {k n : Nat} (h : int? cs = some (.token (.int k), n)) :
    k ≤ Literal.maxInt := by
  unfold int? at h
  dsimp only at h
  split at h
  case isTrue => cases h
  case isFalse =>
    split at h
    case h_1 hread =>
      cases h
      exact of_decide_eq_true (Option.filter_eq_some_iff.1 hread).2
    case h_2 => cases h

/-- A number that is read is in range. -/
theorem le_maxInt_of_recognise? {cs : List Char} {k n : Nat}
    (h : recognise? cs = some (.token (.int k), n)) : k ≤ Literal.maxInt := by
  obtain ⟨matcher, hmem, hmatch⟩ := List.exists_of_findSome?_eq_some h
  simp only [matchers, List.mem_cons, List.not_mem_nil, or_false] at hmem
  -- Only one of the matchers gives numbers.
  rcases hmem with rfl | rfl | rfl | rfl | rfl | rfl | rfl | rfl | rfl | rfl | rfl
  · unfold comment? at hmatch
    repeat' split at hmatch
    all_goals cases hmatch
  · cases cs <;> simp [punct?] at hmatch
  · simp [keyword?] at hmatch
  · unfold bool? at hmatch
    repeat' split at hmatch
    all_goals cases hmatch
  · unfold char? at hmatch
    repeat' split at hmatch
    all_goals cases hmatch
  · unfold ident? at hmatch
    repeat' split at hmatch
    all_goals cases hmatch
  · exact le_maxInt_of_int? hmatch
  · unfold newline? at hmatch
    split at hmatch <;> cases hmatch
  · unfold operator? at hmatch
    split at hmatch <;> cases hmatch
  · unfold str? at hmatch
    repeat' split at hmatch
    all_goals cases hmatch
  · unfold spaces? at hmatch
    split at hmatch <;> cases hmatch

theorem Reads.le_maxInt {source : List Char} {pos : Nat} {ls : List Lexeme}
    (h : Reads source pos ls) {k : Nat} (hk : Token.int k ∈ ls.map Lexeme.token) :
    k ≤ Literal.maxInt := by
  induction h with
  | finish => cases hk
  | blank _ _ ih => exact ih hk
  | @token pos hi t ls hat _ ih =>
    rcases List.mem_cons.1 hk with heq | hk
    · cases heq
      have hnext : (next (source.drop pos)).1 = .token (.int k) := congrArg Prod.fst hat
      cases hrest : source.drop pos with
      | nil =>
        rw [hrest] at hnext
        cases hnext
      | cons c cs =>
        rw [hrest, next] at hnext
        cases hfound : recognise? (c :: cs) with
        | none =>
          rw [hfound] at hnext
          cases hnext
        | some found =>
          rw [hfound] at hnext
          obtain ⟨piece, n⟩ := found
          obtain rfl : piece = .token (.int k) := hnext
          exact le_maxInt_of_recognise? hfound
    · exact ih hk

end Scan

/-! ## The tokens of parts -/

theorem Token.subset_separate {ts : List Token} {lists : List (List Token)} (h : ts ∈ lists)
    (separator : Token) : ts ⊆ Token.separate separator lists := by
  induction lists with
  | nil => cases h
  | cons us lists ih =>
    cases lists with
    | nil =>
      obtain rfl := List.mem_singleton.1 h
      exact List.Subset.refl _
    | cons vs lists =>
      rcases List.mem_cons.1 h with rfl | h
      · exact List.subset_append_left _ _
      · exact List.subset_append_of_subset_right _ (List.subset_cons_of_subset _ (ih h))

namespace Expr

theorem subset_braced {e : Expr} {es : List Expr} (h : e ∈ es) :
    e.tokens ⊆ braced (tokensOfAll es) := by
  intro t ht
  have hline : t ∈ es.flatMap fun e => e.tokens ++ [.newline] :=
    List.mem_flatMap.2 ⟨e, h, List.mem_append_left _ ht⟩
  rw [braced, Grammar.tokensOfAll_eq, List.flatMap_map]
  simp [hline]

theorem subset_elsePart {e : Expr} {es : List Expr} (h : e ∈ es) :
    e.tokens ⊆ elsePart (tokensOfAll es) := by
  cases es with
  | nil => cases h
  | cons first rest => exact List.subset_cons_of_subset _ (subset_braced h)

/-- The tokens of a part are among those of the whole. -/
theorem tokens_subset {e e' : Expr} (h : e' ∈ e.parts) : e'.tokens ⊆ e.tokens := by
  cases e with
  | int | bool | char | str | var | returnUnit => cases h
  | index | neg | not | parens | declare | assign | returnValue =>
    obtain rfl := List.mem_singleton.1 h
    intro t ht
    simp [tokens, ht]
  | binary span op l r =>
    intro t ht
    simp only [parts, List.mem_cons, List.not_mem_nil, or_false] at h
    rcases h with rfl | rfl <;> simp [tokens, ht]
  | call span name args =>
    intro t ht
    have hargs : t ∈ Token.separate (.symbol .comma) (tokensOfAll args) := by
      rw [Grammar.tokensOfAll_eq]
      exact Token.subset_separate (List.mem_map_of_mem h) _ ht
    simp [tokens, hargs]
  | store span target base position value =>
    intro t ht
    simp only [parts, List.mem_cons, List.not_mem_nil, or_false] at h
    rcases h with rfl | rfl <;> simp [tokens, ht]
  | branch span cond body otherwise =>
    intro t ht
    simp only [parts, List.cons_append, List.mem_cons, List.mem_append] at h
    rcases h with rfl | h | h
    · simp [tokens, ht]
    · simp [tokens, subset_braced h ht]
    · simp [tokens, subset_elsePart h ht]
  | forIn span name iterable body =>
    intro t ht
    rcases List.mem_cons.1 h with rfl | h
    · simp [tokens, ht]
    · simp [tokens, subset_braced h ht]
  | loop span cond body =>
    intro t ht
    rcases List.mem_cons.1 h with rfl | h
    · simp [tokens, ht]
    · simp [tokens, subset_braced h ht]

theorem Within.tokens_subset {e e' : Expr} (h : Within e' e) : e'.tokens ⊆ e.tokens := by
  induction h with
  | self => exact List.Subset.refl _
  | part hpart _ ih => exact List.Subset.trans ih (Expr.tokens_subset hpart)

end Expr

/-! ## Programs -/

/-- The numbers of a program that was read are in range. -/
theorem Program.numbersFit_of_ofSource {source : String} {p : Program}
    (h : Program.ofSource source = .ok p) : p.NumbersFit := by
  intro f hf e he span k hwithin
  have hbody : Token.int k ∈ f.tokens := by
    have hmem := Expr.subset_braced he (hwithin.tokens_subset (List.mem_singleton.2 rfl))
    simp [Fun.tokens, hmem]
  have htokens : Token.int k ∈ p.tokens :=
    List.mem_flatMap.2 ⟨f, hf, List.mem_append_left _ hbody⟩
  have hstrip : Token.int k ∈ Token.strip p.tokens := List.mem_filter.2 ⟨htokens, rfl⟩
  rw [← Program.strip_of_ofLexemes h] at hstrip
  have hreads := Scan.reads_lexemesFrom source.toList 0
  rw [List.drop_zero] at hreads
  have hmax := hreads.le_maxInt (List.mem_filter.1 hstrip).1
  simp only [Literal.maxInt, Word.InRange, Word.least, Word.greatest] at hmax ⊢
  omega

end Scriptlet
