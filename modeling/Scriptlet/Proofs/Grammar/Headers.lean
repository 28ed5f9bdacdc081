import Scriptlet.Proofs.Grammar.Choices

/-!
# When declarations are read

One equivalence for each rule that reads types, parameters, functions or programs, as there is one for
each rule that reads expressions.  The depth up to which types are read makes no difference, as long as
there are fewer lexemes.
-/

namespace Scriptlet.Grammar

open Rule

variable {α : Type} {L : Layout} {lo hi k : Nat}

/-! ## Sequences -/

/-- The elements of a sequence are read one behind the other, inside of the window. -/
theorem bounds_elements {close separator : Punct} {item : Rule α} {rounds : Nat} {xs : List α}
    (hitem : ∀ {i j x}, lo ≤ i → i < hi → item.Parses L i hi x j → i < j ∧ j ≤ hi)
    (h : (elements L close separator item rounds).Parses L lo hi xs k) : lo < k ∧ k ≤ hi := by
  induction rounds generalizing lo xs with
  | zero => cases h
  | succ rounds ih =>
    rcases parses_elements_succ.1 h with
      ⟨hclose, -, rfl⟩ | ⟨⟨t, hnext, -⟩, x, j, hx, j', hskip, rest, i, hrest, -, rfl⟩
    · exact ⟨Nat.lt_succ_self lo, hclose.1⟩
    · have hj := (hitem (Nat.le_refl lo) hnext.1 hx).1
      have hj' := hskip.le
      obtain ⟨hlt, hle⟩ := ih (fun hi => hitem (by omega)) hrest
      exact ⟨by omega, hle⟩

/-- A sequence is read alike with another rule for its elements that reads them alike. -/
theorem parses_elements_of_imp {close separator : Punct} {item item' : Rule α} {rounds : Nat}
    {xs : List α}
    (hitem : ∀ i j x, lo ≤ i → item.Parses L i hi x j → i < j ∧ item'.Parses L i hi x j)
    (h : (elements L close separator item rounds).Parses L lo hi xs k) :
    (elements L close separator item' rounds).Parses L lo hi xs k := by
  induction rounds generalizing lo xs k with
  | zero => cases h
  | succ rounds ih =>
    rw [parses_elements_succ] at h ⊢
    rcases h with hclose | ⟨⟨t, hnext, hne⟩, x, j, hx, j', hskip, rest, i, hrest, hxs, hk⟩
    · exact .inl hclose
    · obtain ⟨hlt, hx'⟩ := hitem lo j x (Nat.le_refl lo) hx
      have hj' := hskip.le
      have hrest' := ih (fun i j x hi => hitem i j x (by omega)) hrest
      exact .inr ⟨⟨t, hnext, hne⟩, x, j, hx', j', hskip, rest, i, hrest', hxs, hk⟩

/-! ## Types -/

theorem parses_typeWithin_succ {depth : Nat} {t : TypeRef} :
    (typeWithin L (depth + 1)).Parses L lo hi t k ↔
      ∃ n, L.NameNext lo hi n ∧
        (L.Next (lo + 1) hi (.symbol .less) ∧
            (∃ args j, (elements L .greater .comma (typeWithin L depth)
                (hi - (lo + 2) + 1)).Parses L (lo + 2) hi args j ∧
              t = .generic (L.spanOf lo j) n.text args ∧ k = j) ∨
          ¬ L.Next (lo + 1) hi (.symbol .less) ∧ t = .simple n.span n.text ∧ k = lo + 1) := by
  simp only [typeWithin, parses_here_bind, parses_name_bind,
    parses_nextIs_bind fun _ => accepts_symbol_iff, if_true, Bool.false_eq_true, if_false,
    parses_sequence_bind, parses_spanFrom_bind, parses_pure]
  refine exists_congr fun n => and_congr_right fun _ => or_congr_left (and_congr_right fun hless => ?_)
  exact and_iff_right hless

theorem parses_type {t : TypeRef} :
    (type L).Parses L lo hi t k ↔ (typeWithin L (hi - lo + 1)).Parses L lo hi t k := parses_sized

theorem bounds_typeWithin {depth : Nat} {t : TypeRef}
    (h : (typeWithin L depth).Parses L lo hi t k) : lo < k ∧ k ≤ hi := by
  induction depth generalizing lo t k with
  | zero => cases h
  | succ depth ih =>
    obtain ⟨n, hname, ⟨-, args, j, hargs, -, rfl⟩ | ⟨-, -, rfl⟩⟩ := parses_typeWithin_succ.1 h
    · have hbounds := bounds_elements (fun _ _ ht => ih ht) hargs
      omega
    · exact ⟨Nat.lt_succ_self lo, hname.1⟩

/-- Every depth that is not reached reads the same types. -/
theorem parses_typeWithin_of_lt {depth depth' : Nat} {t : TypeRef} (hdepth : hi - lo < depth')
    (h : (typeWithin L depth).Parses L lo hi t k) : (typeWithin L depth').Parses L lo hi t k := by
  induction depth generalizing lo t k depth' with
  | zero => cases h
  | succ depth ih =>
    obtain ⟨depth', rfl⟩ : ∃ d, depth' = d + 1 := ⟨depth' - 1, by omega⟩
    rw [parses_typeWithin_succ] at h ⊢
    obtain ⟨n, hname, ⟨hless, args, j, hargs, ht, hk⟩ | hsimple⟩ := h
    · -- The arguments stand further on, where less depth is enough.
      have hlt := hname.1
      have hargs' := parses_elements_of_imp
        (fun i _ _ hle harg => ⟨(bounds_typeWithin harg).1,
          ih (show hi - i < depth' by omega) harg⟩) hargs
      exact ⟨n, hname, .inl ⟨hless, args, j, hargs', ht, hk⟩⟩
    · exact ⟨n, hname, .inr hsimple⟩

theorem parses_type_of_within {depth : Nat} {t : TypeRef}
    (h : (typeWithin L depth).Parses L lo hi t k) : (type L).Parses L lo hi t k :=
  parses_type.2 (parses_typeWithin_of_lt (Nat.lt_succ_self _) h)

/-! ## Functions -/

theorem parses_param {p : Param} :
    (param L).Parses L lo hi p k ↔
      ∃ n, L.NameNext lo hi n ∧ L.Next (lo + 1) hi (.symbol .colon) ∧
        ∃ t j, (type L).Parses L (lo + 2) hi t j ∧ p = ⟨L.spanOf lo j, n.text, t⟩ ∧ k = j := by
  rw [param, parses_here_bind]
  simp only [parses_name_bind, parses_symbol_bind, parses_bind (r := type L), parses_spanFrom_bind,
    parses_pure]

theorem parses_resultType {result : Option TypeRef} :
    (resultType L).Parses L lo hi result k ↔
      L.Next lo hi (.symbol .colon) ∧
          (∃ t j, (type L).Parses L (lo + 1) hi t j ∧ result = some t ∧ k = j) ∨
        ¬ L.Next lo hi (.symbol .colon) ∧ result = none ∧ k = lo := by
  simp only [resultType, parses_nextIs_bind fun _ => accepts_symbol_iff, if_true,
    Bool.false_eq_true, if_false, parses_pure]
  refine or_congr_left (and_congr_right fun hcolon => ?_)
  simp only [parses_advance_bind hcolon.1, parses_bind (r := type L), parses_pure]

theorem parses_function {f : Fun} :
    (function L).Parses L lo hi f k ↔
      L.Next lo hi (.keyword .funKw) ∧ ∃ n, L.NameNext (lo + 1) hi n ∧
        L.Next (lo + 2) hi (.symbol .lparen) ∧
          ∃ params j, (elements L .rparen .comma (param L) (hi - (lo + 3) + 1)).Parses L (lo + 3) hi
              params j ∧
            ∃ result i, (resultType L).Parses L j hi result i ∧
              ∃ es m, (body L).Parses L i hi es m ∧
                f = ⟨L.spanOf lo m, n.text, params, result, es⟩ ∧ k = m := by
  simp only [function, parses_here_bind, parses_keyword_bind, parses_name_bind,
    parses_sequence_bind, parses_bind (r := resultType L), parses_bind (r := body L),
    parses_spanFrom_bind, parses_pure]

/-! ## Programs -/

theorem parses_peek?_bind {f : Option Lexeme → Rule α} {a : α} :
    (peek? L >>= f).Parses L lo hi a k ↔
      (f (Window.get? ⟨lo, hi⟩ L.lexemes 0)).Parses L lo hi a k := by
  rw [Parses, eval_bind]
  exact Iff.rfl

theorem functions_succ_cases {rounds : Nat} {fs : List Fun}
    (h : (functions L (rounds + 1)).Parses L lo hi fs k) :
    fs = [] ∧ k = L.newlineRun (hi - lo) lo ∨
      L.newlineRun (hi - lo) lo < hi ∧
        ∃ f j, (function L).Parses L (L.newlineRun (hi - lo) lo) hi f j ∧
          ∃ rest i, (functions L rounds).Parses L j hi rest i ∧ fs = f :: rest ∧ k = i := by
  rw [functions, parses_skipNewlines_bind, parses_peek?_bind] at h
  split at h
  · exact .inl (parses_pure.1 h)
  · obtain ⟨f, j, hf, h⟩ := parses_bind.1 h
    obtain ⟨rest, i, hrest, h⟩ := parses_bind.1 h
    obtain ⟨rfl, rfl⟩ := parses_pure.1 h
    exact .inr ⟨(parses_function.1 hf).1.1, f, j, hf, rest, _, hrest, rfl, rfl⟩

theorem parses_program {p : Program} :
    (program L).Parses L lo hi p k ↔
      ∃ fs j, (functions L (hi - lo + 1)).Parses L lo hi fs j ∧ p = ⟨L.spanOf lo j, fs⟩ ∧ k = j := by
  rw [program, parses_here_bind, parses_bind]
  simp only [parses_sized, parses_spanFrom_bind, parses_pure]

end Scriptlet.Grammar
