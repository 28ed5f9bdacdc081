import Scriptlet.Proofs.Grammar.Accounts

/-!
# One table for many requests

A table outlives the call that filled it: whoever keeps it may ask for further fragments, from other
windows and by other rules, and finds the answers of earlier calls in it.  A `Request` is such a
call.  Requests made one after the other with one table give what each of them gives without any
table, because every table that requests can leave behind is correct.
-/

namespace Scriptlet

variable {α : Type} {L : Layout}

/-! ## Every production -/

/-- Where reading stops on a window: a program at its end, everything else behind its start. -/
def Production.Stops (w : Window) (k : Nat) : Production → Prop
  | program => w.lo ≤ k ∧ k = w.hi
  | _ => w.lo < k ∧ k ≤ w.hi

/-- What has tokens that matter is read from at least one lexeme. -/
theorem Layout.Reads.lt {hi lo k : Nat} {ts : List Token} (h : L.Reads hi lo k ts) (hts : ts ≠ []) :
    lo < k := by
  refine Nat.lt_of_le_of_ne h.start ?_
  rintro rfl
  exact hts (h.yield_eq.symm.trans (yield_self lo))

theorem TypeRef.strip_tokens_ne_nil (t : TypeRef) : Token.strip t.tokens ≠ [] := by
  cases t <;> simp [tokens, Token.isLayout]

theorem Param.strip_tokens_ne_nil (p : Param) : Token.strip p.tokens ≠ [] := by
  simp [tokens, Token.isLayout]

theorem Fun.strip_tokens_ne_nil (f : Fun) : Token.strip f.tokens ≠ [] := by
  simp [tokens, Token.isLayout]

/-- A rule whose result is only wrapped asks no more than before and stops where it did. -/
theorem Rule.spec_wrap {r : Rule α} {make : α → Fragment} {N lo hi : Nat} {w₀ : Window}
    {P : α → Nat → Prop} {Q : Nat → Prop} (h : r.Spec L N w₀ lo hi P) (hPQ : ∀ a k, P a k → Q k) :
    Rule.Spec L N w₀ (do return make (← r)) lo hi fun _ => Q :=
  Rule.spec_bind h fun a k ha => Rule.spec_pure (hPQ a k ha)

/-- Every production asks goals inside of its window only, and none that needs more than enough
depth; it stops in its window. -/
theorem Production.spec_rule (hL : L.Sound) (p : Production) {w : Window}
    (hw : w.Within L.lexemes.size) :
    (p.rule L).Spec L w.enoughDepth w w.lo w.hi fun _ k => p.Stops w k := by
  have hholds := hw.holds
  have hdepth := w.lt_enoughDepth
  have hN : 2 * (w.hi - w.lo) ≤ w.enoughDepth := by omega
  -- The five levels are asked as goals of their own, on the whole window.
  have hlevel : ∀ l, (Rule.level l).Spec L w.enoughDepth w w.lo w.hi (L.Gives w.hi w.lo) :=
    fun l => Rule.spec_level hw hholds (Goal.size_lt_enoughDepth hholds l)
  have hread : ∀ {ts k}, L.Reads w.hi w.lo k ts → ts ≠ [] → w.lo < k ∧ k ≤ w.hi :=
    fun h hts => ⟨h.lt hts, h.stop⟩
  have hexpr : ∀ e k, L.Gives w.hi w.lo e k → w.lo < k ∧ k ≤ w.hi := fun _ _ h => ⟨h.1, h.2.stop⟩
  cases p with
  | program =>
    exact Rule.spec_wrap (Grammar.spec_program hw hholds hN) fun _ _ h => ⟨h.2.start, h.1⟩
  | function =>
    exact Rule.spec_wrap (Grammar.spec_function hw hholds hN)
      fun f _ h => hread h f.strip_tokens_ne_nil
  | param =>
    exact Rule.spec_wrap (Grammar.spec_param hholds) fun p _ h => hread h p.strip_tokens_ne_nil
  | type =>
    exact Rule.spec_wrap (Grammar.spec_type hholds) fun t _ h => hread h t.strip_tokens_ne_nil
  | body => exact Rule.spec_wrap (Grammar.spec_body hw hholds hN) fun _ _ h => ⟨h.1, h.2.stop⟩
  | expr | top | math | comparison | short => exact Rule.spec_wrap (hlevel _) hexpr
  | control => exact Rule.spec_wrap (Grammar.spec_control hw hholds hN) hexpr
  | binding => exact Rule.spec_wrap (Grammar.spec_binding hw hholds hN) hexpr
  | assign => exact Rule.spec_wrap (Grammar.spec_assign hw hholds hN) hexpr
  | call => exact Rule.spec_wrap (Grammar.spec_call hw hholds hN) hexpr
  | store => exact Rule.spec_wrap (Grammar.spec_store hw hholds hN) hexpr
  | branch => exact Rule.spec_wrap (Grammar.spec_branch hw hholds hN) hexpr
  | forIn => exact Rule.spec_wrap (Grammar.spec_forIn hw hholds hN) hexpr
  | loop => exact Rule.spec_wrap (Grammar.spec_loop hw hholds hN) hexpr
  | ret => exact Rule.spec_wrap (Grammar.spec_ret hw hholds hN) hexpr
  | neg => exact Rule.spec_wrap (Grammar.spec_neg hw hholds hN) hexpr
  | not => exact Rule.spec_wrap (Grammar.spec_not hw hholds hN) hexpr
  | parens => exact Rule.spec_wrap (Grammar.spec_parens hw hholds hN hL) hexpr
  | literal => exact Rule.spec_wrap (Grammar.spec_literal hholds) hexpr
  | variableName => exact Rule.spec_wrap (Grammar.spec_variableName hholds) hexpr
  | index => exact Rule.spec_wrap (Grammar.spec_index hw hholds hN) hexpr
  | operation op => exact Rule.spec_wrap (Grammar.spec_binary hw hholds hN hL op) hexpr

/-! ## Requests one after the other -/

/-- A production to read, and the window to read it from. -/
structure Request where
  production : Production
  window : Window

namespace Request

/-- What a request gives when every question is worked out anew. -/
def plain? (L : Layout) (q : Request) : Option (Outcome Fragment) :=
  (q.production.rule L).outcome? L q.window.enoughDepth q.window

/-- What a request gives with a table, and the table that it leaves. -/
def tabled (L : Layout) (q : Request) : Tabled (Outcome Fragment) :=
  (q.production.rule L).tabled L q.window.enoughDepth q.window

/-- Without a table every request for a window of the lexemes has an outcome. -/
theorem exists_plain? (hL : L.Sound) {q : Request} (hw : q.window.Within L.lexemes.size) :
    ∃ o, q.plain? L = some o := by
  obtain ⟨o, ho, -⟩ := (q.production.spec_rule hL hw).exists_outcome hL (Nat.le_refl _)
  exact ⟨o, ho⟩

/-- One request: from a correct table it gives what it gives without, and the table stays
correct. -/
theorem tabled_step {q : Request} {o : Outcome Fragment} {T : Table} (h : q.plain? L = some o)
    (hT : T.Correct L) : ∃ T', q.tabled L T = some (o, T') ∧ T'.Correct L :=
  Query.run_of_agree (Goal.agree_solveTabled _) h hT

/-- Many requests: what one of them keeps, a sequence of them keeps. -/
theorem tabled_run {qs : List Request} {os : List (Outcome Fragment)}
    (h : qs.mapM (plain? L) = some os) {T : Table} (hT : T.Correct L) :
    ∃ T', qs.mapM (tabled L) T = some (os, T') ∧ T'.Correct L := by
  induction qs generalizing os T with
  | nil =>
    rw [List.mapM_nil] at h ⊢
    obtain rfl : [] = os := Option.some.inj h
    exact ⟨T, rfl, hT⟩
  | cons q qs ih =>
    rw [List.mapM_cons] at h ⊢
    obtain ⟨o, ho, hrest⟩ := Option.bind_eq_some_iff.1 h
    obtain ⟨os', hos', hpure⟩ := Option.bind_eq_some_iff.1 hrest
    obtain rfl : o :: os' = os := Option.some.inj hpure
    obtain ⟨T₁, hq, hT₁⟩ := tabled_step ho hT
    -- The other requests start with whatever this one has added to the table.
    obtain ⟨T₂, hqs, hT₂⟩ := ih hos' hT₁
    refine ⟨T₂, ?_, hT₂⟩
    show (q.tabled L T).bind (fun found => (qs.mapM (tabled L) found.2).bind _) = _
    rw [hq, Option.bind_some, hqs]
    rfl

/-- Without a table every sequence of requests for windows of the lexemes has outcomes. -/
theorem exists_plain?_each (hL : L.Sound) {qs : List Request}
    (hqs : ∀ q ∈ qs, q.window.Within L.lexemes.size) : ∃ os, qs.mapM (plain? L) = some os := by
  induction qs with
  | nil => exact ⟨[], rfl⟩
  | cons q qs ih =>
    obtain ⟨o, ho⟩ := exists_plain? hL (hqs q List.mem_cons_self)
    obtain ⟨os, hos⟩ := ih fun q' hq' => hqs q' (List.mem_cons_of_mem _ hq')
    refine ⟨o :: os, ?_⟩
    rw [List.mapM_cons, ho, hos]
    rfl

/-- A table that is kept changes nothing.  Whatever is requested, in whatever order and however
often, each request has an outcome, and it is the outcome that the request has without any table. -/
theorem mapM_tabled_eq (lexemes : List Lexeme) (qs : List Request)
    (hqs : ∀ q ∈ qs, q.window.Within lexemes.length) :
    ∃ os, (qs.mapM (tabled (.indexed lexemes))).run' ∅ = some os ∧
      qs.mapM (plain? (.indexed lexemes)) = some os := by
  obtain ⟨os, hos⟩ : ∃ os, qs.mapM (plain? (.indexed lexemes)) = some os := by
    apply exists_plain?_each (Layout.sound_indexed lexemes)
    simpa [Layout.indexed] using hqs
  obtain ⟨T, hrun, -⟩ := tabled_run hos Table.correct_empty
  refine ⟨os, ?_, hos⟩
  show (qs.mapM (tabled (.indexed lexemes)) ∅).map Prod.fst = some os
  rw [hrun]
  rfl

/-- The lexemes of `f(1`. -/
def unclosed : List Lexeme :=
  [⟨.ident "f", ⟨0, 1⟩, "f"⟩, ⟨.symbol .lparen, ⟨1, 2⟩, "("⟩, ⟨.int 1, ⟨2, 3⟩, "1"⟩]

theorem mapM_tabled_eq_unclosed :
    ∃ os, (List.mapM (tabled (.indexed unclosed)) [⟨.expr, ⟨0, 3⟩⟩, ⟨.call, ⟨0, 3⟩⟩,
        ⟨.parens, ⟨1, 3⟩⟩, ⟨.expr, ⟨0, 3⟩⟩]).run' ∅ = some os ∧
      List.mapM (plain? (.indexed unclosed)) [⟨.expr, ⟨0, 3⟩⟩, ⟨.call, ⟨0, 3⟩⟩,
        ⟨.parens, ⟨1, 3⟩⟩, ⟨.expr, ⟨0, 3⟩⟩] = some os := by
  apply mapM_tabled_eq unclosed
  simp [Window.Within, unclosed]

end Request

end Scriptlet
