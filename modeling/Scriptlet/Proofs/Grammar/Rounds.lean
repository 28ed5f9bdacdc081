import Mathlib.Logic.Function.Iterate
import Scriptlet.Proofs.Grammar.Depth
import Scriptlet.Proofs.Grammar.Tabling

/-!
# Rounds are never used up

Elements, statements and functions are read in rounds, and types in layers; each definition gives up
when its rounds are spent.  That never decides anything.  Every round reads a lexeme before it goes
on to the next one, so in a window of `n` lexemes the loop ends before round `n + 1` does.  Whatever
rule is put in the place of giving up, it is not reached: `Rule.Ends`.
-/

namespace Scriptlet

variable {α β : Type}

/-! ## Equal as long as answers are good -/

/-- Both computations ask the same and give the same, as long as answers are as `Answers` says. -/
inductive Query.EqOn (Answers : Goal → Outcome Expr → Prop) : Query α → Query α → Prop
  | done (a : α) : EqOn Answers (.done a) (.done a)
  | ask (g : Goal) {resume resume' : Outcome Expr → Query α} :
      (∀ o, Answers g o → EqOn Answers (resume o) (resume' o)) →
      EqOn Answers (.ask g resume) (.ask g resume')

namespace Query

variable {Asks : Goal → Prop} {Answers : Goal → Outcome Expr → Prop}

theorem EqOn.refl (q : Query α) : q.EqOn Answers q := by
  induction q with
  | done a => exact .done a
  | ask g resume ih => exact .ask g fun o _ => ih o

theorem EqOn.bind {q q' : Query α} (h : q.EqOn Answers q') (f : α → Query β) :
    (q.bind f).EqOn Answers (q'.bind f) := by
  induction h with
  | done a => exact .refl (f a)
  | ask g _ ih => exact .ask g ih

/-- What comes behind a computation matters for its possible results only. -/
theorem Sat.eqOn_bind {q q' : Query α} {P : α → Prop} {f f' : α → Query β}
    (h : q.Sat Asks Answers P) (hq : q.EqOn Answers q')
    (hf : ∀ a, P a → (f a).EqOn Answers (f' a)) : (q.bind f).EqOn Answers (q'.bind f') := by
  induction hq with
  | done a => exact hf a h
  | ask g _ ih => exact .ask g fun o ho => ih o ho (h.2 o ho)

/-- Whoever has good answers cannot tell the two apart. -/
theorem Sat.run_eqOn {q q' : Query α} {P : α → Prop} {answer : Goal → Option (Outcome Expr)}
    (h : q.Sat Asks Answers P) (hq : q.EqOn Answers q')
    (hanswer : ∀ g, Asks g → ∃ o, answer g = some o ∧ Answers g o) :
    q'.run answer = q.run answer := by
  induction hq with
  | done a => rfl
  | ask g _ ih =>
    obtain ⟨o, ho, hgood⟩ := hanswer g h.1
    simp only [run, ho, Option.bind_eq_bind, Option.bind_some]
    exact ih o hgood (h.2 o hgood)

end Query

/-- On the lexemes from `lo` up to `hi` both rules ask the same and give the same, as long as
answers are good. -/
def Rule.EqOn (L : Layout) (r r' : Rule α) (lo hi : Nat) : Prop :=
  (r ⟨lo, hi⟩).EqOn (Goal.Good L) (r' ⟨lo, hi⟩)

namespace Rule

variable {L : Layout} {N lo hi : Nat} {w₀ : Window}

theorem EqOn.refl (r : Rule α) (lo hi : Nat) : r.EqOn L r lo hi := Query.EqOn.refl _

theorem EqOn.bind {r r' : Rule α} (h : r.EqOn L r' lo hi) (f : α → Rule β) :
    (r >>= f).EqOn L (r' >>= f) lo hi :=
  Query.EqOn.bind h _

theorem Spec.eqOn_bind {r r' : Rule α} {f f' : α → Rule β} {P : α → Nat → Prop}
    (h : r.Spec L N w₀ lo hi P) (hr : r.EqOn L r' lo hi)
    (hf : ∀ a k, P a k → (f a).EqOn L (f' a) k hi) : (r >>= f).EqOn L (r' >>= f') lo hi := by
  refine Query.Sat.eqOn_bind h hr ?_
  intro o ho
  cases o with
  | error e => exact .done _
  | ok found => exact hf found.1 found.2 ho

theorem Spec.outcome?_eqOn {r r' : Rule α} {depth : Nat} {P : α → Nat → Prop} (hL : L.Sound)
    (h : r.Spec L N w₀ lo hi P) (hr : r.EqOn L r' lo hi) (hdepth : N ≤ depth) :
    r'.outcome? L depth ⟨lo, hi⟩ = r.outcome? L depth ⟨lo, hi⟩ := by
  refine Query.Sat.run_eqOn h hr ?_
  rintro g ⟨hg, hsize⟩
  exact Goal.exists_solve hL hg (by omega)

/-- Rounds that go on behind the start of their window do not reach the end of the rounds. -/
theorem eqOn_rounds {r : Nat → Rule α} {round : Rule α → Rule α}
    (hsucc : ∀ n, r (n + 1) = round (r n))
    (hround : ∀ n again lo, w₀.Holds lo hi →
      (∀ k, lo < k → w₀.Holds k hi → (r n).EqOn L again k hi) →
      (round (r n)).EqOn L (round again) lo hi)
    (spent : Rule α) {n m : Nat} (hw : w₀.Holds lo hi) (hn : hi - lo < n) (hm : hi - lo < m) :
    (r n).EqOn L (round^[m] spent) lo hi := by
  -- Both loops take one round each; what is left of the window gets shorter with it.
  induction n generalizing m lo with
  | zero => omega
  | succ n ih =>
    obtain ⟨m, rfl⟩ : ∃ m', m = m' + 1 := ⟨m - 1, by omega⟩
    rw [hsucc, Function.iterate_succ_apply']
    apply hround n _ _ hw
    intro k hlt hk
    have hvalid := hk.valid
    exact ih hk (by omega) (by omega)

/-- `r` is a loop with the given round.  With more rounds than the window has lexemes it has one
outcome, whatever rule stands where the rounds are spent. -/
structure Ends (L : Layout) (w : Window) (r : Nat → Rule α) (round : Rule α → Rule α) : Prop where
  zero : r 0 = fail .endOfInput
  succ : ∀ n, r (n + 1) = round (r n)
  ends : ∃ o, ∀ spent rounds depth, w.length < rounds → w.enoughDepth ≤ depth →
    (round^[rounds] spent).outcome? L depth w = some o

theorem Spec.ends (hL : L.Sound) {w : Window} {r : Nat → Rule α} {round : Rule α → Rule α}
    {P : α → Nat → Prop} (hw : w.Holds w.lo w.hi) (hzero : r 0 = fail .endOfInput)
    (hsucc : ∀ n, r (n + 1) = round (r n))
    (hspec : (r (w.length + 1)).Spec L w.enoughDepth w w.lo w.hi P)
    (hround : ∀ n again lo, w.Holds lo w.hi →
      (∀ k, lo < k → w.Holds k w.hi → (r n).EqOn L again k w.hi) →
      (round (r n)).EqOn L (round again) lo w.hi) : Ends L w r round where
  zero := hzero
  succ := hsucc
  ends := by
    obtain ⟨o, ho, -⟩ := hspec.exists_outcome hL (Nat.le_refl _)
    refine ⟨o, fun spent rounds depth hrounds hdepth => ?_⟩
    -- The loop as it is run has an outcome; any other loop with rounds enough reads alike.
    have heq := eqOn_rounds hsucc hround spent hw (Nat.lt_succ_self _) hrounds
    have hsame := hspec.outcome?_eqOn hL heq hdepth
    exact hsame.trans (outcome?_of_le hdepth ho)

end Rule

/-! ## Rounds of the grammar -/

namespace Grammar

open Rule

section

variable (L : Layout)

/-- A round of `elements`; `again` reads the elements behind this one. -/
def elementsRound (close separator : Punct) (element : Rule α) (again : Rule (List α)) :
    Rule (List α) := do
  if ← accept L (.symbol close) then return []
  let x ← element
  let _ ← accept L (.symbol separator)
  let xs ← again
  return x :: xs

/-- A round of `statements`; `again` reads the statements behind this one. -/
def statementsRound (again : Rule (List Expr)) : Rule (List Expr) := do
  skipNewlines L
  if ← accept L (.symbol .rbrace) then return []
  let s ← level .top
  let rest ← again
  return s :: rest

/-- A round of `functions`; `again` reads the functions behind this one. -/
def functionsRound (again : Rule (List Fun)) : Rule (List Fun) := do
  skipNewlines L
  match ← peek? L with
  | none => return []
  | some _ =>
    let f ← function L
    let fs ← again
    return f :: fs

/-- A layer of `typeWithin`; `again` reads the types inside of this one. -/
def typeLayer (again : Rule TypeRef) : Rule TypeRef := do
  let start ← here
  let n ← name L
  if ← nextIs L (.symbol .less) then
    let args ← sequence L .less .greater .comma again
    return .generic (← spanFrom L start) n.text args
  else return .simple n.span n.text

end

section

variable {L : Layout} {N lo hi : Nat} {w₀ w : Window}

/-- Where the symbol is there or not, reading goes on from a place inside of the window. -/
theorem spec_accept_holds (p : Punct) (hw : w₀.Holds lo hi) :
    (accept L (.symbol p)).Spec L N w₀ lo hi fun _ k => lo ≤ k ∧ w₀.Holds k hi := by
  refine (spec_accept p).imp ?_
  rintro found k (⟨-, rfl, hread⟩ | ⟨-, rfl⟩)
  · exact ⟨Nat.le_succ _, holds_rest hw hread⟩
  · exact ⟨Nat.le_refl _, hw⟩

/-- A rule that reads at least one lexeme, wherever in `w₀` it starts, and accounts for it. -/
def Steady (L : Layout) (N : Nat) (w₀ : Window) (hi : Nat) (T : α → List Token) (item : Rule α) :
    Prop :=
  ∀ lo, w₀.Holds lo hi → item.Spec L N w₀ lo hi fun x k => lo < k ∧ L.Reads hi lo k (T x)

/-- A round reads alike if the element does and what comes behind it does. -/
theorem eqOn_elementsRound {close separator : Punct} {element element' : Rule α}
    {again again' : Rule (List α)} {T : α → List Token} (hitem : Steady L N w₀ hi T element)
    (heq : ∀ k, lo ≤ k → w₀.Holds k hi → element.EqOn L element' k hi)
    (hagain : ∀ k, lo < k → w₀.Holds k hi → again.EqOn L again' k hi) (hw : w₀.Holds lo hi) :
    (elementsRound L close separator element again).EqOn L
      (elementsRound L close separator element' again') lo hi := by
  refine (spec_accept_holds (N := N) close hw).eqOn_bind (.refl _ _ _) ?_
  rintro closed k ⟨hlo, hk⟩
  cases closed with
  | true => exact .refl _ _ _
  | false =>
    refine (hitem k hk).eqOn_bind (heq k hlo hk) ?_
    rintro x k₁ ⟨hlt, hread⟩
    refine (spec_accept_holds (N := N) separator (holds_rest hk hread)).eqOn_bind (.refl _ _ _) ?_
    rintro _ k₂ ⟨hle, hk₂⟩
    -- The next round starts behind the element, whether a separator stands there or not.
    exact (hagain k₂ (by omega) hk₂).bind fun xs => pure (x :: xs)

theorem eqOn_elements {close separator : Punct} {element element' : Rule α} {T : α → List Token}
    (hitem : Steady L N w₀ hi T element)
    (heq : ∀ k, lo ≤ k → w₀.Holds k hi → element.EqOn L element' k hi) (rounds : Nat)
    (hw : w₀.Holds lo hi) :
    (elements L close separator element rounds).EqOn L
      (elements L close separator element' rounds) lo hi := by
  induction rounds generalizing lo with
  | zero => exact .refl _ _ _
  | succ rounds ih =>
    -- Here the rounds are as many on both sides, and it is the element that differs.
    refine eqOn_elementsRound hitem heq (fun k hlt hk => ?_) hw
    exact ih (fun k' hk' => heq k' (by omega)) hk

theorem eqOn_sequence {opening close separator : Punct} {element element' : Rule α}
    {T : α → List Token} (hitem : Steady L N w₀ hi T element)
    (heq : ∀ k, lo < k → w₀.Holds k hi → element.EqOn L element' k hi) (hw : w₀.Holds lo hi) :
    (sequence L opening close separator element).EqOn L
      (sequence L opening close separator element') lo hi := by
  refine (spec_symbol (N := N) opening hw).eqOn_bind (.refl _ _ _) ?_
  rintro _ _ ⟨rfl, hopen⟩
  exact eqOn_elements hitem heq _ (holds_rest hw hopen)

/-- A statement is read before the next round starts. -/
theorem eqOn_statementsRound {again again' : Rule (List Expr)} (hw₀ : w₀.Within L.lexemes.size)
    (hagain : ∀ k, lo < k → w₀.Holds k hi → again.EqOn L again' k hi) (hw : w₀.Holds lo hi) :
    (statementsRound L again).EqOn L (statementsRound L again') lo hi := by
  have hskip : (skipNewlines L).Spec L w₀.enoughDepth w₀ lo hi fun _ k => L.Reads hi lo k [] :=
    spec_skipNewlines hw.valid
  refine hskip.eqOn_bind (.refl _ _ _) ?_
  intro _ k hread
  have hk := holds_rest hw hread
  refine (spec_accept_holds (N := w₀.enoughDepth) .rbrace hk).eqOn_bind (.refl _ _ _) ?_
  rintro closed k₁ ⟨hle, hk₁⟩
  cases closed with
  | true => exact .refl _ _ _
  | false =>
    refine (spec_level hw₀ hk₁ (Nat.lt_succ_self _)).eqOn_bind (.refl _ _ _) ?_
    rintro s k₂ ⟨hlt, hs⟩
    have hstart := hread.start
    exact (hagain k₂ (by omega) (holds_rest hk₁ hs)).bind fun rest => pure (s :: rest)

/-- A function is read before the next round starts. -/
theorem eqOn_functionsRound {again again' : Rule (List Fun)} (hw₀ : w₀.Within L.lexemes.size)
    (hagain : ∀ k, lo < k → w₀.Holds k hi → again.EqOn L again' k hi) (hw : w₀.Holds lo hi) :
    (functionsRound L again).EqOn L (functionsRound L again') lo hi := by
  have hskip : (skipNewlines L).Spec L w₀.enoughDepth w₀ lo hi fun _ k => L.Reads hi lo k [] :=
    spec_skipNewlines hw.valid
  refine hskip.eqOn_bind (.refl _ _ _) ?_
  intro _ k hread
  have hk := holds_rest hw hread
  have hpeek : (peek? L).Spec L w₀.enoughDepth w₀ k hi fun _ k' => k' = k := rfl
  refine hpeek.eqOn_bind (.refl _ _ _) ?_
  rintro next? _ rfl
  cases next? with
  | none => exact .refl _ _ _
  | some _ =>
    refine (spec_function hw₀ hk (Nat.le_refl _)).eqOn_bind (.refl _ _ _) ?_
    intro f k₁ hf
    have hstart := hread.start
    have hlt := hf.lt f.strip_tokens_ne_nil
    exact (hagain k₁ (by omega) (holds_rest hk hf)).bind fun fs => pure (f :: fs)

/-- The name of a type is read before the types inside of it. -/
theorem eqOn_typeLayer (n : Nat) {again : Rule TypeRef}
    (hagain : ∀ k, lo < k → w₀.Holds k hi → (typeWithin L n).EqOn L again k hi)
    (hw : w₀.Holds lo hi) :
    (typeLayer L (typeWithin L n)).EqOn L (typeLayer L again) lo hi := by
  have hitem : Steady L 0 w₀ hi (fun t => Token.strip t.tokens) (typeWithin L n) :=
    fun _ => spec_typeWithin n
  have hhere : here.Spec L 0 w₀ lo hi fun start k => start = lo ∧ k = lo := spec_here
  refine hhere.eqOn_bind (.refl _ _ _) ?_
  rintro _ lo ⟨rfl, rfl⟩
  refine (spec_name (N := 0) hw).eqOn_bind (.refl _ _ _) ?_
  rintro name _ ⟨rfl, hname⟩
  have hrest := holds_rest hw hname
  have hnext : (nextIs L (.symbol .less)).Spec L 0 w₀ (lo + 1) hi _ :=
    spec_nextIs fun _ => eq_of_accepts_symbol
  refine hnext.eqOn_bind (.refl _ _ _) ?_
  rintro follows _ ⟨rfl, -⟩
  cases follows with
  | false =>
    rw [if_neg (by simp), if_neg (by simp)]
    exact .refl _ _ _
  | true =>
    rw [if_pos rfl, if_pos rfl]
    exact (eqOn_sequence hitem (fun k hk => hagain k (by omega)) hrest).bind _

/-! ## Loops of the grammar -/

section

variable (hL : L.Sound) (hw : w.Within L.lexemes.size)

include hL hw

theorem ends_elements {close separator : Punct} (hseparator : Token.strip [.symbol separator] = [])
    {item : Rule α} {T : α → List Token} (hitem : Steady L w.enoughDepth w w.hi T item) :
    Ends L w (elements L close separator item) (elementsRound L close separator item) := by
  have hread : ∀ k, w.lo ≤ k → w.Holds k w.hi →
      item.Spec L w.enoughDepth w k w.hi fun x k' => L.Reads w.hi k k' (T x) :=
    fun k _ hk => (hitem k hk).imp fun _ _ h => h.2
  refine Spec.ends hL hw.holds rfl (fun _ => rfl) (spec_elements hseparator hread _ hw.holds) ?_
  intro n again lo hlo hagain
  exact eqOn_elementsRound hitem (fun _ _ _ => .refl _ _ _) hagain hlo

theorem ends_statements : Ends L w (statements L) (statementsRound L) := by
  have hdepth := w.lt_enoughDepth
  have hspec := spec_statements hw (w.length + 1) hw.holds (show _ < w.enoughDepth by omega)
  refine Spec.ends hL hw.holds rfl (fun _ => rfl) hspec ?_
  intro n again lo hlo hagain
  exact eqOn_statementsRound hw hagain hlo

theorem ends_functions : Ends L w (functions L) (functionsRound L) := by
  have hdepth := w.lt_enoughDepth
  have hspec := spec_functions hw (w.length + 1) hw.holds (show _ ≤ w.enoughDepth by omega)
  refine Spec.ends hL hw.holds rfl (fun _ => rfl) hspec ?_
  intro n again lo hlo hagain
  exact eqOn_functionsRound hw hagain hlo

theorem ends_typeWithin : Ends L w (typeWithin L) (typeLayer L) := by
  refine Spec.ends hL hw.holds rfl (fun _ => rfl) (spec_typeWithin _ hw.holds) ?_
  intro n again lo hlo hagain
  exact eqOn_typeLayer n hagain hlo

end

end

end Grammar

end Scriptlet
