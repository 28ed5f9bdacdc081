import Scriptlet.Proofs.Grammar.Nesting
import Scriptlet.Syntax.Tokens

/-!
# What rules promise

A rule is a query, so what it promises can be stated without saying who answers: `Query.Sat` bounds
what is asked and says what comes out as long as the answers are good.  A good answer stays in its
window, moves on, and accounts for every token that it passes; an error points into the window.
-/

namespace Scriptlet

/-! ## Tokens that matter -/

/-- Leaves out the tokens that only lay a program out. -/
def Token.strip (ts : List Token) : List Token := ts.filter fun t => !t.isLayout

namespace Token

@[simp] theorem strip_nil : strip [] = [] := rfl

@[simp] theorem strip_append (ts us : List Token) : strip (ts ++ us) = strip ts ++ strip us :=
  List.filter_append ..

@[simp] theorem strip_cons (t : Token) (ts : List Token) :
    strip (t :: ts) = if t.isLayout then strip ts else t :: strip ts := by
  cases h : t.isLayout <;> simp [strip, h]

end Token

namespace Layout

/-- The tokens that matter from lexeme `lo` up to, not including, lexeme `k`. -/
def yield (L : Layout) (lo k : Nat) : List Token :=
  Token.strip (((L.lexemes.toList.drop lo).take (k - lo)).map Lexeme.token)

variable {L : Layout}

@[simp] theorem yield_self (lo : Nat) : L.yield lo lo = [] := by simp [yield]

/-- What a stretch yields is what its two parts yield. -/
theorem yield_append {lo m k : Nat} (hlo : lo ≤ m) (hk : m ≤ k) :
    L.yield lo m ++ L.yield m k = L.yield lo k := by
  have hsplit : k - lo = (m - lo) + (k - m) := by omega
  have hdrop : lo + (m - lo) = m := by omega
  rw [yield, yield, yield, hsplit, List.take_add, List.map_append, Token.strip_append,
    List.drop_drop, hdrop]

theorem yield_succ {lo : Nat} {l : Lexeme} (h : L.lexemes[lo]? = some l) :
    L.yield lo (lo + 1) = Token.strip [l.token] := by
  have hget : L.lexemes.toList[lo]? = some l := by simpa using h
  obtain ⟨hlt, rfl⟩ := List.getElem?_eq_some_iff.1 hget
  rw [yield, List.drop_eq_getElem_cons hlt]
  simp

/-- From lexeme `lo` up to `k`, at most up to `hi`, the tokens that matter are `ts`. -/
structure Reads (L : Layout) (hi lo k : Nat) (ts : List Token) : Prop where
  start : lo ≤ k
  stop : k ≤ hi
  yield_eq : L.yield lo k = ts

namespace Reads

variable {hi lo m k : Nat} {ts us : List Token}

theorem refl (h : lo ≤ hi) : L.Reads hi lo lo [] := ⟨Nat.le_refl _, h, yield_self lo⟩

/-- Stretches that are read one behind the other are read as one. -/
theorem append (h : L.Reads hi lo m ts) (h' : L.Reads hi m k us) : L.Reads hi lo k (ts ++ us) :=
  ⟨Nat.le_trans h.start h'.start, h'.stop, by
    rw [← yield_append h.start h'.start, h.yield_eq, h'.yield_eq]⟩

theorem congr (h : L.Reads hi lo k ts) (hts : ts = us) : L.Reads hi lo k us := hts ▸ h

/-- One lexeme is read as its token, or as nothing if that only lays the program out. -/
theorem token {l : Lexeme} (hget : L.lexemes[lo]? = some l) (hlt : lo < hi) :
    L.Reads hi lo (lo + 1) (Token.strip [l.token]) :=
  ⟨by omega, hlt, yield_succ hget⟩

end Reads

/-- What is found by a search is where it is said to be. -/
structure Sound (L : Layout) : Prop where
  closing : ∀ {w : Window} {p : Nat}, w.Within L.lexemes.size → L.closing? w = some p →
    w.lo ≤ p ∧ p < w.hi
  find : ∀ {w : Window} {t : Token} {p : Nat}, w.Within L.lexemes.size → L.find? t w = some p →
    w.lo ≤ p ∧ p < w.hi ∧ ∃ l, L.lexemes[p]? = some l ∧ l.token = t

theorem within_indexed {w : Window} {lexemes : List Lexeme} :
    w.Within (indexed lexemes).lexemes.size ↔ w.Within lexemes.length := by
  simp [indexed]

/-- Tables give sound searches. -/
theorem sound_indexed (lexemes : List Lexeme) : (indexed lexemes).Sound where
  closing := by
    intro w p hw h
    have hw := within_indexed.1 hw
    rw [closing?_indexed hw] at h
    rw [show (scanned lexemes).closing? w = Search.closing? lexemes.toArray w from rfl,
      Search.closing?_eq hw.1, Option.filter_eq_some_iff] at h
    exact ⟨(Nesting.firstAt_bounds h.1).1, by simpa using h.2⟩
  find := by
    intro w t p hw h
    have hw := within_indexed.1 hw
    rw [find?_indexed hw] at h
    rw [show (scanned lexemes).find? t w = Search.find? lexemes.toArray t w from rfl,
      Search.find?_eq hw.1 hw.2, Option.filter_eq_some_iff] at h
    obtain ⟨hlo, hget⟩ := Nesting.firstAt_bounds h.1
    have hbound : p < w.hi ∧ _ := Nat.lt_min.1 (by simpa using h.2)
    have hsum : w.lo + (p - w.lo) = p := by omega
    rw [List.getElem?_drop, hsum, List.getElem?_map, Option.map_eq_some_iff] at hget
    exact ⟨hlo, hbound.1, by simpa [indexed] using hget⟩

end Layout

/-! ## Windows and errors -/

/-- The lexemes from `lo` up to `hi` lie inside of a window. -/
structure Window.Holds (w₀ : Window) (lo hi : Nat) : Prop where
  start : w₀.lo ≤ lo
  valid : lo ≤ hi
  stop : hi ≤ w₀.hi

theorem Window.Within.holds {w : Window} {n : Nat} (hw : w.Within n) : w.Holds w.lo w.hi :=
  ⟨Nat.le_refl _, hw.1, Nat.le_refl _⟩

/-- The error is about the end of the input, or points at a lexeme of the window. -/
def SyntaxError.PointsInto (L : Layout) (w : Window) (e : SyntaxError) : Prop :=
  e = .endOfInput ∨ ∃ i l, w.lo ≤ i ∧ i < w.hi ∧ L.lexemes[i]? = some l ∧ e.lexeme? = some l

/-- An error that points into a part of a window points into the window. -/
theorem SyntaxError.PointsInto.mono {L : Layout} {w₀ : Window} {lo hi : Nat}
    (hw : w₀.Holds lo hi) {e : SyntaxError} (h : e.PointsInto L ⟨lo, hi⟩) : e.PointsInto L w₀ := by
  rcases h with rfl | ⟨i, l, hlo, hhi, hget, he⟩
  · exact .inl rfl
  · exact .inr ⟨i, l, Nat.le_trans hw.start hlo, Nat.lt_of_lt_of_le hhi hw.stop, hget, he⟩

/-- A result and where reading stopped are as `P` says; an error points into the window. -/
def Outcome.Meets {α : Type} (L : Layout) (w : Window) (P : α → Nat → Prop) : Outcome α → Prop
  | .ok (a, k) => P a k
  | .error e => e.PointsInto L w

/-- Something was read from `lo` on, at most up to `hi`, and what was read are the tokens of `e`. -/
def Layout.Gives (L : Layout) (hi lo : Nat) (e : Expr) (k : Nat) : Prop :=
  lo < k ∧ L.Reads hi lo k (Token.strip e.tokens)

/-- A good answer to a goal. -/
def Goal.Good (L : Layout) (g : Goal) : Outcome Expr → Prop :=
  Outcome.Meets L g.window (L.Gives g.window.hi g.window.lo)

/-- How many questions may be nested below a goal. -/
def Goal.size (g : Goal) : Nat :=
  2 * g.window.length + if g.level = .expr then 1 else 0

theorem Goal.size_le (l : Level) (lo hi : Nat) : Goal.size ⟨l, ⟨lo, hi⟩⟩ ≤ 2 * (hi - lo) + 1 := by
  simp only [Goal.size, Window.length]
  split <;> omega

/-! ## Queries -/

namespace Query

variable {α β : Type} {Asks : Goal → Prop} {Answers : Goal → Outcome Expr → Prop}

/-- Only what `Asks` says is asked, and the result is as `P` says if answers are as `Answers` says. -/
def Sat (Asks : Goal → Prop) (Answers : Goal → Outcome Expr → Prop) (P : α → Prop) :
    Query α → Prop
  | done a => P a
  | ask g resume => Asks g ∧ ∀ o, Answers g o → (resume o).Sat Asks Answers P

/-- A promise about what follows needs only what is promised before. -/
theorem Sat.bind {q : Query α} {f : α → Query β} {Q : α → Prop} {P : β → Prop}
    (h : q.Sat Asks Answers Q) (hf : ∀ a, Q a → (f a).Sat Asks Answers P) :
    (q.bind f).Sat Asks Answers P := by
  induction q with
  | done a => exact hf a h
  | ask g resume ih => exact ⟨h.1, fun o ho => ih o (h.2 o ho)⟩

theorem Sat.imp {q : Query α} {Q P : α → Prop} (h : q.Sat Asks Answers Q)
    (hQP : ∀ a, Q a → P a) : q.Sat Asks Answers P := by
  induction q with
  | done a => exact hQP a h
  | ask g resume ih => exact ⟨h.1, fun o ho => ih o (h.2 o ho)⟩

/-- Whoever has a good answer to everything that is asked gets a good result. -/
theorem Sat.run_some {q : Query α} {P : α → Prop} {answer : Goal → Option (Outcome Expr)}
    (h : q.Sat Asks Answers P)
    (hanswer : ∀ g, Asks g → ∃ o, answer g = some o ∧ Answers g o) :
    ∃ a, q.run answer = some a ∧ P a := by
  induction q with
  | done a => exact ⟨a, rfl, h⟩
  | ask g resume ih =>
    obtain ⟨o, ho, hgood⟩ := hanswer g h.1
    obtain ⟨a, ha, hP⟩ := ih o (h.2 o hgood)
    exact ⟨a, by simp only [run, Option.bind_eq_bind, ho, Option.bind_some, ha], hP⟩

end Query

/-! ## Rules -/

/-- On the lexemes from `lo` up to `hi` the rule asks only goals smaller than `N`.  If these are
answered well it gives a result as `P` says, or an error that points into `w₀`. -/
def Rule.Spec {α : Type} (L : Layout) (N : Nat) (w₀ : Window) (r : Rule α) (lo hi : Nat)
    (P : α → Nat → Prop) : Prop :=
  (r ⟨lo, hi⟩).Sat (fun g => g.window.Within L.lexemes.size ∧ g.size < N) (Goal.Good L)
    (Outcome.Meets L w₀ P)

namespace Rule

variable {α β : Type} {L : Layout} {N : Nat} {w₀ : Window} {lo hi : Nat}

/-- What is promised of one rule after the other is what the second promises behind the first. -/
theorem spec_bind {r : Rule α} {f : α → Rule β} {Q : α → Nat → Prop} {P : β → Nat → Prop}
    (h : r.Spec L N w₀ lo hi Q) (hf : ∀ a k, Q a k → (f a).Spec L N w₀ k hi P) :
    (r >>= f).Spec L N w₀ lo hi P := by
  refine Query.Sat.bind h ?_
  intro o ho
  cases o with
  | error e => exact ho
  | ok found => exact hf found.1 found.2 ho

theorem spec_pure {a : α} {P : α → Nat → Prop} (h : P a lo) :
    (pure a : Rule α).Spec L N w₀ lo hi P := h

theorem Spec.imp {r : Rule α} {Q P : α → Nat → Prop} (h : r.Spec L N w₀ lo hi Q)
    (hPQ : ∀ a k, Q a k → P a k) : r.Spec L N w₀ lo hi P := by
  refine Query.Sat.imp h ?_
  intro o ho
  cases o with
  | error e => exact ho
  | ok found => exact hPQ found.1 found.2 ho

/-- An error keeps any promise about results, if it points into the window. -/
theorem spec_fail {e : SyntaxError} {P : α → Nat → Prop} (h : e.PointsInto L w₀) :
    (fail e : Rule α).Spec L N w₀ lo hi P := h

theorem spec_endOfInput {P : α → Nat → Prop} : (fail .endOfInput : Rule α).Spec L N w₀ lo hi P :=
  .inl rfl

/-- If the first rule fails, the second one has to do. -/
theorem spec_orElse {r s : Rule α} {P : α → Nat → Prop} (hr : r.Spec L N w₀ lo hi P)
    (hs : s.Spec L N w₀ lo hi P) : (orElse r s).Spec L N w₀ lo hi P := by
  refine Query.Sat.bind hr ?_
  intro o ho
  cases o with
  | error e => exact hs
  | ok found => exact ho

theorem spec_here : here.Spec L N w₀ lo hi fun a k => a = lo ∧ k = lo := ⟨rfl, rfl⟩

theorem spec_window : window.Spec L N w₀ lo hi fun a k => a = ⟨lo, hi⟩ ∧ k = lo := ⟨rfl, rfl⟩

theorem spec_jump {k : Nat} : (jump k).Spec L N w₀ lo hi fun _ k' => k' = k := rfl

/-- A rule in rounds may take one more than there are lexemes. -/
theorem spec_sized {r : Nat → Rule α} {P : α → Nat → Prop}
    (h : (r (hi - lo + 1)).Spec L N w₀ lo hi P) : (sized r).Spec L N w₀ lo hi P := h

/-- An expression is read from a window that is short enough. -/
theorem spec_level {l : Level} (hw₀ : w₀.Within L.lexemes.size) (hw : w₀.Holds lo hi)
    (hN : Goal.size ⟨l, ⟨lo, hi⟩⟩ < N) : (level l).Spec L N w₀ lo hi (L.Gives hi lo) := by
  refine ⟨⟨⟨hw.valid, Nat.le_trans hw.stop hw₀.2⟩, hN⟩, ?_⟩
  intro o ho
  cases o with
  | error e => exact SyntaxError.PointsInto.mono hw ho
  | ok found => exact ho

/-- An expression that is read in a window inside of the own one, from a smaller goal. -/
theorem spec_exprIn {p q : Nat} (hw₀ : w₀.Within L.lexemes.size) (hinner : w₀.Holds p q)
    (hN : Goal.size ⟨.expr, ⟨p, q⟩⟩ < N) :
    (exprIn ⟨p, q⟩).Spec L N w₀ lo hi fun found k =>
      k = lo ∧ L.Reads q p found.2 (Token.strip found.1.tokens) := by
  refine ⟨⟨⟨hinner.valid, Nat.le_trans hinner.stop hw₀.2⟩, hN⟩, ?_⟩
  intro o ho
  cases o with
  | error e => exact SyntaxError.PointsInto.mono hinner ho
  | ok found => exact ⟨rfl, ho.2⟩

end Rule

end Scriptlet
