import Scriptlet.Proofs.Eval.Safe
import Scriptlet.Proofs.Syntax.Forms
import Scriptlet.Token.Literal

/-!
# Arithmetic of 32 bits

The arithmetic of the language is the arithmetic of two's complement: a tree of numbers, variables,
parentheses, signs and the four operators has the signed reading of the same tree computed on
vectors of 32 bits.  A division by zero anywhere in the tree stops the run, and nothing else does:
`Machine.eval_arithmetic`.  Without divisions the value is the exact one, wrapped around once.
-/

namespace Scriptlet

open Run

/-! ## Trees of numbers -/

/-- The four operators of arithmetic. -/
def BinOp.IsArithmetic (op : BinOp) : Prop := op = .add ∨ op = .sub ∨ op = .mul ∨ op = .div

/-- An operator of arithmetic on vectors; division rounds towards zero. -/
def BinOp.onVectors (op : BinOp) (x y : BitVec 32) : BitVec 32 :=
  match op with
  | .add => x + y
  | .sub => x - y
  | .mul => x * y
  | .div => x.sdiv y
  | _ => 0

namespace Expr

/-- A tree of arithmetic: literals, which denote no more than `2^31 - 1`, variables that stand for
numbers in range, parentheses, signs and the four operators. -/
inductive Arithmetic (σ : Scope Value) : Expr → Prop
  | int {span : Span} {n : Nat} : n ≤ Literal.maxInt → Arithmetic σ (.int span n)
  | var {span : Span} {name : String} {n : Int} :
      σ.get? name = some (.int n) → Word.InRange n → Arithmetic σ (.var span name)
  | parens {span : Span} {e : Expr} : Arithmetic σ e → Arithmetic σ (.parens span e)
  | neg {span : Span} {e : Expr} : Arithmetic σ e → Arithmetic σ (.neg span e)
  | binary {span : Span} {op : BinOp} {l r : Expr} :
      op.IsArithmetic → Arithmetic σ l → Arithmetic σ r → Arithmetic σ (.binary span op l r)

/-- The number that a variable stands for. -/
def numberOf (σ : Scope Value) (name : String) : Int :=
  match σ.get? name with
  | some (.int n) => n
  | _ => 0

/-- A tree of arithmetic computed on vectors. -/
def vector (σ : Scope Value) : Expr → BitVec 32
  | .int _ n => .ofNat 32 n
  | .var _ name => .ofInt 32 (numberOf σ name)
  | .parens _ e => e.vector σ
  | .neg _ e => -e.vector σ
  | .binary _ op l r => op.onVectors (l.vector σ) (r.vector σ)
  | _ => 0

/-- A tree of arithmetic without divisions computed on numbers of any size. -/
def exact (σ : Scope Value) : Expr → Int
  | .int _ n => n
  | .var _ name => numberOf σ name
  | .parens _ e => e.exact σ
  | .neg _ e => -e.exact σ
  | .binary _ .add l r => l.exact σ + r.exact σ
  | .binary _ .sub l r => l.exact σ - r.exact σ
  | .binary _ .mul l r => l.exact σ * r.exact σ
  | _ => 0

/-- The form is divided by somewhere in the tree. -/
def HasDivisor (e divisor : Expr) : Prop := ∃ span l, .binary span .div l divisor ∈ e.forms

theorem HasDivisor.part {e e' divisor : Expr} (h : e'.HasDivisor divisor) (he' : e' ∈ e.parts) :
    e.HasDivisor divisor := by
  obtain ⟨span, l, hmem⟩ := h
  exact ⟨span, l, mem_forms_of_part he' hmem⟩

/-- A divisor of a tree is a divisor of a part, or the tree itself is the division. -/
theorem HasDivisor.cases {e divisor : Expr} (h : e.HasDivisor divisor) :
    (∃ span l, e = .binary span .div l divisor) ∨ ∃ e' ∈ e.parts, e'.HasDivisor divisor := by
  obtain ⟨span, l, hmem⟩ := h
  rw [forms_eq, List.mem_cons, mem_formsAll] at hmem
  rcases hmem with rfl | ⟨e', he', hmem⟩
  · exact .inl ⟨span, l, rfl⟩
  · exact .inr ⟨e', he', span, l, hmem⟩

theorem Arithmetic.isStatement {σ : Scope Value} {e : Expr} (h : e.Arithmetic σ) :
    e.isStatement = false := by
  cases h <;> rfl

end Expr

/-- Somewhere in the tree a divisor has the value zero. -/
def Machine.DividesByZero (m : Machine) (s : State) (e : Expr) : Prop :=
  ∃ divisor, e.HasDivisor divisor ∧ ((m.eval divisor).run s).1 = .ok (.int 0)

/-! ## Numbers and vectors -/

/-- Numbers in range are what vectors read as. -/
theorem Word.toInt_ofInt {n : Int} (hn : InRange n) : (BitVec.ofInt 32 n).toInt = n := by
  rw [BitVec.toInt_ofInt]
  exact wrap_of_inRange hn

theorem Word.inRange_natCast {n : Nat} (hn : n ≤ Literal.maxInt) : InRange n := by
  rw [Literal.maxInt] at hn
  rw [InRange, least, greatest]
  omega

theorem Word.toInt_eq_zero {x : BitVec 32} : x.toInt = 0 ↔ x = 0 := by
  rw [← BitVec.toInt_inj]
  rfl

/-- An operator on two numbers is the operator on their vectors, unless it divides by zero. -/
theorem BinOp.run_combine {op : BinOp} (hop : op.IsArithmetic) (x y : BitVec 32) (s : State) :
    (op.combine (.int x.toInt) (.int y.toInt)).run s =
      if op = .div ∧ y = 0 then (.error (.fault .divisionByZero), s)
      else (.ok (.int (op.onVectors x y).toInt), s) := by
  rcases hop with rfl | rfl | rfl | rfl
  · rw [if_neg (by simp), onVectors, BitVec.toInt_add]
    rfl
  · rw [if_neg (by simp), onVectors, BitVec.toInt_sub]
    rfl
  · rw [if_neg (by simp), onVectors, BitVec.toInt_mul]
    rfl
  · by_cases hy : y = 0
    · rw [if_pos ⟨rfl, hy⟩, hy]
      rfl
    · have hdiv : Word.div? x.toInt y.toInt = some (Word.wrap (x.toInt.tdiv y.toInt)) :=
        if_neg fun hzero => hy (Word.toInt_eq_zero.1 hzero)
      rw [if_neg fun h => hy h.2, onVectors, BitVec.toInt_sdiv]
      simp only [combine, Value.operate, Run.expectInt, pure_bind, hdiv]
      rfl

/-- Without divisions, wrapping around once at the end is enough. -/
theorem Expr.Arithmetic.vector_eq {σ : Scope Value} {e : Expr} (h : e.Arithmetic σ)
    (hdiv : ∀ divisor, ¬ e.HasDivisor divisor) : e.vector σ = .ofInt 32 (e.exact σ) := by
  induction h with
  | int _ => exact (BitVec.ofInt_natCast ..).symm
  | var _ _ => rfl
  | parens _ ih =>
    exact ih fun d hd => hdiv d (hd.part (by simp [parts]))
  | neg _ ih =>
    rw [vector, exact, BitVec.ofInt_neg, ih fun d hd => hdiv d (hd.part (by simp [parts]))]
  | @binary span op l r hop _ _ ihl ihr =>
    have hl := ihl fun d hd => hdiv d (hd.part (by simp [parts]))
    have hr := ihr fun d hd => hdiv d (hd.part (by simp [parts]))
    rw [vector, hl, hr]
    -- Taking remainders commutes with the operators, division apart.
    rcases hop with rfl | rfl | rfl | rfl
    · exact (BitVec.ofInt_add ..).symm
    · rw [exact, Int.sub_eq_add_neg, BitVec.ofInt_add, BitVec.ofInt_neg]
      exact BitVec.sub_eq_add_neg ..
    · exact (BitVec.ofInt_mul ..).symm
    · exact absurd ⟨span, l, self_mem_forms _⟩ (hdiv r)

/-! ## Running a tree -/

namespace Machine

variable {m : Machine} {s : State} {e l r : Expr} {span : Span}

/-- A form that is no statement is run for its value without being noted. -/
theorem run_eval (h : e.isStatement = false) :
    (m.eval e).run s = (do
      match ← m.step e with
      | .value v => return v
      | .completed .normal => return .unit
      | .completed (.returned v) => throw (.returned v) : Run Value).run s := by
  have hnote : (announceStatement e).run s = (.ok (), s) := by
    rw [announceStatement, h]
    rfl
  exact run_bind_ok hnote _

theorem run_eval_of_ok {v : Value} (h : e.isStatement = false)
    (hstep : (m.step e).run s = (.ok (.value v), s)) : (m.eval e).run s = (.ok v, s) := by
  rw [run_eval h, run_bind_ok hstep]
  rfl

theorem run_eval_of_error {stop : Stop} (h : e.isStatement = false)
    (hstep : (m.step e).run s = (.error stop, s)) : (m.eval e).run s = (.error stop, s) := by
  rw [run_eval h, run_bind_error hstep]

/-- How a tree of arithmetic ends: with a division by zero in it, or with the reading of its
vector. -/
inductive EndsAs (m : Machine) (s : State) (e : Expr) : Prop
  | zero : m.DividesByZero s e →
      (m.eval e).run s = (.error (.fault .divisionByZero), s) → EndsAs m s e
  | value : ¬ m.DividesByZero s e →
      (m.eval e).run s = (.ok (.int (e.vector s.scope).toInt), s) → EndsAs m s e

theorem DividesByZero.part {e' : Expr} (h : m.DividesByZero s e') (he' : e' ∈ e.parts) :
    m.DividesByZero s e := by
  obtain ⟨divisor, hdivisor, hzero⟩ := h
  exact ⟨divisor, hdivisor.part he', hzero⟩

/-- A tree that is no division divides by zero only in its parts. -/
theorem not_dividesByZero (hparts : ∀ e' ∈ e.parts, ¬ m.DividesByZero s e')
    (hself : ∀ span l r, e = .binary span .div l r → ((m.eval r).run s).1 ≠ .ok (.int 0)) :
    ¬ m.DividesByZero s e := by
  rintro ⟨divisor, hdivisor, hzero⟩
  rcases hdivisor.cases with ⟨span, l, rfl⟩ | ⟨e', he', hdivisor⟩
  · exact hself span l divisor rfl hzero
  · exact hparts e' he' ⟨divisor, hdivisor, hzero⟩

theorem endsAs_leaf (hparts : e.parts = []) (hstep : (m.step e).run s =
    (.ok (.value (.int (e.vector s.scope).toInt)), s)) (h : e.isStatement = false) :
    m.EndsAs s e := by
  refine .value (not_dividesByZero ?_ ?_) (run_eval_of_ok h hstep)
  · rw [hparts]
    exact List.forall_mem_nil _
  · rintro span l r rfl
    cases hparts

/-- A form with one part runs it first, and so ends as the part does. -/
theorem endsAs_unary {e' : Expr} {act : Value → Run Effect} (hparts : e'.parts = [e])
    (h' : e'.isStatement = false) (hstep : m.step e' = m.eval e >>= act)
    (hact : (act (.int (e.vector s.scope).toInt)).run s =
      (.ok (.value (.int (e'.vector s.scope).toInt)), s)) (h : m.EndsAs s e) : m.EndsAs s e' := by
  cases h with
  | zero hzero hrun =>
    refine .zero (hzero.part (by simp [hparts])) (run_eval_of_error h' ?_)
    rw [hstep]
    exact run_bind_error hrun _
  | value hzero hrun =>
    refine .value (not_dividesByZero (by simpa [hparts] using hzero) ?_) (run_eval_of_ok h' ?_)
    · rintro span l r rfl
      cases hparts
    · rw [hstep]
      exact (run_bind_ok hrun _).trans hact

theorem endsAs_parens (h : m.EndsAs s e) : m.EndsAs s (.parens span e) := by
  have hstep : m.step (.parens span e) = m.eval e >>= fun v => return .value v := by
    rw [step]
    rfl
  exact endsAs_unary rfl rfl hstep rfl h

theorem endsAs_neg (h : m.EndsAs s e) : m.EndsAs s (.neg span e) := by
  have hstep : m.step (.neg span e) = m.eval e >>= fun v => do
      return .value (.int (Word.neg (← expectInt v))) := by
    rw [step]
    rfl
  refine endsAs_unary rfl rfl hstep ?_ h
  rw [Expr.vector, BitVec.toInt_neg]
  rfl

/-- Both operands are run, the left one first, and then the operator. -/
theorem endsAs_binary {op : BinOp} (hop : op.IsArithmetic) (hl : m.EndsAs s l) (hr : m.EndsAs s r) :
    m.EndsAs s (.binary span op l r) := by
  have hshortcut : ∀ v, op.shortcut? v = none := by
    intro v
    rcases hop with rfl | rfl | rfl | rfl <;> rfl
  cases hl with
  | zero hzero hrun =>
    refine .zero (hzero.part (by simp [Expr.parts])) (run_eval_of_error rfl ?_)
    rw [step]
    exact run_bind_error hrun _
  | value hzerol hrunl =>
    -- the left operand has a value, so it depends on the right one
    have hstep : (m.step (.binary span op l r)).run s = (do
        let b ← m.eval r
        return .value (← op.combine (.int (l.vector s.scope).toInt) b) : Run Effect).run s := by
      rw [step]
      refine (run_bind_ok hrunl _).trans ?_
      rw [hshortcut]
      rfl
    cases hr with
    | zero hzero hrun =>
      refine .zero (hzero.part (by simp [Expr.parts])) (run_eval_of_error rfl ?_)
      rw [hstep]
      exact run_bind_error hrun _
    | value hzeror hrunr =>
      have hcombine := BinOp.run_combine hop (l.vector s.scope) (r.vector s.scope) s
      by_cases hdiv : op = .div ∧ r.vector s.scope = 0
      · -- the divisor of this very operation is zero
        obtain ⟨rfl, hvector⟩ := hdiv
        rw [if_pos ⟨rfl, hvector⟩] at hcombine
        refine .zero ⟨r, ⟨span, l, Expr.self_mem_forms _⟩, ?_⟩ (run_eval_of_error rfl ?_)
        · rw [hrunr, hvector]
          rfl
        · rw [hstep]
          exact (run_bind_ok hrunr _).trans (run_bind_error hcombine _)
      · rw [if_neg hdiv] at hcombine
        refine .value (not_dividesByZero ?_ ?_) (run_eval_of_ok rfl ?_)
        · intro e' he'
          rcases List.mem_pair.1 he' with rfl | rfl
          · exact hzerol
          · exact hzeror
        · intro span' l' r' heq hzero
          obtain ⟨-, rfl, rfl, rfl⟩ := Expr.binary.inj heq
          rw [hrunr] at hzero
          exact hdiv ⟨rfl, Word.toInt_eq_zero.1 (Value.int.inj (Except.ok.inj hzero))⟩
        · rw [hstep]
          exact (run_bind_ok hrunr _).trans (run_bind_ok hcombine _)

theorem endsAs_arithmetic (m : Machine) (h : e.Arithmetic s.scope) : m.EndsAs s e := by
  induction h with
  | @int span n hn =>
    refine endsAs_leaf rfl ?_ rfl
    have hvector : (BitVec.ofNat 32 n).toInt = n := by
      rw [← BitVec.ofInt_natCast, Word.toInt_ofInt (Word.inRange_natCast hn)]
    rw [Expr.vector, hvector, step]
    rfl
  | @var span name n hget hn =>
    refine endsAs_leaf rfl ?_ rfl
    have hnumber : Expr.numberOf s.scope name = n := by rw [Expr.numberOf, hget]
    rw [Expr.vector, hnumber, Word.toInt_ofInt hn, step]
    exact run_bind_ok (run_lookup hget) _
  | parens _ ih => exact endsAs_parens ih
  | neg _ ih => exact endsAs_neg ih
  | binary hop _ _ ihl ihr => exact endsAs_binary hop ihl ihr

/-- A tree of arithmetic has the value of the same tree on vectors of 32 bits, unless a divisor in
it has the value zero; then, and only then, it stops with a division by zero.  Without divisions the
value is the exact one, wrapped around. -/
theorem eval_arithmetic (m : Machine) (s : State) (e : Expr) (h : e.Arithmetic s.scope) :
    (¬ m.DividesByZero s e → (m.eval e).run s = (.ok (.int (e.vector s.scope).toInt), s)) ∧
    ((∃ f, (m.eval e).run s = (.error (.fault f), s) ∧ f.message = "Division by zero") ↔
      m.DividesByZero s e) ∧
    ((∀ divisor, ¬ e.HasDivisor divisor) →
      (m.eval e).run s = (.ok (.int (Word.wrap (e.exact s.scope))), s)) := by
  have hends := endsAs_arithmetic m h
  have hvalue : ¬ m.DividesByZero s e →
      (m.eval e).run s = (.ok (.int (e.vector s.scope).toInt), s) := by
    intro hzero
    cases hends with
    | zero hdivides _ => exact absurd hdivides hzero
    | value _ hrun => exact hrun
  refine ⟨hvalue, ⟨?_, ?_⟩, ?_⟩
  · rintro ⟨f, hrun, -⟩
    by_contra hzero
    rw [hvalue hzero] at hrun
    cases hrun
  · intro hdivides
    cases hends with
    | zero _ hrun => exact ⟨.divisionByZero, hrun, rfl⟩
    | value hzero _ => exact absurd hdivides hzero
  · intro hdiv
    rw [hvalue fun ⟨divisor, hdivisor, _⟩ => hdiv divisor hdivisor, h.vector_eq hdiv,
      BitVec.toInt_ofInt]
    rfl

/-- A machine for forms that call nothing. -/
def callless : Machine := ⟨fun _ _ => throw .tooDeep, 0, .shared⟩

/-- The variable `x` has the least number there is. -/
def leastState : State := { scope := [[("x", .int Word.least)]], trace := ⟨0, #[]⟩ }

/-- `x / -1`, which has no room for its exact value. -/
def negatedQuotient : Expr := .binary .zero .div (.var .zero "x") (.neg .zero (.int .zero 1))

/-- `1 / (x + x)`, the divisor of which wraps around to zero. -/
def wrappedDivisor : Expr :=
  .binary .zero .div (.int .zero 1)
    (.parens .zero (.binary .zero .add (.var .zero "x") (.var .zero "x")))

theorem eval_arithmetic_least :
    (negatedQuotient.Arithmetic leastState.scope ∧
      ¬ callless.DividesByZero leastState negatedQuotient ∧
      (callless.eval negatedQuotient).run leastState = (.ok (.int Word.least), leastState)) ∧
    (wrappedDivisor.Arithmetic leastState.scope ∧
      callless.DividesByZero leastState wrappedDivisor ∧
      ∃ f, (callless.eval wrappedDivisor).run leastState = (.error (.fault f), leastState) ∧
        f.message = "Division by zero") := by
  have hx : Expr.Arithmetic leastState.scope (.var .zero "x") := .var rfl (by decide)
  have hquotient : negatedQuotient.Arithmetic leastState.scope :=
    .binary (by simp [BinOp.IsArithmetic]) hx (.neg (.int (by decide)))
  have hdivisor : wrappedDivisor.Arithmetic leastState.scope :=
    .binary (by simp [BinOp.IsArithmetic]) (.int (by decide))
      (.parens (.binary (by simp [BinOp.IsArithmetic]) hx hx))
  have hzero : ¬ callless.DividesByZero leastState negatedQuotient := by
    intro hzero
    obtain ⟨f, hrun, -⟩ := (eval_arithmetic _ _ _ hquotient).2.1.2 hzero
    cases hrun
  have hdivides : callless.DividesByZero leastState wrappedDivisor :=
    ⟨_, ⟨_, _, Expr.self_mem_forms _⟩, rfl⟩
  exact ⟨⟨hquotient, hzero, (eval_arithmetic _ _ _ hquotient).1 hzero⟩, hdivisor, hdivides,
    (eval_arithmetic _ _ _ hdivisor).2.1.2 hdivides⟩

end Machine

end Scriptlet
