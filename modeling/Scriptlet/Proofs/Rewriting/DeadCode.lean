import Scriptlet.Proofs.Rewriting.Bare

/-!
# Nothing runs behind a return

The statements that follow a `return` in its block are never run.  `Program.trimmed` leaves them
out, in all blocks; so two programs that differ in such statements alone are those with one trimmed
tree, and `Program.execute_of_trimmed` says that they run alike.
-/

namespace Scriptlet

namespace Expr

/-- Whether an expression is a `return`. -/
def isReturn : Expr → Bool
  | returnUnit .. | returnValue .. => true
  | _ => false

mutual

/-- An expression without the statements that follow a `return` in a block. -/
def trimmed : Expr → Expr
  | int s n => int s n
  | bool s b => bool s b
  | char s c => char s c
  | str s t => str s t
  | var s name => var s name
  | index s base position => index s base position.trimmed
  | neg s e => neg s e.trimmed
  | not s e => not s e.trimmed
  | parens s e => parens s e.trimmed
  | binary s op l r => binary s op l.trimmed r.trimmed
  | declare s mutable name value => declare s mutable name value.trimmed
  | assign s name value => assign s name value.trimmed
  | call s name args => call s name (trimmedAll args)
  | store s target base position value => store s target base position.trimmed value.trimmed
  | branch s cond body otherwise =>
    branch s cond.trimmed (trimmedBlock body) (trimmedBlock otherwise)
  | forIn s name iterable body => forIn s name iterable.trimmed (trimmedBlock body)
  | loop s cond body => loop s cond.trimmed (trimmedBlock body)
  | returnUnit s => returnUnit s
  | returnValue s value => returnValue s value.trimmed

/-- Several expressions, each trimmed; none is left out. -/
def trimmedAll : List Expr → List Expr
  | [] => []
  | e :: es => e.trimmed :: trimmedAll es

/-- The statements of a block up to the first `return`, each trimmed. -/
def trimmedBlock : List Expr → List Expr
  | [] => []
  | e :: es => e.trimmed :: if e.isReturn then [] else trimmedBlock es

end

/-- Whatever follows a `return` in its block, the trimmed block is the same. -/
theorem trimmedBlock_append {e : Expr} (he : e.isReturn = true) (before rest rest' : List Expr) :
    trimmedBlock (before ++ e :: rest) = trimmedBlock (before ++ e :: rest') := by
  induction before with
  | nil => rw [List.nil_append, List.nil_append, trimmedBlock, trimmedBlock, if_pos he, if_pos he]
  | cons x before ih => rw [List.cons_append, List.cons_append, trimmedBlock, trimmedBlock, ih]

theorem kind_trimmed (e : Expr) : e.trimmed.kind = e.kind := by cases e <;> rfl

theorem span_trimmed (e : Expr) : e.trimmed.span = e.span := by cases e <;> rfl

theorem isStatement_trimmed (e : Expr) : e.trimmed.isStatement = e.isStatement := by
  cases e <;> rfl

end Expr

open Run

namespace Machine

variable (m : Machine)

/-- What stands behind a `return` is not run. -/
theorem andThen_return {e : Expr} (he : e.isReturn = true) (rest : Run Completion) :
    andThen (m.exec e) rest = m.exec e := by
  cases e with
  | returnUnit span => rfl
  | returnValue span value =>
    have hexec : m.exec (.returnValue span value) = announce (.returnValue span value) >>= fun _ =>
        m.eval value >>= fun v => pure (.returned v) := by
      rw [exec, asStatement, step, bind_assoc]
      rfl
    rw [hexec, andThen, bind_assoc]
    congr 1
    funext _
    exact bind_assoc ..
  | _ => cases he

/-- A trimmed form is the same run. -/
def TrimmedAlike (e : Expr) : Prop := m.step e.trimmed = m.step e

variable {m}

theorem TrimmedAlike.value {e : Expr} (h : m.TrimmedAlike e) :
    asValue e.trimmed (m.step e.trimmed) = asValue e (m.step e) := by
  rw [asValue, asValue, announceStatement, announceStatement, announce, announce, h,
    e.kind_trimmed, e.span_trimmed, e.isStatement_trimmed]

theorem TrimmedAlike.statement {e : Expr} (h : m.TrimmedAlike e) : m.exec e.trimmed = m.exec e := by
  rw [exec, exec, asStatement, asStatement, announce, announce, h, e.kind_trimmed, e.span_trimmed]

theorem TrimmedAlike.values {es : List Expr} (h : ∀ e ∈ es, m.TrimmedAlike e) :
    m.values (Expr.trimmedAll es) = m.values es := by
  induction es with
  | nil => rfl
  | cons e es ih =>
    obtain ⟨he, hes⟩ := List.forall_mem_cons.1 h
    rw [Expr.trimmedAll, Machine.values, Machine.values, he.value, ih hes]

theorem TrimmedAlike.block {es : List Expr} (h : ∀ e ∈ es, m.TrimmedAlike e) :
    m.block (Expr.trimmedBlock es) = m.block es := by
  induction es with
  | nil => rfl
  | cons e es ih =>
    obtain ⟨he, hes⟩ := List.forall_mem_cons.1 h
    have hblock : ∀ rest, m.block (e.trimmed :: rest) = andThen (m.exec e) (m.block rest) :=
      fun rest => congrArg (andThen · (m.block rest)) he.statement
    rw [Expr.trimmedBlock, hblock]
    by_cases hreturn : e.isReturn = true
    · -- The trimmed block ends here, and the other one gets no further.
      rw [if_pos hreturn, m.andThen_return hreturn]
      exact (m.andThen_return hreturn (m.block es)).symm
    · rw [if_neg hreturn, ih hes]
      rfl

variable (m)

theorem trimmedAlike (e : Expr) : m.TrimmedAlike e := by
  induction e using Expr.induction with
  | int | bool | char | str | var | returnUnit => rfl
  | index _ _ _ ih | neg _ _ ih | not _ _ ih | parens _ _ ih | declare _ _ _ _ ih
  | assign _ _ _ ih | returnValue _ _ ih =>
    rw [TrimmedAlike, Expr.trimmed, step, step, ih.value]
  | binary _ _ _ _ ihl ihr | store _ _ _ _ _ ihl ihr =>
    rw [TrimmedAlike, Expr.trimmed, step, step, ihl.value, ihr.value]
  | call _ _ _ ih => rw [TrimmedAlike, Expr.trimmed, step, step, TrimmedAlike.values ih]
  | branch _ _ _ _ ihc ihb iho =>
    rw [TrimmedAlike, Expr.trimmed, step, step, ihc.value, TrimmedAlike.block ihb,
      TrimmedAlike.block iho]
  | forIn _ _ _ _ ihi ihb =>
    rw [TrimmedAlike, Expr.trimmed, step, step, ihi.value, TrimmedAlike.block ihb]
  | loop _ _ _ ihc ihb =>
    rw [TrimmedAlike, Expr.trimmed, step, step, ihc.value, TrimmedAlike.block ihb]

end Machine

/-- A function without the statements that follow a `return` in a block. -/
def Fun.trimmed (f : Fun) : Fun := { f with body := Expr.trimmedBlock f.body }

theorem Fun.linked_trimmed (f : Fun) : Fun.Linked Eq f f.trimmed :=
  Fun.linked_eq rfl fun m => Machine.TrimmedAlike.block fun e _ => m.trimmedAlike e

namespace Program

/-- A program without the statements that follow a `return` in a block. -/
def trimmed (p : Program) : Program := { p with functions := p.functions.map Fun.trimmed }

/-- A trimmed program is the same run, its trace included. -/
theorem execute_trimmed (p : Program) (o : Settings) (s : State) :
    p.trimmed.execute o s = p.execute o s :=
  execute_eq_of_linked (linked_map Fun.trimmed p p.span (fun _ => rfl) Fun.linked_trimmed) o s

/-- Code behind a `return` is dead.  Two programs that differ in nothing but the statements which
follow a `return` in its block are the same runs: value or error, output and all else that a run
leaves.  If they differ in spans too, as where such statements are edited in the source, they still
run alike. -/
theorem execute_of_trimmed (p q : Program) :
    (p.trimmed = q.trimmed → ∀ o s, q.execute o s = p.execute o s) ∧
      (p.trimmed.spanless = q.trimmed.spanless →
        ∀ o s, (p.execute o s).Alike (q.execute o s)) := by
  constructor
  · intro h o s
    rw [← q.execute_trimmed, ← p.execute_trimmed, h]
  · intro h o s
    have hbare : p.trimmed.bare = q.trimmed.bare := congrArg Program.ungrouped h
    have halike := alike_of_bare hbare o s
    rwa [p.execute_trimmed, q.execute_trimmed] at halike

/-- A program with `dead` behind a `return` in every kind of block, in two functions that share an
array; all of it stands at `span`. -/
def endsEarly (dead : List Expr) (span : Span) : Program where
  span := span
  functions := [
    { span := span
      name := "main"
      params := []
      result := none
      body := [
        .declare span false "xs" (.call span "arrayOf" [.int span 0]),
        .loop span (.bool span true) (
          .branch span (.call span "fill" [.var span "xs"])
            (.call span "println" [.var span "xs"] :: .returnUnit span :: dead)
            (.returnUnit span :: dead) ::
          .returnUnit span :: dead),
        .returnUnit span] ++ dead },
    { span := span
      name := "fill"
      params := [⟨span, "xs", .generic span "Array" [.simple span "Int"]⟩]
      result := some (.simple span "Boolean")
      body := [
        .forIn span "x" (.var span "xs") (
          .store span span ⟨"xs", span⟩ (.var span "x") (.int span 7) ::
          .returnValue span (.bool span true) :: dead),
        .returnValue span (.bool span false)] ++ dead }]

theorem execute_of_trimmed_endsEarly :
    (endsEarly [] .zero).trimmed =
        (endsEarly [.call .zero "println" [.int .zero 1]] .zero).trimmed ∧
      (endsEarly [.call .zero "println" [.int .zero 1]] .zero).execute .standard
          { trace := ⟨0, #[]⟩ } =
        (endsEarly [] .zero).execute .standard { trace := ⟨0, #[]⟩ } ∧
      (endsEarly [] .zero).trimmed.spanless =
        (endsEarly [.var ⟨3, 4⟩ "unknown"] ⟨1, 2⟩).trimmed.spanless ∧
      ((endsEarly [] .zero).execute .standard { trace := ⟨0, #[]⟩ }).Alike
        ((endsEarly [.var ⟨3, 4⟩ "unknown"] ⟨1, 2⟩).execute .standard { trace := ⟨0, #[]⟩ }) := by
  have hdead : (endsEarly [] .zero).trimmed =
      (endsEarly [.call .zero "println" [.int .zero 1]] .zero).trimmed := rfl
  have hmoved : (endsEarly [] .zero).trimmed.spanless =
      (endsEarly [.var ⟨3, 4⟩ "unknown"] ⟨1, 2⟩).trimmed.spanless := rfl
  exact ⟨hdead, (execute_of_trimmed _ _).1 hdead _ _, hmoved,
    (execute_of_trimmed _ _).2 hmoved _ _⟩

end Program

end Scriptlet
