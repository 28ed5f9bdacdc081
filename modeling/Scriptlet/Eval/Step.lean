import Scriptlet.Eval.Operators

/-!
# Running expressions and statements

One function runs every form.  A form that has a value gives it; a statement completes, either
normally or with a `return`.  A statement where a value is wanted counts as `Unit`, and a `return`
there leaves the call around it.

Calls are made by a function that is handed in, so running is structural in the syntax.  Only a
`while` loop needs a bound on the number of its rounds.
-/

namespace Scriptlet

/-- How a statement ends. -/
inductive Completion
  /-- The next statement follows. -/
  | normal
  /-- The function ends with this value. -/
  | returned (v : Value)
deriving DecidableEq

/-- What running a form gives. -/
inductive Effect
  /-- A value. -/
  | value (v : Value)
  /-- The end of a statement. -/
  | completed (c : Completion)
deriving DecidableEq

/-- Where the body of a `for` loop declares its variables. -/
inductive ForScope
  /-- In one block for the whole loop: what a round declares is still there in the next one. -/
  | shared
  /-- In a block for each round. -/
  | fresh
deriving DecidableEq

/-- What running needs to know besides the form. -/
structure Machine where
  /-- Calls a function by name. -/
  call : String → List Value → Run Value
  /-- Bound on the rounds of a `while` loop. -/
  rounds : Nat
  /-- The scope of `for` loops. -/
  forScope : ForScope

namespace Run

/-! ## Ends of statements -/

/-- Notes that a form is run as a statement. -/
@[inline] def announce (e : Expr) : Run Unit :=
  note 4 ("exec " ++ e.kind ++ " at " ++ e.span.render)

/-- Notes that a form is run as a statement where a value is wanted, if it is one. -/
@[inline] def announceStatement (e : Expr) : Run Unit :=
  if e.isStatement then announce e else return ()

/-- Runs a form for its value. -/
def asValue (e : Expr) (act : Run Effect) : Run Value := do
  announceStatement e
  match ← act with
  | .value v => return v
  | .completed .normal => return .unit
  | .completed (.returned v) => throw (.returned v)

/-- Runs a form as a statement. -/
def asStatement (e : Expr) (act : Run Effect) : Run Completion := do
  announce e
  match ← act with
  | .value _ => return .normal
  | .completed c => return c

/-- Runs the second action unless the first one returned. -/
def andThen (first second : Run Completion) : Run Completion := do
  match ← first with
  | .normal => second
  | .returned v => return .returned v

/-! ## Loops -/

/-- Runs `body` for each value in turn, until one returns. -/
def eachValue (body : Value → Run Completion) : List Value → Run Completion
  | [] => return .normal
  | v :: vs => andThen (body v) (eachValue body vs)

/-- Runs `body` for each of `count` numbers from `n` on, until one returns. -/
def eachNumber (body : Value → Run Completion) : (count : Nat) → (n : Int) → Run Completion
  | 0, _ => return .normal
  | count + 1, n => andThen (body (.int n)) (eachNumber body count (n + 1))

/-- Runs `body` for each element in turn, until one returns. -/
def each (body : Value → Run Completion) : Items → Run Completion
  | .values vs => eachValue body vs
  | .numbers first count => eachNumber body count first

/-- A loop over numbers runs like one over their list. -/
theorem eachNumber_eq (body : Value → Run Completion) (count : Nat) (n : Int) :
    eachNumber body count n = eachValue body (Items.numbers n count).toList := by
  induction count generalizing n with
  | zero => rfl
  | succ count ih =>
    have next : (fun k : Nat => Value.int (n + ((k + 1 : Nat) : Int))) =
        fun k : Nat => Value.int (n + 1 + (k : Int)) := by
      funext k
      congr 1
      omega
    simp only [Items.toList] at ih ⊢
    simp only [eachNumber, ih, List.range_succ_eq_map, List.map_cons, List.map_map,
      Function.comp_def, eachValue, next, Int.natCast_zero, Int.add_zero]

/-- A loop visits the elements in order. -/
theorem each_eq (body : Value → Run Completion) (items : Items) :
    each body items = eachValue body items.toList := by
  cases items with
  | values vs => rfl
  | numbers n count => exact eachNumber_eq body count n

/-- One round of a loop with the loop variable `name`. -/
def roundFor (name : String) (body : Run Completion) (v : Value) : Run Completion := do
  noteValue 3 ("for " ++ name ++ " = ") v
  declare name v
  body

/-- Runs a `for` loop with the loop variable `name`. -/
def forLoop (scope : ForScope) (name : String) (body : Run Completion) (items : Items) :
    Run Completion :=
  match scope with
  | .shared => inBlock (each (roundFor name body) items)
  | .fresh => each (fun v => inBlock (roundFor name body v)) items

/-- Runs `body` in blocks of its own as long as `cond` holds, until one returns. -/
def whileTrue (cond : Run Value) (body : Run Completion) : (rounds : Nat) → Run Completion
  | 0 => throw .outOfRounds
  | rounds + 1 => do
    if (← cond).truth then
      note 3 "while iteration"
      andThen (inBlock body) (whileTrue cond body rounds)
    else return .normal

end Run

/-! ## Forms -/

namespace Machine

open Run

mutual

/-- Runs a form. -/
def step (m : Machine) : Expr → Run Effect
  | .int _ n => return .value (.int n)
  | .bool _ b => return .value (.bool b)
  | .char _ c => return .value (.char (.ofChar c))
  | .str _ s => return .value (.str s)
  | .var _ name => return .value (← lookup name)
  | .index _ base position => do
    -- The container is fixed before the position is worked out, which may assign to its variable.
    let container ← lookup base.text
    let i ← asValue position (m.step position)
    return .value (← container.elementAt i)
  | .neg _ e => do
    let v ← asValue e (m.step e)
    return .value (.int (Word.neg (← expectInt v)))
  | .not _ e => do
    let v ← asValue e (m.step e)
    return .value (.bool !v.truth)
  | .parens _ e => return .value (← asValue e (m.step e))
  | .binary _ op l r => do
    let a ← asValue l (m.step l)
    match op.shortcut? a with
    | some v => return .value v
    | none =>
      -- The right operand runs only if the left one does not decide.
      let b ← asValue r (m.step r)
      return .value (← op.combine a b)
  | .call _ name args => do
    let vs ← m.values args
    return .value (← m.call name vs)
  | .declare _ _ name value => do
    let v ← asValue value (m.step value)
    Run.declare name v
    noteValue 2 ("declare " ++ name ++ ": " ++ v.kind ++ " = ") v
    return .completed .normal
  | .assign _ name value => do
    let v ← asValue value (m.step value)
    Run.assign name v
    return .completed .normal
  | .store _ _ base position value => do
    -- As above: an array keeps its handle, a text is replaced as it was before the operands ran.
    let container ← lookup base.text
    let i ← asValue position (m.step position)
    let v ← asValue value (m.step value)
    container.storeAt base.text i v
    return .completed .normal
  | .branch _ cond body otherwise => do
    let c ← asValue cond (m.step cond)
    noteValue 3 "if condition -> " c
    if c.truth then return .completed (← inBlock (m.block body))
    else return .completed (← inBlock (m.block otherwise))
  | .loop _ cond body =>
    return .completed (← whileTrue (asValue cond (m.step cond)) (m.block body) m.rounds)
  | .forIn _ name iterable body => do
    -- What is visited is fixed here: stores in the body do not change it.
    let items ← (← asValue iterable (m.step iterable)).elements
    return .completed (← forLoop m.forScope name (m.block body) items)
  | .returnUnit _ => return .completed (.returned .unit)
  | .returnValue _ value => return .completed (.returned (← asValue value (m.step value)))

/-- The values of several forms, run in order. -/
def values (m : Machine) : List Expr → Run (List Value)
  | [] => return []
  | e :: es => do
    let v ← asValue e (m.step e)
    let vs ← m.values es
    return v :: vs

/-- Runs statements in order, until one returns. -/
def block (m : Machine) : List Expr → Run Completion
  | [] => return .normal
  | e :: es => andThen (asStatement e (m.step e)) (m.block es)

end

/-- The value of a form. -/
def eval (m : Machine) (e : Expr) : Run Value := asValue e (m.step e)

/-- Runs a form as a statement. -/
def exec (m : Machine) (e : Expr) : Run Completion := asStatement e (m.step e)

end Machine

end Scriptlet
