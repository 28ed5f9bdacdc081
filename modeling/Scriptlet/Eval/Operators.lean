import Scriptlet.Eval.State
import Scriptlet.Value.Word

/-!
# Operators

What operators, positions and loops do with values.
-/

namespace Scriptlet

/-! ## Numbers and positions -/

namespace Run

/-- The number that a value is. -/
def expectInt : Value → Run Int
  | .int n => return n
  | v => throw (.breach (.notAnInt v.kind))

/-- The position that a value denotes among `length` elements. -/
def position (v : Value) (length : Nat) : Run Nat := do
  let i ← expectInt v
  if 0 ≤ i ∧ i < length then return i.toNat else throw (.fault .indexOutOfRange)

end Run

namespace Value

/-! ## Elements -/

/-- The element of a container at a position. -/
def elementAt (container position : Value) : Run Value := do
  match container with
  | .array h =>
    let items ← Run.itemsOf h
    let i ← Run.position position items.size
    return items.getD i .unit
  | .str s =>
    let i ← Run.position position s.length
    return .char (s.points.getD i (.ofChar ' '))
  | v => throw (.breach (.notIndexable v.kind))

/-- Replaces the element at a position of the container that was read from the variable `name`. -/
def storeAt (name : String) (container position value : Value) : Run Unit := do
  match container, value with
  | .array h, v =>
    let items ← Run.itemsOf h
    let i ← Run.position position items.size
    Run.store h i v
  | .str s, .char c =>
    let i ← Run.position position s.length
    -- Texts are not shared: the variable gets a new one.
    Run.assign name (.str (s.set i c))
  | v, _ => throw (.breach (.notStorable v.kind))

/-! ## Two operands -/

/-- How two values of one kind are ordered. -/
def order : Value → Value → Run Ordering
  | .int a, .int b => return compare a b
  | .bool a, .bool b => return compare a b
  | .str a, .str b => return compare a b
  | .char a, .char b => return compare a.val b.val
  | .unit, .unit => throw .unitOrder
  | a, b => throw (.breach (.notComparable a.kind b.kind))

/-- The sum of two values, a text as soon as one of them is. -/
def plus (a b : Value) : Run Value := do
  match a, b with
  | .str _, _ | _, .str _ => return .str ((← Run.textOf a) ++ (← Run.textOf b))
  | a, b => return .int (Word.add (← Run.expectInt a) (← Run.expectInt b))

/-- The value of an operator on two values. -/
def operate (op : BinOp) (a b : Value) : Run Value := do
  match op with
  | .add => plus a b
  | .sub => return .int (Word.sub (← Run.expectInt a) (← Run.expectInt b))
  | .mul => return .int (Word.mul (← Run.expectInt a) (← Run.expectInt b))
  | .div =>
    match Word.div? (← Run.expectInt a) (← Run.expectInt b) with
    | some q => return .int q
    | none => throw (.fault .divisionByZero)
  | .range => return .range a b
  | .less => return .bool ((← order a b) == .lt)
  | .greater => return .bool ((← order a b) == .gt)
  | .and | .or => throw (.breach (.unsupported op))

end Value

namespace BinOp

/-- The value of a connective that its left operand already decides. -/
def shortcut? (op : BinOp) (left : Value) : Option Value :=
  match op with
  | .and => if left.truth then none else some (.bool false)
  | .or => if left.truth then some (.bool true) else none
  | _ => none

/-- The value of an operation, once both operands were needed. -/
def combine (op : BinOp) (left right : Value) : Run Value :=
  match op with
  | .and | .or => return .bool right.truth
  | op => Value.operate op left right

end BinOp

/-! ## What loops visit -/

/-- The elements that a loop visits, fixed when the loop starts. -/
inductive Items
  /-- These values. -/
  | values (vs : List Value)
  /-- The `count` numbers from `first` on. -/
  | numbers (first : Int) (count : Nat)

/-- The elements in the order in which they are visited. -/
def Items.toList : Items → List Value
  | values vs => vs
  | numbers first count => (List.range count).map fun (k : Nat) => .int (first + k)

/-- The elements of a value. -/
def Value.elements (v : Value) : Run Items := do
  match v with
  | .array h => return .values (← Run.itemsOf h).toList
  | .range (.char a) (.char b) => return .values ((a.between b).map .char)
  | .range (.char _) _ => throw .rangeEnd
  | .range a b =>
    let lo ← Run.expectInt a
    let hi ← Run.expectInt b
    return .numbers lo (hi + 1 - lo).toNat
  | .str s => return .values (s.points.map .char)
  | v => throw (.breach (.notIterable v.kind))

end Scriptlet
