import Scriptlet.Value.Heap

/-!
# Values spelt out

A tree is a value whose arrays are written out instead of being kept in a heap.  Trees come in and
go out; sharing of arrays is lost in them.
-/

namespace Scriptlet

/-- A value with its arrays written out. -/
inductive Tree
  /-- A number. -/
  | int (n : Int)
  /-- A truth value. -/
  | bool (b : Bool)
  /-- A text. -/
  | str (s : CodeText)
  /-- A character. -/
  | char (c : CodePoint)
  /-- The value of what has none. -/
  | unit
  /-- An array. -/
  | array (items : List Tree)
  /-- A range with both ends included. -/
  | range (start stop : Tree)

namespace Heap

mutual

/-- Brings a tree into the heap; each of its arrays becomes a new one. -/
def load (m : Heap) : Tree → Value × Heap
  | .int n => (.int n, m)
  | .bool b => (.bool b, m)
  | .str s => (.str s, m)
  | .char c => (.char c, m)
  | .unit => (.unit, m)
  | .array items =>
    let (vs, m) := loadAll m items
    let (h, m) := m.alloc vs.toArray
    (.array h, m)
  | .range a b =>
    let (a, m) := load m a
    let (b, m) := load m b
    (.range a b, m)

/-- Brings several trees into the heap. -/
def loadAll (m : Heap) : List Tree → List Value × Heap
  | [] => ([], m)
  | t :: ts =>
    let (v, m) := load m t
    let (vs, m) := loadAll m ts
    (v :: vs, m)

end

/-- Spells a value out; `array` spells the arrays out. -/
def treeWith? (array : Handle → Option Tree) : Value → Option Tree
  | .int n => some (.int n)
  | .bool b => some (.bool b)
  | .str s => some (.str s)
  | .char c => some (.char c)
  | .unit => some .unit
  | .array h => array h
  | .range a b => do return .range (← treeWith? array a) (← treeWith? array b)

/-- Spells an array out, unless arrays are nested `depth` deep. -/
def arrayTree? (m : Heap) : (depth : Nat) → Handle → Option Tree
  | 0, _ => none
  | depth + 1, h => do
    return .array (← (m.items h).toList.mapM (treeWith? (arrayTree? m depth)))

/-- Spells a value out; `none` when an array contains itself. -/
def tree? (m : Heap) (v : Value) : Option Tree := treeWith? (m.arrayTree? (m.arrays.size + 1)) v

end Heap

end Scriptlet
