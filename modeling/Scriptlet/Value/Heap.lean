import Scriptlet.Value

/-!
# The heap

The arrays that a program has made.  An array keeps its length; its elements can be replaced.
-/

namespace Scriptlet

/-- Arrays, each at the place its handle names. -/
structure Heap where
  /-- The elements of the arrays. -/
  arrays : Array (Array Value) := #[]

namespace Heap

/-- The elements of an array. -/
def items (m : Heap) (h : Handle) : Array Value := m.arrays.getD h.id #[]

/-- Adds an array. -/
def alloc (m : Heap) (items : Array Value) : Handle × Heap :=
  (⟨m.arrays.size⟩, ⟨m.arrays.push items⟩)

/-- Replaces an element of an array; nothing happens where there is none. -/
def store (m : Heap) (h : Handle) (i : Nat) (v : Value) : Heap :=
  ⟨m.arrays.modify h.id fun a => a.setIfInBounds i v⟩

/-- A new array holds its elements. -/
theorem items_alloc (m : Heap) (items : Array Value) :
    (m.alloc items).2.items (m.alloc items).1 = items := by
  simp [alloc, Heap.items]

/-- Replacing elements keeps the length of every array. -/
theorem size_items_store (m : Heap) (h : Handle) (i : Nat) (v : Value) (other : Handle) :
    ((m.store h i v).items other).size = (m.items other).size := by
  simp only [store, items, Array.getD_eq_getD_getElem?, Array.getElem?_modify]
  split
  · cases m.arrays[other.id]? <;> simp
  · rfl

/-! ## Showing values -/

/-- An array as it is shown, unless arrays are nested `depth` deep. -/
def describeArray? (m : Heap) : (depth : Nat) → Handle → Option CodeText
  | 0, _ => none
  | depth + 1, h => do
    let shown ← (m.items h).toList.mapM (Value.describe? (describeArray? m depth))
    return "arrayOf(" ++ CodeText.joinWith ", " shown ++ ")"

/-- A value as it is shown inside arrays and ranges; `none` when an array contains itself. -/
def describe? (m : Heap) (v : Value) : Option CodeText :=
  v.describe? (m.describeArray? (m.arrays.size + 1))

/-- A value as it is printed; `none` when an array contains itself. -/
def text? (m : Heap) : Value → Option CodeText
  | .bool b => some (if b then "true" else "false")
  | .int n => some (toString n)
  | .str s => some s
  | .char c => some (.singleton c)
  | v => m.describe? v

/-- The texts of several values. -/
def texts? (m : Heap) (vs : List Value) : Option (List CodeText) := vs.mapM m.text?

end Heap

end Scriptlet
