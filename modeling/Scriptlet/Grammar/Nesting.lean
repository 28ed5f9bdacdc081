import Std.Data.HashMap
import Scriptlet.Grammar.Window

/-!
# Parenthesis structure

Operators are looked for outside of parentheses, so where parentheses open and close is worked
out once for a whole token list.  `Nesting` holds, for every position, how deep it is nested and
where the parentheses around it close, and for every token and depth the positions where that
token stands at that depth.  Depths count from the start of the list and may be negative.
-/

namespace Scriptlet

/-- The parenthesis structure of a token list. -/
structure Nesting where
  /-- The depth before each token, and behind the last one. -/
  depths : Array Int
  /-- For each position the first closing parenthesis from there on that leaves the depth of the
  position; the length of the list where there is none. -/
  closers : Array Nat
  /-- The ascending positions of each token at each depth. -/
  positions : Std.HashMap (Token × Int) (Array Nat)

namespace Nesting

/-- The depth before each token of a list that starts at depth `d`, and behind the last one. -/
def depthsFrom (d : Int) : List Token → List Int
  | [] => [d]
  | t :: ts => d :: depthsFrom (d + t.nesting) ts

/-- The closers of a list whose first token has position `i` and depth `d`, with the first closing
parenthesis for each depth; `none` stands for the position `size` behind the list. -/
def closersFrom (size i : Nat) (d : Int) : List Token → List Nat × Std.HashMap Int Nat
  | [] => ([size], ∅)
  | t :: ts =>
    let (rest, next) := closersFrom size (i + 1) (d + t.nesting) ts
    -- A closing parenthesis closes the depth at which it stands.
    let next := if t = .symbol .rparen then next.insert d i else next
    (next.getD d size :: rest, next)

/-- Adds the positions of the tokens of a list that starts at position `i` and depth `d`. -/
def positionsFrom (i : Nat) (d : Int) (found : Std.HashMap (Token × Int) (Array Nat)) :
    List Token → Std.HashMap (Token × Int) (Array Nat)
  | [] => found
  | t :: ts =>
    positionsFrom (i + 1) (d + t.nesting)
      (found.alter (t, d) fun known => some ((known.getD #[]).push i)) ts

/-- The parenthesis structure of `tokens`. -/
def ofTokens (tokens : List Token) : Nesting where
  depths := (depthsFrom 0 tokens).toArray
  closers := (closersFrom tokens.length 0 0 tokens).1.toArray
  positions := positionsFrom 0 0 ∅ tokens

/-- The depth at a position. -/
def depth (n : Nesting) (i : Nat) : Int := n.depths.getD i 0

/-- Where the parentheses around a position close. -/
def closer (n : Nesting) (i : Nat) : Nat := n.closers.getD i 0

/-- The closing parenthesis, inside the window, of the parentheses that the window starts in. -/
def closing? (n : Nesting) (w : Window) : Option Nat :=
  let c := n.closer w.lo
  if c < w.hi then some c else none

/-- Number of elements below `x` between the indices `lo` and `hi` of an ascending array, plus
`lo`. -/
def lowerBound (a : Array Nat) (x lo hi : Nat) : Nat :=
  if lo < hi then
    let mid := (lo + hi) / 2
    if a.getD mid 0 < x then lowerBound a x (mid + 1) hi else lowerBound a x lo mid
  else lo
termination_by hi - lo

/-- The first `t` in the window that is outside of any parentheses opened or closed in it. -/
def find? (n : Nesting) (t : Token) (w : Window) : Option Nat := do
  let known ← n.positions[(t, n.depth w.lo)]?
  let i ← known[lowerBound known w.lo 0 known.size]?
  if i < min w.hi (n.closer w.lo) then some i else none

end Nesting

end Scriptlet
