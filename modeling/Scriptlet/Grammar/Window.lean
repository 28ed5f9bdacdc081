import Scriptlet.Syntax.Error

/-!
# Windows

A rule of the grammar reads from a window `[lo, hi)` of the lexemes of a source.  Reading moves
`lo` towards `hi`; a rule for an operator cuts the window in two.
-/

namespace Scriptlet

/-- The lexemes from number `lo` up to, not including, number `hi`. -/
structure Window where
  /-- The first lexeme. -/
  lo : Nat
  /-- The lexeme behind the last one. -/
  hi : Nat
deriving DecidableEq, Hashable

namespace Window

/-- Number of lexemes. -/
def length (w : Window) : Nat := w.hi - w.lo

/-- The window without its first `n` lexemes. -/
def drop (w : Window) (n : Nat) : Window := ⟨min (w.lo + n) w.hi, w.hi⟩

/-- The first `n` lexemes. -/
def left (w : Window) (n : Nat) : Window := ⟨w.lo, w.lo + n⟩

/-- What follows the first `n` lexemes. -/
def right (w : Window) (n : Nat) : Window := ⟨w.lo + n, w.hi⟩

/-- Element `i` of the window. -/
def get? (w : Window) (lexemes : Array Lexeme) (i : Nat) : Option Lexeme :=
  if i < w.length then lexemes[w.lo + i]? else none

/-- The first lexeme of the window; there must be one. -/
def first (w : Window) (lexemes : Array Lexeme) : Except SyntaxError Lexeme :=
  match w.get? lexemes 0 with
  | some l => .ok l
  | none => .error .endOfInput

/-- The lexemes in the window. -/
def toList (w : Window) (lexemes : Array Lexeme) : List Lexeme :=
  (lexemes.toList.drop w.lo).take w.length

end Window

/-- How a token changes the number of open parentheses. -/
def Token.nesting : Token → Int
  | .symbol .lparen => 1
  | .symbol .rparen => -1
  | _ => 0

end Scriptlet
