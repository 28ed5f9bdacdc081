import Scriptlet.Grammar.Rules

/-!
# Searching by scanning

The searches that the grammar needs, as plain scans from the start of a window.  A scan counts the
parentheses that are open since the start.  `Nesting` answers the same questions from tables.
-/

namespace Scriptlet.Search

/-- Among the `n` lexemes from `i` on, with `depth` parentheses open, the closing parenthesis that
closes one more than were opened. -/
def closingFrom (lexemes : Array Lexeme) : (n i depth : Nat) → Option Nat
  | 0, _, _ => none
  | n + 1, i, depth =>
    match (lexemes[i]?).map Lexeme.token, depth with
    | some (.symbol .lparen), depth => closingFrom lexemes n (i + 1) (depth + 1)
    | some (.symbol .rparen), 0 => some i
    | some (.symbol .rparen), depth + 1 => closingFrom lexemes n (i + 1) depth
    | _, depth => closingFrom lexemes n (i + 1) depth

/-- The closing parenthesis, inside the window, of the parentheses that the window starts in. -/
def closing? (lexemes : Array Lexeme) (w : Window) : Option Nat :=
  closingFrom lexemes w.length w.lo 0

/-- Among the `n` lexemes from `i` on, with `depth` parentheses open, the first `t` outside of
parentheses and before one that closes more than were opened. -/
def findFrom (lexemes : Array Lexeme) (t : Token) : (n i depth : Nat) → Option Nat
  | 0, _, _ => none
  | n + 1, i, depth =>
    match lexemes[i]? with
    | none => none
    | some l =>
      if l.token = .symbol .rparen ∧ depth = 0 then none
      else if l.token = t ∧ depth = 0 then some i
      else findFrom lexemes t n (i + 1) (depth + l.token.nesting).toNat

/-- The first `t` in the window that is outside of any parentheses opened or closed in it. -/
def find? (lexemes : Array Lexeme) (t : Token) (w : Window) : Option Nat :=
  findFrom lexemes t w.length w.lo 0

/-- Among the `n` lexemes from `i` on, with `depth` parentheses open, the first `t` outside of
parentheses.  Unmatched closing parentheses count as negative depth and end nothing. -/
def findAnywhereFrom (lexemes : Array Lexeme) (t : Token) :
    (n i : Nat) → (depth : Int) → Option Nat
  | 0, _, _ => none
  | n + 1, i, depth =>
    match lexemes[i]? with
    | none => none
    | some l =>
      if l.token = t ∧ depth = 0 then some i
      else findAnywhereFrom lexemes t n (i + 1) (depth + l.token.nesting)

/-- The first `t` in the window at the depth at which the window starts. -/
def findAnywhere? (lexemes : Array Lexeme) (t : Token) (w : Window) : Option Nat :=
  findAnywhereFrom lexemes t w.length w.lo 0

end Scriptlet.Search

namespace Scriptlet.Layout

/-- The layout whose searches are scans. -/
def scanned (lexemes : List Lexeme) : Layout where
  lexemes := lexemes.toArray
  closing? := Search.closing? lexemes.toArray
  find? := Search.find? lexemes.toArray

/-- The layout whose searches for operators go on behind unmatched closing parentheses. -/
def scannedAnywhere (lexemes : List Lexeme) : Layout where
  lexemes := lexemes.toArray
  closing? := Search.closing? lexemes.toArray
  find? := Search.findAnywhere? lexemes.toArray

end Scriptlet.Layout
