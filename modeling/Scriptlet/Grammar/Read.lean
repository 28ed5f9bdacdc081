import Scriptlet.Grammar.Solve

/-!
# Reading lexemes

Programs, and fragments of them, from lexemes.  Every question that a rule asks is about a shorter
window, or about the same window one level below, so `Window.enoughDepth` is never exceeded; a
smaller depth bounds how deep expressions may be nested.
-/

namespace Scriptlet

/-- A depth of questions that rules on this window cannot exceed. -/
def Window.enoughDepth (w : Window) : Nat := 2 * w.length + 2

/-! ## Fragments -/

/-- Reads a fragment from a window of the lexemes: the fragment and the window that is left.
Nothing is read when questions are nested `depth` deep. -/
def Production.read? (p : Production) (depth : Nat) (lexemes : List Lexeme) (w : Window) :
    Option (Except SyntaxError (Fragment × Window)) :=
  let L := Layout.indexed lexemes
  (((p.rule L).tabled L depth w).run' ∅).map fun o =>
    o.map fun found => (found.1, ⟨found.2, w.hi⟩)

/-- Reads a fragment from a window of the lexemes. -/
def Production.read (p : Production) (lexemes : List Lexeme) (w : Window) :
    Except SyntaxError (Fragment × Window) :=
  (p.read? w.enoughDepth lexemes w).getD (.error .endOfInput)

/-! ## Programs -/

namespace Program

/-- Reads a program and what is left over.  Nothing is read when questions are nested `depth`
deep. -/
def splitLexemes? (depth : Nat) (lexemes : List Lexeme) :
    Option (Except SyntaxError (Program × List Lexeme)) :=
  let L := Layout.indexed lexemes
  (((Grammar.program L).tabled L depth ⟨0, lexemes.length⟩).run' ∅).map fun o =>
    o.map fun found => (found.1, lexemes.drop found.2)

/-- Reads a program and what is left over. -/
def splitLexemes (lexemes : List Lexeme) : Except SyntaxError (Program × List Lexeme) :=
  (splitLexemes? (Window.enoughDepth ⟨0, lexemes.length⟩) lexemes).getD (.error .endOfInput)

/-- A program that leaves nothing over. -/
def complete : Program × List Lexeme → Except SyntaxError Program
  | (p, []) => .ok p
  | (_, l :: _) => .error (.leftover l)

/-- Reads a program that leaves nothing over.  Nothing is read when questions are nested `depth`
deep. -/
def ofLexemes? (depth : Nat) (lexemes : List Lexeme) : Option (Except SyntaxError Program) :=
  (splitLexemes? depth lexemes).map (· >>= complete)

/-- Reads a program that leaves nothing over. -/
def ofLexemes (lexemes : List Lexeme) : Except SyntaxError Program :=
  splitLexemes lexemes >>= complete

end Program

end Scriptlet
