import Scriptlet.Text.Lines

/-!
# The console

Lines come in, text goes out.
-/

namespace Scriptlet

/-- What is still to be read, and what has been printed. -/
structure Console where
  /-- The lines that have not been read yet. -/
  input : List String := []
  /-- Everything that was printed. -/
  output : String := ""

namespace Console

/-- A console on which nothing was read or printed yet. -/
def ofInput (text : String) : Console where
  input := (Text.lines (Text.unifyLineEnds text.toList)).map String.ofList

/-- Prints a text. -/
def print (c : Console) (text : String) : Console := { c with output := c.output ++ text }

/-- Takes the next line. -/
def readLine? (c : Console) : Option (String × Console) :=
  match c.input with
  | [] => none
  | l :: ls => some (l, { c with input := ls })

end Console

end Scriptlet
