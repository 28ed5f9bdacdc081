import Scriptlet.Text.CodeText
import Scriptlet.Text.Printable

/-!
# Quoted texts

The form in which a text is shown inside a message or inside the rendering of an array.  It is
put between single quotes, or between double quotes when it holds a single quote and no double
one.  The quote in use and the backslash are escaped, and a code point that is not printable is
written by its number, surrogates included, so that the quoted form consists of characters.
-/

namespace Scriptlet.Text.Quoted

/-- Hexadecimal digits of `n`, in lower case, padded with zeros to at least `width`. -/
def hex (width n : Nat) : List Char :=
  let digits := Nat.toDigits 16 n
  List.replicate (width - digits.length) '0' ++ digits

/-- The quote put around a text. -/
def delimiter (t : CodeText) : Char :=
  if t.points.contains (.ofChar '\'') && !t.points.contains (.ofChar '"') then '"' else '\''

/-- A code point as it is written by its number. -/
def escapeNumber (n : Nat) : List Char :=
  if n < 0x100 then '\\' :: 'x' :: hex 2 n
  else if n < 0x10000 then '\\' :: 'u' :: hex 4 n
  else '\\' :: 'U' :: hex 8 n

/-- One character as it is written between two `q`s. -/
def escape (q c : Char) : List Char :=
  if c = q ∨ c = '\\' then ['\\', c]
  else if c = '\n' then ['\\', 'n']
  else if c = '\r' then ['\\', 'r']
  else if c = '\t' then ['\\', 't']
  else if isPrintable c then [c]
  else escapeNumber c.toNat

/-- One code point as it is written between two `q`s. -/
def escapePoint (q : Char) (p : CodePoint) : List Char :=
  match p.toChar? with
  | some c => escape q c
  | none => escapeNumber p.val

/-- The quoted form of a text. -/
def quote (t : CodeText) : String :=
  let q := delimiter t
  String.ofList (q :: t.points.flatMap (escapePoint q) ++ [q])

end Scriptlet.Text.Quoted
