import Scriptlet.Token.Literal

/-!
# Spelling tokens

How tokens are written in a source.  Written with a space between any two, tokens can be read back.
-/

namespace Scriptlet.Token

/-- A character between two `q`s: the quote and the backslash get a backslash before them. -/
def spellChar (q c : Char) : List Char := if c = q ∨ c = '\\' then ['\\', c] else [c]

/-- A text between two `q`s. -/
def spellQuoted (q : Char) (cs : List Char) : List Char := q :: cs.flatMap (spellChar q) ++ [q]

/-- A token as it is written. -/
def spell : Token → List Char
  | newline => ['\n']
  | ident name => name.toList
  | symbol p => [p.char]
  | str text => spellQuoted '"' text.toList
  | char c => spellQuoted '\'' [c]
  | int n => Nat.toDigits 10 n
  | bool b => (if b then "true" else "false").toList
  | andOp => ['&', '&']
  | orOp => ['|', '|']
  | rangeOp => ['.', '.']
  | keyword k => k.spelling.toList
  | unexpected => []

/-- Tokens with a space between any two. -/
def spellAll (ts : List Token) : List Char := [' '].intercalate (ts.map spell)

/-- The word of letters that a text starts with is no reserved word and no truth value. -/
def FreeWord (cs : List Char) : Prop :=
  let word := String.ofList (cs.takeWhile Char.isAlpha)
  Keyword.ofSpelling? word = none ∧ word ≠ "true" ∧ word ≠ "false"

/-- A name that is read as one: a letter, then letters and digits, not starting like a reserved
word or a truth value. -/
def IsName (name : String) : Prop :=
  ∃ c cs, name.toList = c :: cs ∧ c.isAlpha ∧ cs.all Char.isAlphanum ∧ FreeWord name.toList

/-- Tokens that are read back from how they are written. -/
def IsWritable : Token → Prop
  | ident name => IsName name
  | int n => n ≤ Literal.maxInt
  | unexpected => False
  | _ => True

end Scriptlet.Token
