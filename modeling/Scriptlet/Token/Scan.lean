import Scriptlet.Token.Literal

/-!
# Reading tokens

A source is read front to back.  At each position an ordered list of matchers is tried and the
first one that applies decides what stands there and how long it is.  Blanks and block comments
are passed over.  Where no matcher applies, the characters up to the next readable position are
gathered into one `Token.unexpected`.

All matchers work on the text from the position on, so no positions are handled before
`Scan.lexemes` attaches them.
-/

namespace Scriptlet

/-- What stands at a position of a source. -/
inductive Piece
  /-- A token. -/
  | token (t : Token)
  /-- Spaces or a block comment. -/
  | blank
  /-- The end of the source, or a line comment that reaches it. -/
  | finish
deriving DecidableEq

namespace Scan

/-- A piece with the number of its characters. -/
abbrev Found := Piece × Nat

/-! ## Runs -/

/-- Length of the longest start of `cs` all of whose characters satisfy `p`. -/
def run (p : Char → Bool) (cs : List Char) : Nat := (cs.takeWhile p).length

/-- The longest start of `cs` that is made of ASCII letters. -/
def word (cs : List Char) : String := String.ofList (cs.takeWhile Char.isAlpha)

/-- Characters up to and including the mark that closes a block comment. -/
def commentEnd? : List Char → Option Nat
  | '*' :: '/' :: _ => some 2
  | _ :: cs => (commentEnd? cs).map (· + 1)
  | [] => none

/-! ## Matchers -/

/-- Block comments, and line comments.  A line comment goes through the first line feed behind it;
only where there is none does a carriage return end it. -/
def comment? : List Char → Option Found
  | '/' :: '*' :: cs =>
    match commentEnd? cs with
    | some n => some (.blank, n + 2)
    -- A comment that is never closed takes the rest of the source.
    | none => some (.token .unexpected, cs.length + 2)
  | '/' :: '/' :: cs =>
    match (cs.findIdx? (· = '\n')).or (cs.findIdx? (· = '\r')) with
    | some n => some (.token .newline, n + 3)
    | none => some (.finish, cs.length + 2)
  | _ => none

/-- Symbols of one character. -/
def punct? : List Char → Option Found
  | c :: _ => (Punct.ofChar? c).map fun p => (.token (.symbol p), 1)
  | [] => none

/-- Reserved words: a whole run of letters. -/
def keyword? (cs : List Char) : Option Found :=
  (Keyword.ofSpelling? (word cs)).map fun k => (.token (.keyword k), run Char.isAlpha cs)

/-- Truth values: a whole run of letters. -/
def bool? (cs : List Char) : Option Found :=
  if word cs = "true" then some (.token (.bool true), 4)
  else if word cs = "false" then some (.token (.bool false), 5)
  else none

/-- Character literals, which hold exactly one character. -/
def char? : List Char → Option Found
  | '\'' :: cs =>
    match Literal.quoted? '\'' cs with
    | some (some [c], n) => some (.token (.char c), n + 1)
    | some (_, n) => some (.token .unexpected, n + 1)
    | none => some (.token .unexpected, cs.length + 1)
  | _ => none

/-- Names: letters and digits, the first of them no digit. -/
def ident? (cs : List Char) : Option Found :=
  match cs.takeWhile Char.isAlphanum with
  | [] => none
  | c :: rest =>
    if c.isDigit then none
    else some (.token (.ident (String.ofList (c :: rest))), rest.length + 1)

/-- Numbers.  A number glued to further letters or digits is none. -/
def int? (cs : List Char) : Option Found :=
  let n := run Literal.isDigitOrMark cs
  if n = 0 then none
  else
    -- Letters behind the digits belong to the same stretch, which is then no number.
    let glued := run Char.isAlphanum (cs.drop n)
    match glued, Literal.int? (cs.take n) with
    | 0, some v => some (.token (.int v), n)
    | _, _ => some (.token .unexpected, n + glued)

/-- Line ends. -/
def newline? : List Char → Option Found
  | '\r' :: '\n' :: _ => some (.token .newline, 2)
  | '\r' :: _ => some (.token .newline, 1)
  | '\n' :: _ => some (.token .newline, 1)
  | _ => none

/-- Operators of two characters. -/
def operator? : List Char → Option Found
  | '&' :: '&' :: _ => some (.token .andOp, 2)
  | '|' :: '|' :: _ => some (.token .orOp, 2)
  | '.' :: '.' :: _ => some (.token .rangeOp, 2)
  | _ => none

/-- Text literals. -/
def str? : List Char → Option Found
  | '"' :: cs =>
    match Literal.quoted? '"' cs with
    | some (some text, n) => some (.token (.str (String.ofList text)), n + 1)
    | some (none, n) => some (.token .unexpected, n + 1)
    | none => some (.token .unexpected, cs.length + 1)
  | _ => none

/-- Runs of spaces. -/
def spaces? (cs : List Char) : Option Found :=
  match run (· = ' ') cs with
  | 0 => none
  | n => some (.blank, n)

/-- The matchers, in the order in which they are tried. -/
def matchers : List (List Char → Option Found) :=
  [comment?, punct?, keyword?, bool?, char?, ident?, int?, newline?, operator?, str?, spaces?]

/-- The answer of the first matcher that applies at the start of `cs`. -/
def recognise? (cs : List Char) : Option Found :=
  matchers.findSome? fun matcher => matcher cs

/-! ## The reader -/

/-- Whether reading can go on properly at the start of `cs`. -/
def isReadable (cs : List Char) : Bool :=
  match recognise? cs with
  | some (piece, _) => piece != .token .unexpected
  | none => false

/-- Characters before the first readable position. -/
def strayLength : List Char → Nat
  | [] => 0
  | c :: cs => if isReadable (c :: cs) then 0 else strayLength cs + 1

/-- What stands at the start of `cs`. -/
def next : List Char → Found
  | [] => (.finish, 0)
  | c :: cs => (recognise? (c :: cs)).getD (.token .unexpected, strayLength cs + 1)

/-- What stands at position `pos` of `source`, and the position behind it. -/
def nextAt (source : List Char) (pos : Nat) : Found :=
  let found := next (source.drop pos)
  (found.1, pos + found.2)

/-- The lexemes of a source from position `pos` on, after passing over `skip` characters.  Walking
the characters one by one, also those of a token already read, makes the recursion structural. -/
def lexemesFrom : List Char → (pos skip : Nat) → List Lexeme
  | [], _, _ => []
  | _ :: cs, pos, skip + 1 => lexemesFrom cs (pos + 1) skip
  | c :: cs, pos, 0 =>
    match next (c :: cs) with
    | (.token t, n) =>
      ⟨t, ⟨pos, pos + n⟩, String.ofList ((c :: cs).take n)⟩ :: lexemesFrom cs (pos + 1) (n - 1)
    | (.blank, n) => lexemesFrom cs (pos + 1) (n - 1)
    | (.finish, _) => []

/-- Passing over characters is reading from behind them. -/
theorem lexemesFrom_skip (cs : List Char) (pos skip : Nat) :
    lexemesFrom cs pos skip = lexemesFrom (cs.drop skip) (pos + skip) 0 := by
  induction cs generalizing pos skip with
  | nil => simp [lexemesFrom]
  | cons c cs ih =>
    cases skip with
    | zero => rfl
    | succ skip =>
      rw [lexemesFrom, ih, List.drop_succ_cons]
      congr 1
      omega

/-- The lexemes of a source. -/
def lexemes (source : String) : List Lexeme := lexemesFrom source.toList 0 0

end Scan

end Scriptlet
