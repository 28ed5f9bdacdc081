import Scriptlet.Token

/-!
# Literals

How the contents of literals are read: quoted literals with their escapes, and numbers in their
three bases.
-/

namespace Scriptlet.Literal

/-! ## Quoted literals -/

/-- The character that a backslash followed by `c` stands for. -/
def unescape? (c : Char) : Option Char :=
  if c = 't' then some '\t'
  else if c = 'b' then some '\x08'
  else if c = 'n' then some '\n'
  else if c = 'r' then some '\r'
  else if c = '"' ∨ c = '\'' ∨ c = '\\' ∨ c = '$' then some c
  else none

/-- Reads a quoted literal from behind its opening quote `q`: its decoded contents, `none` inside
when it holds an unknown escape, and the number of characters read up to and including the closing
quote.  Without a closing quote there is no literal. -/
def quoted? (q : Char) : List Char → Option (Option (List Char) × Nat)
  | [] => none
  | c :: cs =>
    if c = '\\' then
      -- A backslash takes the next character with it, a quote included.
      match cs with
      | [] => none
      | e :: rest =>
        (quoted? q rest).map fun r => ((unescape? e).bind fun d => r.1.map (d :: ·), r.2 + 2)
    else if c = q then some (some [], 1)
    else (quoted? q cs).map fun r => (r.1.map (c :: ·), r.2 + 1)

/-! ## Numbers -/

/-- The largest number a literal may denote, `2^31 - 1`. -/
def maxInt : Nat := 2147483647

/-- Digits that a number can be converted from at most, leading zeros included. -/
def maxDecimalDigits : Nat := 4300

/-- The value of a digit in a base up to sixteen. -/
def digit? (base : Nat) (c : Char) : Option Nat :=
  let v :=
    if '0' ≤ c ∧ c ≤ '9' then c.toNat - '0'.toNat
    else if 'a' ≤ c ∧ c ≤ 'f' then c.toNat - 'a'.toNat + 10
    else if 'A' ≤ c ∧ c ≤ 'F' then c.toNat - 'A'.toNat + 10
    else base
  if v < base then some v else none

/-- The number denoted by a non-empty run of digits, most significant first. -/
def number? (base : Nat) (cs : List Char) : Option Nat :=
  if cs.isEmpty then none
  else cs.foldl (fun acc c => acc.bind fun n => (digit? base c).map (n * base + ·)) (some 0)

/-- Hexadecimal digits, which may repeat the mark `0x`. -/
def hexadecimal? : List Char → Option Nat
  | '0' :: 'x' :: cs => number? 16 cs
  | cs => number? 16 cs

/-- Binary digits, which may repeat the mark `0b` with either case of the letter. -/
def binary? : List Char → Option Nat
  | '0' :: 'b' :: cs => number? 2 cs
  | '0' :: 'B' :: cs => number? 2 cs
  | cs => number? 2 cs

/-- Decimal digits, of which there is a largest number. -/
def decimal? (cs : List Char) : Option Nat :=
  if cs.length ≤ maxDecimalDigits then number? 10 cs else none

/-- The number denoted by a run of digits with an optional mark of its base; `none` when the run
is no number or denotes one that is too large. -/
def int? (cs : List Char) : Option Nat :=
  let n? := match cs with
    | '0' :: 'x' :: ds => hexadecimal? ds
    | '0' :: 'b' :: ds => binary? ds
    | ds => decimal? ds
  n?.filter (· ≤ maxInt)

/-- Whether `c` may stand in a run that is tried as a number. -/
def isDigitOrMark (c : Char) : Bool := (digit? 16 c).isSome || c = 'x'

end Scriptlet.Literal
