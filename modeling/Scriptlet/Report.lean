import Scriptlet.Text.Span

/-!
# Showing errors

An error is shown with the line of the source it points at, and marks under the place.  Lines end
at line feeds; a carriage return before one is not shown.
-/

namespace Scriptlet

/-- A line of a source with a marked stretch in it. -/
structure Excerpt where
  /-- The number of the line, counted from one. -/
  line : Nat
  /-- Characters of the line before the marks. -/
  indent : Nat
  /-- The line. -/
  text : List Char
  /-- The number of marks. -/
  width : Nat

namespace Excerpt

/-- Leaves out carriage returns at the end of a line. -/
def dropReturns (line : List Char) : List Char :=
  (line.reverse.dropWhile (· = '\r')).reverse

/-- The line that holds the start of a span, marked from there to the end of the span or of the
line; there is always at least one mark. -/
def ofSpan (source : List Char) (span : Span) : Excerpt :=
  -- A span behind the source points at its end.
  let lo := min span.lo source.length
  let before := (source.take lo).reverse.takeWhile (· ≠ '\n')
  let behind := (source.drop lo).takeWhile (· ≠ '\n')
  { line := (source.take lo).count '\n' + 1
    indent := before.length
    text := dropReturns (before.reverse ++ behind)
    width := max 1 (min span.hi (lo + behind.length) - lo) }

/-- The marks: a caret and tildes. -/
def marks (x : Excerpt) : List Char :=
  List.replicate x.indent ' ' ++ '^' :: List.replicate (x.width - 1) '~'

/-- The margin left of a line without a number. -/
def gutter (x : Excerpt) : String := "".pushn ' ' (toString x.line).length

/-- The three lines below the message. -/
def lines (x : Excerpt) (message : String) : List String :=
  [x.gutter ++ "--> " ++ toString x.line ++ ":" ++ toString (x.indent + 1),
   toString x.line ++ " | " ++ String.ofList x.text,
   x.gutter ++ " | " ++ String.ofList x.marks ++ " " ++ message]

end Excerpt

namespace Report

/-- The lines that show an error.  Without a place, or with the empty span at the very start, the
message stands alone. -/
def lines (source : String) (span : Option Span) (message : String) : List String :=
  let head := "error: " ++ message
  match span with
  | none => [head]
  | some s =>
    if s = .zero then [head] else head :: (Excerpt.ofSpan source.toList s).lines message

/-- The text that shows an error. -/
def render (source : String) (span : Option Span) (message : String) : String :=
  "\n".intercalate (lines source span message)

end Report

end Scriptlet
