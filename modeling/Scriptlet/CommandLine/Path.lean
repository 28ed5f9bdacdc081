/-!
# Paths

Paths are written with slashes.  Empty names and names that are a single dot mean nothing and are
left out; a path without names is the dot.
-/

namespace Scriptlet.CommandLine

/-- A path: what makes it absolute, and the names along it. -/
structure Path where
  /-- The slashes at the start of an absolute path; empty for a relative one. -/
  root : String
  /-- The names along the path. -/
  names : List String
deriving DecidableEq

namespace Path

/-- The pieces of a text between slashes. -/
def pieces : List Char → List (List Char)
  | [] => [[]]
  | c :: cs =>
    if c = '/' then [] :: pieces cs
    else match pieces cs with
      | [] => [[c]]
      | p :: ps => (c :: p) :: ps

/-- The slashes that make a path absolute: exactly two stay two, any other number counts as one. -/
def rootOf (cs : List Char) : String :=
  match (cs.takeWhile (· = '/')).length with
  | 0 => ""
  | 2 => "//"
  | _ => "/"

/-- Reads a path, leaving out what means nothing. -/
def ofString (text : String) : Path where
  root := rootOf text.toList
  names := ((pieces text.toList).filter fun p => p ≠ [] ∧ p ≠ ['.']).map String.ofList

/-- Writes a path. -/
def render (p : Path) : String :=
  let joined := p.root ++ "/".intercalate p.names
  if joined = "" then "." else joined

end Path

end Scriptlet.CommandLine
