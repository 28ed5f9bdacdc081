/-!
# Line ends

Files and the console mark the end of a line by a carriage return, a line feed or the two
together.  Reading turns each of them into one line feed.
-/

namespace Scriptlet.Text

/-- Turns every line end into a single line feed. -/
def unifyLineEnds : List Char → List Char
  | [] => []
  | '\r' :: '\n' :: cs => '\n' :: unifyLineEnds cs
  | c :: cs => (if c = '\r' then '\n' else c) :: unifyLineEnds cs

/-- No carriage return is left. -/
theorem return_notMem_unifyLineEnds (cs : List Char) : '\r' ∉ unifyLineEnds cs := by
  fun_induction unifyLineEnds cs with
  | case1 => exact List.not_mem_nil
  | case2 cs ih => simpa using ih
  | case3 c cs _ ih =>
    rw [List.mem_cons, not_or]
    refine ⟨?_, ih⟩
    split
    · decide
    · exact fun h => ‹¬c = '\r'› h.symm

/-- The lines of a text whose line ends are line feeds.  A last line without a line end counts, a
line feed at the very end starts no further line. -/
def lines : List Char → List (List Char)
  | [] => []
  | c :: cs =>
    if c = '\n' then [] :: lines cs
    else match lines cs with
      | [] => [[c]]
      | l :: ls => (c :: l) :: ls

end Scriptlet.Text
