/-!
# Spans

A span is a half-open stretch of a text, counted in code points.  Tokens, syntax nodes and
diagnostics all say with a span where they come from.
-/

namespace Scriptlet

/-- The positions `lo ≤ p < hi` of a text. -/
structure Span where
  /-- The first position. -/
  lo : Nat
  /-- The position after the last one. -/
  hi : Nat
deriving DecidableEq, Inhabited

namespace Span

/-- The span at the very start that covers nothing; it stands for "the program as a whole". -/
def zero : Span := ⟨0, 0⟩

/-- Written as `lo..hi`. -/
def render (s : Span) : String := toString s.lo ++ ".." ++ toString s.hi

/-- Containment of `s` in `t`. -/
def Within (s t : Span) : Prop := t.lo ≤ s.lo ∧ s.hi ≤ t.hi

end Span

end Scriptlet
