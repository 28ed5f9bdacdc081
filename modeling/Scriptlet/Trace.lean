/-!
# Traces

A trace keeps the entries whose level does not exceed its verbosity.  Level 1 is for the stages of
the pipeline, 2 for calls, declarations and diagnostics, 3 for branches and rounds of loops, 4 for
every statement.  With verbosity 0 there is no trace.
-/

namespace Scriptlet

/-- One line of a trace. -/
structure TraceEntry where
  /-- The verbosity from which on the entry is kept. -/
  level : Nat
  /-- The text of the line. -/
  text : String
deriving DecidableEq

/-- The entries kept so far. -/
structure Trace where
  /-- The largest level that is kept. -/
  verbosity : Nat
  /-- The entries in the order in which they were written. -/
  entries : Array TraceEntry := #[]

namespace Trace

/-- Whether entries of a level are kept. -/
def keeps (t : Trace) (level : Nat) : Bool := level ≤ t.verbosity

/-- Writes an entry. -/
@[inline] def write (t : Trace) (level : Nat) (text : String) : Trace :=
  if t.keeps level then { t with entries := t.entries.push ⟨level, text⟩ } else t

theorem verbosity_write (t : Trace) (level : Nat) (text : String) :
    (t.write level text).verbosity = t.verbosity := by
  rw [write]
  split <;> rfl

/-- What a written entry adds. -/
theorem toList_entries_write (t : Trace) (level : Nat) (text : String) :
    (t.write level text).entries.toList =
      t.entries.toList ++ if level ≤ t.verbosity then [⟨level, text⟩] else [] := by
  by_cases h : level ≤ t.verbosity <;> simp [write, keeps, h]

/-- The lines of a trace. -/
def render (t : Trace) : String :=
  t.entries.foldl (fun acc e => acc ++ e.text ++ "\n") ""

/-- The lines of a trace, if there is one at all. -/
def render? (t : Trace) : Option String :=
  if 0 < t.verbosity then some t.render else none

end Trace

end Scriptlet
