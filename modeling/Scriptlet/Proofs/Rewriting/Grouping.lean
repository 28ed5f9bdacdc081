import Scriptlet.Proofs.Rewriting.Bare
import Scriptlet.Typing.Check

/-!
# Parentheses only group

Checking passes through parentheses without a trace, and runs do not look at them.  So a program may
lose all its parentheses, once it is read, and nothing changes: `Program.ungrouped_alike`.
-/

namespace Scriptlet

namespace Check

theorem exprs_ungroupedAll_of {Γ : Context} {es : List Expr}
    (h : ∀ e ∈ es, expr Γ e.ungrouped = expr Γ e) :
    exprs Γ (Expr.ungroupedAll es) = exprs Γ es := by
  induction es with
  | nil => rfl
  | cons e es ih =>
    obtain ⟨he, hes⟩ := List.forall_mem_cons.1 h
    rw [Expr.ungroupedAll, exprs, exprs, he, ih hes]

/-- What is reported about a form, and the type of it, are those of the form without parentheses. -/
theorem expr_ungrouped (Γ : Context) (e : Expr) : expr Γ e.ungrouped = expr Γ e := by
  induction e using Expr.induction with
  | int | bool | char | str | var | returnUnit => rfl
  | parens span e ih => rw [Expr.ungrouped, expr, ih]
  | index _ _ _ ih | neg _ _ ih | not _ _ ih | declare _ _ _ _ ih | assign _ _ _ ih
  | returnValue _ _ ih => rw [Expr.ungrouped, expr, expr, ih]
  | binary _ _ _ _ ihl ihr | store _ _ _ _ _ ihl ihr => rw [Expr.ungrouped, expr, expr, ihl, ihr]
  | call _ _ _ ih => rw [Expr.ungrouped, expr, expr, exprs_ungroupedAll_of ih]
  | branch _ _ _ _ ihc ihb iho =>
    rw [Expr.ungrouped, expr, expr, ihc, exprs_ungroupedAll_of ihb, exprs_ungroupedAll_of iho]
  | forIn _ _ _ _ ihi ihb => rw [Expr.ungrouped, expr, expr, ihi, exprs_ungroupedAll_of ihb]
  | loop _ _ _ ihc ihb => rw [Expr.ungrouped, expr, expr, ihc, exprs_ungroupedAll_of ihb]

theorem function_ungrouped (known : Frame Signature) (f : Fun) :
    function known f.ungrouped = function known f := by
  have hbody : exprs ⟨known, Ty.ofRef? f.ungrouped.result⟩ f.ungrouped.body =
      exprs ⟨known, Ty.ofRef? f.result⟩ f.body :=
    exprs_ungroupedAll_of fun e _ => expr_ungrouped _ e
  rw [function, function, hbody]
  rfl

theorem functions_ungrouped (known : Frame Signature) (fs : List Fun) :
    functions known (fs.map Fun.ungrouped) = functions known fs := by
  induction fs with
  | nil => rfl
  | cons f fs ih => rw [List.map_cons, functions, functions, function_ungrouped, ih]

theorem collect_ungrouped (known : Frame Signature) (fs : List Fun) :
    collect known (fs.map Fun.ungrouped) = collect known fs := by
  induction fs generalizing known with
  | nil => rfl
  | cons f fs ih =>
    rw [List.map_cons, collect, collect, ih, ih]
    rfl

theorem entryPoint_ungrouped (fs : List Fun) :
    entryPoint (fs.map Fun.ungrouped) = entryPoint fs := by
  have hname : (fun f : Fun => decide (f.name = "main")) ∘ Fun.ungrouped =
      fun f : Fun => decide (f.name = "main") := rfl
  rw [entryPoint, entryPoint, List.find?_map, hname]
  cases fs.find? fun f => f.name = "main" <;> rfl

theorem program_ungrouped (p : Program) : program p.ungrouped = program p := by
  have hfunctions : p.ungrouped.functions = p.functions.map Fun.ungrouped := rfl
  simp only [program, signatures, hfunctions, collect_ungrouped, entryPoint_ungrouped,
    functions_ungrouped]

end Check

/-- Parentheses mean nothing beyond grouping.  A program without them is reported the same, in the
same order; and its run ends with the same value or for the same reason, and leaves the same
variables, arrays and console.  Its trace differs at most in entries about single statements. -/
theorem Program.ungrouped_alike (p : Program) :
    (∀ trace, p.ungrouped.check trace = p.check trace) ∧
      ∀ o s, (p.execute o s).Alike (p.ungrouped.execute o s) := by
  refine ⟨fun trace => ?_, fun o s => ?_⟩
  · rw [Program.check, Program.check, Check.program_ungrouped]
  · exact Program.alike_of_bare p.bare_ungrouped.symm o s

end Scriptlet
