import Scriptlet.Proofs.Eval.Calls
import Scriptlet.Proofs.Rewriting.Bare
import Scriptlet.Proofs.Typing.Steady

/-!
# The order of declarations

A program is a table of functions.  Checking reports what is wrong with each function by itself, so
with distinct names the order of the functions only decides the order of the reports.  Running looks
a name up in the table, so it does not get to a function behind another one of its name, nor to one
named like a built-in function.  `Program.order_of_declarations` says both.
-/

namespace Scriptlet

/-- Of functions with distinct names, a name means the same one in whatever order they stand. -/
theorem Fun.find?_eq_of_perm {fs gs : List Fun} (hnodup : (fs.map Fun.name).Nodup)
    (h : gs.Perm fs) (name : String) :
    gs.find? (fun f => f.name = name) = fs.find? fun f => f.name = name := by
  have hnodup' : (gs.map Fun.name).Nodup := (h.map Fun.name).nodup_iff.2 hnodup
  cases hfind : fs.find? fun f => f.name = name with
  | none =>
    rw [List.find?_eq_none] at hfind ⊢
    exact fun f hf => hfind f (h.mem_iff.1 hf)
  | some f =>
    have hname : f.name = name := by simpa using List.find?_some hfind
    subst hname
    exact Check.find?_eq_some_of_nodup hnodup' (h.mem_iff.2 (List.mem_of_find?_eq_some hfind))

namespace Check

/-! ## What is wrong with a program -/

/-- What is wrong with how a program is started. -/
def startProblems (fs : List Fun) : List Diagnostic :=
  ((entryPoint fs).run { trace := ⟨0, #[]⟩ }).2.diagnostics

theorem diagnostics_entryPoint (fs : List Fun) (trace : Trace) :
    ((entryPoint fs).run { trace }).2.diagnostics = startProblems fs := by
  have hscope : (Checking.mk .empty [] trace).scope = (Checking.mk .empty [] ⟨0, #[]⟩).scope := rfl
  obtain ⟨-, -, ds, hds, hds'⟩ := (steady_entryPoint fs).steady hscope
  rw [startProblems, hds, hds']

theorem startProblems_of_perm {fs gs : List Fun} (hnodup : (fs.map Fun.name).Nodup)
    (h : gs.Perm fs) : startProblems gs = startProblems fs := by
  rw [startProblems, startProblems, entryPoint, entryPoint, Fun.find?_eq_of_perm hnodup h]

/-- The signatures of functions with distinct names are collected without a report. -/
theorem run_signatures_of_nodup {p : Program} (h : (p.functions.map Fun.name).Nodup)
    (c : Checking) :
    (signatures p).run c = (p.signatures, ((entryPoint p.functions).run c).2) := by
  have hcollect : (collect [] p.functions).run c = (p.signatures, c) :=
    (quiet_collect.2 ⟨Frame.fresh_empty.2 h, rfl, rfl⟩).1
  rw [signatures, run_bind, hcollect]
  rfl

end Check

namespace Program

variable {p q : Program}

/-- What is wrong with a program is what is wrong with its start and with each function. -/
theorem check_of_nodup (h : (p.functions.map Fun.name).Nodup) (trace : Trace) :
    (p.check trace).1 = Check.startProblems p.functions ++
      p.functions.flatMap (Check.problemsOf p.signatures) := by
  -- What is noted at the end is no report.
  have hrun : (p.check trace).1 =
      ((Check.functions ((Check.signatures p).run { trace }).1 p.functions).run
        ((Check.signatures p).run { trace }).2).2.diagnostics := rfl
  rw [hrun, Check.run_signatures_of_nodup h, Check.diagnostics_functions,
    Check.diagnostics_entryPoint]

/-- Functions in another order are reported the same, in another order. -/
theorem check_perm (hnodup : (p.functions.map Fun.name).Nodup) (h : q.functions.Perm p.functions)
    (trace trace' : Trace) : (q.check trace').1.Perm (p.check trace).1 := by
  have hnodup' : (q.functions.map Fun.name).Nodup := (h.map Fun.name).nodup_iff.2 hnodup
  have hsignatures : ∀ name, q.signatures.get? name = p.signatures.get? name := by
    intro name
    rw [get?_signatures, get?_signatures, find?, find?, Fun.find?_eq_of_perm hnodup h]
  have hproblems : Check.problemsOf q.signatures = Check.problemsOf p.signatures := by
    funext f
    exact Check.problemsOf_congr hsignatures f
  rw [check_of_nodup hnodup', check_of_nodup hnodup, hproblems,
    Check.startProblems_of_perm hnodup h]
  exact (h.flatMap_right _).append_left _

/-! ## What names mean -/

/-- Each name that is not a built-in function's means the same function in both programs, or is
unknown in both. -/
def SameMeanings (p q : Program) : Prop :=
  ∀ name, Builtin.ofName? name = none → q.find? name = p.find? name

theorem SameMeanings.linked (h : p.SameMeanings q) : p.Linked Eq q := by
  intro name hname
  rw [h name hname]
  cases p.find? name with
  | none => exact .none
  | some f => exact .some (Fun.linked_eq rfl fun _ => rfl)

theorem SameMeanings.ungrouped (h : p.SameMeanings q) : p.ungrouped.SameMeanings q.ungrouped := by
  intro name hname
  have hname' : ∀ f : Fun, f.ungrouped.name = f.name := fun _ => rfl
  rw [Program.ungrouped, Program.ungrouped, find?_map hname', find?_map hname', h name hname]

theorem SameMeanings.execute_eq (h : p.SameMeanings q) (o : Settings) (s : State) :
    q.execute o s = p.execute o s :=
  execute_eq_of_linked h.linked o s

/-- If names mean the same functions up to spans, the programs run alike. -/
theorem SameMeanings.alike (h : p.spanless.SameMeanings q.spanless) (o : Settings) (s : State) :
    (p.execute o s).Alike (q.execute o s) := by
  have hp := p.alike_bare o s
  have hq := (q.alike_bare o s).symm
  have hbare : q.bare.execute o s = p.bare.execute o s := h.ungrouped.execute_eq o s
  rw [hbare] at hq
  exact hp.trans hq

theorem sameMeanings_of_perm (hnodup : (p.functions.map Fun.name).Nodup)
    (h : q.functions.Perm p.functions) : p.SameMeanings q :=
  fun name _ => Fun.find?_eq_of_perm hnodup h name

/-- Leaving out a function that no name means. -/
theorem sameMeanings_of_shadowed {before after : List Fun} {f : Fun}
    (hp : p.functions = before ++ f :: after) (hq : q.functions = before ++ after)
    (hf : Builtin.ofName? f.name ≠ none ∨ ∃ g ∈ before, g.name = f.name) : p.SameMeanings q := by
  intro name hname
  rw [find?, find?, hp, hq, List.find?_append, List.find?_append]
  cases hbefore : before.find? fun f => f.name = name with
  | some g => rfl
  | none =>
    -- The name is looked for behind `before`, and `f` is not what it means.
    have hne : f.name ≠ name := by
      rintro rfl
      rcases hf with hbuiltin | ⟨g, hg, hgf⟩
      · exact hbuiltin hname
      · exact List.find?_eq_none.1 hbefore g hg (decide_eq_true hgf)
    rw [List.find?_cons_of_neg (by simpa using hne)]

/-- The order of declarations does not matter, and declarations that no name means are not run.

With distinct names, a program is reported the same, up to order, in whatever order its functions
stand; so it is accepted or not in all orders.  Runs, of programs that are accepted or not, are a
matter of what the names mean that are not built-in functions': if these mean the same functions,
the runs are the same, and if they mean the same functions up to spans, the programs run alike.  So
nothing changes if functions with distinct names are put into another order, or if a function is
left out that stands behind another one of its name or that is named like a built-in function. -/
theorem order_of_declarations (p q : Program) :
    ((p.functions.map Fun.name).Nodup → q.functions.Perm p.functions →
      (∀ trace trace', (q.check trace').1.Perm (p.check trace).1 ∧
        ((q.check trace').1 = [] ↔ (p.check trace).1 = [])) ∧
      ∀ o s, q.execute o s = p.execute o s) ∧
    (p.SameMeanings q → ∀ o s, q.execute o s = p.execute o s) ∧
    (p.spanless.SameMeanings q.spanless → ∀ o s, (p.execute o s).Alike (q.execute o s)) ∧
    ∀ before f after, p.functions = before ++ f :: after → q.functions = before ++ after →
      (Builtin.ofName? f.name ≠ none ∨ ∃ g ∈ before, g.name = f.name) →
      ∀ o s, q.execute o s = p.execute o s := by
  refine ⟨fun hnodup h => ⟨fun trace trace' => ?_, ?_⟩, ?_, ?_, ?_⟩
  · have hperm := check_perm hnodup h trace trace'
    refine ⟨hperm, ?_⟩
    rw [← List.length_eq_zero_iff, hperm.length_eq, List.length_eq_zero_iff]
  · exact (sameMeanings_of_perm hnodup h).execute_eq
  · exact SameMeanings.execute_eq
  · exact SameMeanings.alike
  · intro before f after hp hq hf
    exact (sameMeanings_of_shadowed hp hq hf).execute_eq

/-- A function that prints its name and calls another one, with an argument that this one does not
take. All of it stands at `span`. -/
def forwarding (name callee : String) (span : Span) : Fun where
  span := span
  name := name
  params := []
  result := none
  body := [.call span "println" [.str span name], .call span callee [.int span 0]]

/-- Two functions that call each other, the main one first. -/
def mainFirst : Program :=
  ⟨.zero, [forwarding "main" "echo" .zero, forwarding "echo" "main" .zero]⟩

/-- Two functions that call each other, the main one last. -/
def mainLast : Program :=
  ⟨.zero, [forwarding "echo" "main" .zero, forwarding "main" "echo" .zero]⟩

/-- The same functions at other places. -/
def moved : Program :=
  ⟨⟨0, 9⟩, [forwarding "echo" "main" ⟨0, 4⟩, forwarding "main" "echo" ⟨5, 9⟩]⟩

/-- With a function that is named like a built-in one. -/
def withPrintln : Program :=
  ⟨.zero, [forwarding "main" "echo" .zero, forwarding "println" "main" .zero,
    forwarding "echo" "main" .zero]⟩

theorem order_of_declarations_mainLast :
    ((mainLast.check ⟨0, #[]⟩).1.Perm (mainFirst.check ⟨0, #[]⟩).1 ∧
      ((mainLast.check ⟨0, #[]⟩).1 = [] ↔ (mainFirst.check ⟨0, #[]⟩).1 = [])) ∧
    mainLast.execute .standard { trace := ⟨0, #[]⟩ } =
      mainFirst.execute .standard { trace := ⟨0, #[]⟩ } ∧
    (mainFirst.execute .standard { trace := ⟨0, #[]⟩ }).Alike
      (moved.execute .standard { trace := ⟨0, #[]⟩ }) ∧
    mainFirst.execute .standard { trace := ⟨0, #[]⟩ } =
      withPrintln.execute .standard { trace := ⟨0, #[]⟩ } := by
  have hnodup : (mainFirst.functions.map Fun.name).Nodup := by decide
  have hperm : mainLast.functions.Perm mainFirst.functions := .swap _ _ _
  have hmeanings : mainFirst.SameMeanings mainLast := sameMeanings_of_perm hnodup hperm
  have hmoved : mainFirst.spanless.SameMeanings moved.spanless :=
    sameMeanings_of_perm (by decide) (.swap _ _ _)
  have hprintln : Builtin.ofName? "println" ≠ none := by decide
  exact ⟨((order_of_declarations mainFirst mainLast).1 hnodup hperm).1 _ _,
    (order_of_declarations mainFirst mainLast).2.1 hmeanings _ _,
    (order_of_declarations mainFirst moved).2.2.1 hmoved _ _,
    (order_of_declarations withPrintln mainFirst).2.2.2 [forwarding "main" "echo" .zero]
      (forwarding "println" "main" .zero) [forwarding "echo" "main" .zero] rfl rfl (.inl hprintln)
      _ _⟩

end Program

end Scriptlet
