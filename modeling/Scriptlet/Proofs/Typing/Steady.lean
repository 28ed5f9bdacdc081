import Scriptlet.Proofs.Typing.Program

/-!
# Checking does not look back

What a step of checking gives, declares, reports and notes is a matter of the scope it starts from:
not of what was reported before, nor of the trace.  So the diagnostics of a program are those of its
functions, one after the other, and each function has the same ones wherever it stands.  Of the
functions of the program a step only sees what their names mean.
-/

namespace Scriptlet

/-- Writes several entries. -/
def Trace.writeAll (t : Trace) (notes : List TraceEntry) : Trace :=
  notes.foldl (fun t e => t.write e.level e.text) t

theorem Trace.writeAll_append (t : Trace) (notes more : List TraceEntry) :
    t.writeAll (notes ++ more) = (t.writeAll notes).writeAll more := List.foldl_append

end Scriptlet

namespace Scriptlet.Check

variable {α β : Type}

/-- From two starts with the same scope, the step gives the same, leaves the same scope, reports the
same, behind what was reported before, and notes the same. -/
class Steady (act : Check α) : Prop where
  steady {c c' : Checking} (hscope : c'.scope = c.scope) :
    (act.run c').1 = (act.run c).1 ∧ (act.run c').2.scope = (act.run c).2.scope ∧
      ∃ ds, (act.run c).2.diagnostics = c.diagnostics ++ ds ∧
        (act.run c').2.diagnostics = c'.diagnostics ++ ds
  noted {c c' : Checking} (hscope : c'.scope = c.scope) :
    ∃ notes, (act.run c).2.trace = c.trace.writeAll notes ∧
      (act.run c').2.trace = c'.trace.writeAll notes

/-! ## Steps in general -/

instance steady_pure (a : α) : Steady (pure a) where
  steady hscope := ⟨rfl, hscope, [], (List.append_nil _).symm, (List.append_nil _).symm⟩
  noted _ := ⟨[], rfl, rfl⟩

theorem Steady.bind {act : Check α} {f : α → Check β} (h : Steady act) (hf : ∀ a, Steady (f a)) :
    Steady (act >>= f) := by
  constructor <;> intro c c' hscope <;> obtain ⟨hresult, hscope', ds, hds, hds'⟩ := h.steady hscope
  · obtain ⟨hresult', hscope'', es, hes, hes'⟩ := (hf (act.run c).1).steady hscope'
    -- Reports are only added behind others, so both runs report `ds` and then `es`.
    rw [run_bind, run_bind, hresult]
    refine ⟨hresult', hscope'', ds ++ es, ?_, ?_⟩
    · rw [hes, hds, List.append_assoc]
    · rw [hes', hds', List.append_assoc]
  · obtain ⟨notes, hnotes, hnotes'⟩ := h.noted hscope
    obtain ⟨more, hmore, hmore'⟩ := (hf (act.run c).1).noted hscope'
    rw [run_bind, run_bind, hresult]
    refine ⟨notes ++ more, ?_, ?_⟩
    · rw [hmore, hnotes, Trace.writeAll_append]
    · rw [hmore', hnotes', Trace.writeAll_append]

instance steady_bind {act : Check α} {f : α → Check β} [h : Steady act]
    [hf : ∀ a, Steady (f a)] : Steady (act >>= f) := h.bind hf

instance steady_ite {p : Prop} [Decidable p] {act act' : Check α} [h : Steady act]
    [h' : Steady act'] : Steady (if p then act else act') := by
  split
  · exact h
  · exact h'

/-- A look at the scope. -/
theorem steady_scope {f : Scope Ty → Check α} (h : ∀ sc, Steady (f sc)) :
    Steady (get >>= fun c => f c.scope) := by
  have hrun : ∀ d : Checking, (get >>= fun c => f c.scope).run d = (f d.scope).run d :=
    fun _ => rfl
  constructor <;> intro c c' hscope <;> rw [hrun, hrun, hscope]
  · exact (h c.scope).steady hscope
  · exact (h c.scope).noted hscope

/-- A change of the scope. -/
theorem steady_rescope (f : Scope Ty → Scope Ty) :
    Steady (modify fun c : Checking => { c with scope := f c.scope }) where
  steady hscope :=
    ⟨rfl, congrArg f hscope, [], (List.append_nil _).symm, (List.append_nil _).symm⟩
  noted _ := ⟨[], rfl, rfl⟩

instance steady_note (level : Nat) (text : String) : Steady (note level text) where
  steady hscope := ⟨rfl, hscope, [], (List.append_nil _).symm, (List.append_nil _).symm⟩
  noted _ := ⟨[⟨level, text⟩], rfl, rfl⟩

instance steady_report (span : Span) (problem : Problem) : Steady (report span problem) where
  steady hscope := ⟨rfl, hscope, [⟨span, problem⟩], rfl, rfl⟩
  noted _ := ⟨[⟨2, "error at " ++ span.render ++ ": " ++ problem.message⟩], rfl, rfl⟩

instance steady_reject (span : Span) (problem : Problem) : Steady (reject span problem) :=
  steady_bind

instance steady_declare (name : String) (t : Ty) : Steady (declare name t) :=
  steady_rescope fun sc => sc.declare name t

instance steady_ifDeclaredHere (name : String) {act act' : Check α} [h : Steady act]
    [h' : Steady act'] :
    Steady (do if (← get).scope.declaredHere name then act else act') := by
  refine steady_scope (f := fun sc => if sc.declaredHere name then act else act') fun sc => ?_
  exact steady_ite

instance steady_inBlock {act : Check α} [h : Steady act] : Steady (inBlock act) :=
  (steady_rescope Scope.push).bind fun _ => h.bind fun _ =>
    (steady_rescope Scope.pop).bind fun _ => steady_pure _

/-! ## Forms -/

instance steady_variableType (span : Span) (name : String) : Steady (variableType span name) := by
  refine Steady.bind (steady_scope fun sc => steady_pure (sc.get? name)) fun t => ?_
  cases t with
  | none => exact steady_reject _ _
  | some t => exact steady_pure _

instance steady_require (span : Span) (wanted : Ty) (problem : Problem) (t : Option Ty) :
    Steady (require span wanted problem t) := by
  cases t with
  | none => exact steady_pure _
  | some t => exact steady_ite

instance steady_sameType (span : Span) (l r : Option Ty) : Steady (sameType span l r) := by
  cases l with
  | none => exact steady_pure _
  | some l =>
    cases r with
    | none => exact steady_pure _
    | some r => exact steady_ite

instance steady_sumType (span : Span) (l r : Option Ty) : Steady (sumType span l r) := by
  cases l with
  | none => exact steady_pure _
  | some l =>
    cases r with
    | none => exact steady_pure _
    | some r => exact steady_ite

instance steady_comparisonType (span : Span) (l r : Option Ty) :
    Steady (comparisonType span l r) := by
  refine Steady.bind (steady_sameType span l r) fun t => ?_
  cases t with
  | none => exact steady_pure _
  | some t => exact steady_ite

instance steady_connectiveType (span : Span) (l r : Option Ty) :
    Steady (connectiveType span l r) := by
  cases l with
  | none => exact steady_pure _
  | some l =>
    cases r with
    | none => exact steady_pure _
    | some r => exact steady_ite

instance steady_operationType (span : Span) (op : BinOp) (l r : Option Ty) :
    Steady (operationType span op l r) := by
  cases op with
  | add => exact steady_sumType _ _ _
  | sub | mul | div => exact steady_sameType _ _ _
  | range => exact steady_bind
  | less | greater => exact steady_comparisonType _ _ _
  | and | or => exact steady_connectiveType _ _ _

instance steady_elementType (span : Span) (base position : Option Ty) :
    Steady (elementType span base position) := by
  refine Steady.bind (steady_require _ _ _ _) fun t => Steady.bind ?_ fun _ => steady_pure _
  unfold baseElement
  split
  · exact steady_pure _
  · exact steady_pure _
  · exact steady_pure _
  · exact steady_reject _ _

instance steady_condition (span : Span) (t : Option Ty) : Steady (condition span t) := steady_bind

instance steady_printable (span : Span) (ts : List Ty) : Steady (printable span ts) := by
  induction ts with
  | nil => exact steady_pure _
  | cons t ts ih => exact steady_ite

instance steady_builtinType (span : Span) (b : Builtin) (ts : List Ty) :
    Steady (builtinType span b ts) := by
  cases b with
  | print | println => exact steady_bind
  | arrayOf =>
    cases ts with
    | nil => exact steady_reject _ _
    | cons t ts => exact steady_ite
  | readln | readlnBoolean | readlnInt => exact steady_ite

instance steady_callType (Γ : Context) (span : Span) (name : String) (args : List (Option Ty)) :
    Steady (callType Γ span name args) := by
  unfold callType
  cases Builtin.ofName? name with
  | some b => cases allTypes args <;> infer_instance
  | none =>
    cases Γ.signatures.get? name with
    | none => exact steady_reject _ _
    | some sig => cases allTypes args <;> infer_instance

instance steady_declaration (span : Span) (name : String) (t : Option Ty) :
    Steady (declaration span name t) := by
  cases t with
  | none => exact steady_pure _
  | some t => exact steady_ifDeclaredHere name

instance steady_assignment (span : Span) (name : String) (value : Option Ty) :
    Steady (assignment span name value) := by
  refine Steady.bind (steady_scope fun sc => steady_pure (sc.get? name)) fun t => ?_
  cases t with
  | none => exact steady_reject _ _
  | some expected =>
    cases value with
    | none => exact steady_pure _
    | some t => exact steady_ite

instance steady_storeType (span : Span) (target value : Option Ty) :
    Steady (storeType span target value) := steady_bind

instance steady_returnType (Γ : Context) (span : Span) (t : Option Ty) :
    Steady (returnType Γ span t) := by
  cases t with
  | none => exact steady_pure _
  | some t => exact Steady.bind steady_ite fun _ => steady_pure _

theorem steady_exprs_of {Γ : Context} {es : List Expr} (h : ∀ e ∈ es, Steady (expr Γ e)) :
    Steady (exprs Γ es) := by
  induction es with
  | nil => exact steady_pure _
  | cons e es ih =>
    obtain ⟨he, hes⟩ := List.forall_mem_cons.1 h
    exact he.bind fun _ => (ih hes).bind fun _ => steady_pure _

instance steady_expr (Γ : Context) (e : Expr) : Steady (expr Γ e) := by
  induction e using Expr.induction with
  | int | bool | char | str => exact steady_pure _
  | var span name => exact steady_variableType span name
  | index span base position ih =>
    exact (steady_variableType _ _).bind fun _ => ih.bind fun _ => steady_elementType _ _ _
  | neg span e ih | not span e ih => exact ih.bind fun _ => steady_require _ _ _ _
  | parens span e ih => exact ih
  | binary span op l r ihl ihr =>
    exact ihl.bind fun _ => ihr.bind fun _ => steady_operationType _ _ _ _
  | declare span mutable name value ih => exact ih.bind fun _ => steady_declaration _ _ _
  | assign span name value ih => exact ih.bind fun _ => steady_assignment _ _ _
  | call span name args ih => exact (steady_exprs_of ih).bind fun _ => steady_callType _ _ _ _
  | store span target base position value ihp ihv =>
    exact (steady_variableType _ _).bind fun _ => ihp.bind fun _ =>
      (steady_elementType _ _ _).bind fun _ => ihv.bind fun _ => steady_storeType _ _ _
  | branch span cond body otherwise ihc ihb iho =>
    have hbody := steady_exprs_of ihb
    have hotherwise := steady_exprs_of iho
    exact ihc.bind fun _ => (steady_condition _ _).bind fun _ => steady_inBlock.bind fun _ =>
      steady_inBlock.bind fun _ => steady_pure _
  | forIn span name iterable body ihi ihb =>
    have hbody := steady_exprs_of ihb
    refine ihi.bind fun t => ?_
    cases t with
    | none => exact steady_pure _
    | some t =>
      cases ht : t.elem? with
      | none =>
        simp only [ht]
        exact steady_reject _ _
      | some elem =>
        simp only [ht]
        infer_instance
  | loop span cond body ihc ihb =>
    have hbody := steady_exprs_of ihb
    exact ihc.bind fun _ => (steady_condition _ _).bind fun _ => steady_inBlock.bind fun _ =>
      steady_pure _
  | returnUnit span => exact steady_returnType _ _ _
  | returnValue span value ih => exact ih.bind fun _ => steady_returnType _ _ _

instance steady_exprs (Γ : Context) (es : List Expr) : Steady (exprs Γ es) :=
  steady_exprs_of fun e _ => steady_expr Γ e

instance steady_params (ps : List Param) : Steady (params ps) := by
  induction ps with
  | nil => exact steady_pure _
  | cons p ps ih => exact (steady_ifDeclaredHere p.name).bind fun _ => ih

/-! ## What is seen of the signatures -/

section Seen

variable {Γ Γ' : Context} (hresult : Γ'.result = Γ.result)
  (hsignatures : ∀ name, Γ'.signatures.get? name = Γ.signatures.get? name)

include hsignatures in
theorem callType_congr (span : Span) (name : String) (args : List (Option Ty)) :
    callType Γ' span name args = callType Γ span name args := by
  rw [callType, callType, hsignatures]

include hresult in
theorem returnType_congr (span : Span) (t : Option Ty) :
    returnType Γ' span t = returnType Γ span t := by
  cases t with
  | none => rfl
  | some t => rw [returnType, returnType, hresult]

theorem exprs_congr_of {es : List Expr} (h : ∀ e ∈ es, expr Γ' e = expr Γ e) :
    exprs Γ' es = exprs Γ es := by
  induction es with
  | nil => rfl
  | cons e es ih =>
    obtain ⟨he, hes⟩ := List.forall_mem_cons.1 h
    rw [exprs, exprs, he, ih hes]

include hresult hsignatures in
/-- Of the signatures only what they say about each name matters, not the order they stand in. -/
theorem expr_congr (e : Expr) : expr Γ' e = expr Γ e := by
  induction e using Expr.induction with
  | int | bool | char | str | var => rfl
  | index _ _ _ ih | neg _ _ ih | not _ _ ih | parens _ _ ih | declare _ _ _ _ ih
  | assign _ _ _ ih => rw [expr, expr, ih]
  | binary _ _ _ _ ihl ihr | store _ _ _ _ _ ihl ihr => rw [expr, expr, ihl, ihr]
  | call _ _ _ ih =>
    simp only [expr, exprs_congr_of ih, callType_congr hsignatures]
  | branch _ _ _ _ ihc ihb iho =>
    rw [expr, expr, ihc, exprs_congr_of ihb, exprs_congr_of iho]
  | forIn _ _ _ _ ihi ihb =>
    simp only [expr, ihi, exprs_congr_of ihb]
  | loop _ _ _ ihc ihb => rw [expr, expr, ihc, exprs_congr_of ihb]
  | returnUnit => exact returnType_congr hresult _ _
  | returnValue _ _ ih => simp only [expr, ih, returnType_congr hresult]

end Seen

/-! ## Functions -/

/-- What is checked of a function in the scope that was opened for it. -/
def contents (known : Frame Signature) (f : Fun) : Check Unit := do
  params f.params
  let _ ← exprs (contextOf known f) f.body

instance steady_contents (known : Frame Signature) (f : Fun) : Steady (contents known f) :=
  (steady_params f.params).bind fun _ => steady_bind

/-- What is wrong with a function, in a program with these signatures. -/
def problemsOf (known : Frame Signature) (f : Fun) : List Diagnostic :=
  ((contents known f).run { trace := ⟨0, #[]⟩ }).2.diagnostics

theorem problemsOf_congr {known known' : Frame Signature}
    (h : ∀ name, known'.get? name = known.get? name) (f : Fun) :
    problemsOf known' f = problemsOf known f := by
  have hresult : (contextOf known' f).result = (contextOf known f).result := rfl
  have hbody : exprs (contextOf known' f) f.body = exprs (contextOf known f) f.body :=
    exprs_congr_of fun e _ => expr_congr hresult h e
  rw [problemsOf, problemsOf, contents, contents, hbody]

/-- Wherever a function stands, the same is wrong with it. -/
theorem diagnostics_function (known : Frame Signature) (f : Fun) (c : Checking) :
    ((function known f).run c).2.diagnostics = c.diagnostics ++ problemsOf known f := by
  -- A function starts in the empty scope, wherever it stands.
  have hrun : (function known f).run c = (contents known f).run
      ⟨.empty, c.diagnostics, c.trace.write 2 ("check function " ++ f.name)⟩ := rfl
  have hscope : (Checking.mk .empty c.diagnostics
      (c.trace.write 2 ("check function " ++ f.name))).scope =
        (Checking.mk .empty [] ⟨0, #[]⟩).scope := rfl
  obtain ⟨-, -, ds, hds, hds'⟩ := (steady_contents known f).steady hscope
  rw [hrun, hds', problemsOf, hds]
  rfl

/-- What is wrong with several functions is what is wrong with each, one after the other. -/
theorem diagnostics_functions (known : Frame Signature) (fs : List Fun) (c : Checking) :
    ((functions known fs).run c).2.diagnostics =
      c.diagnostics ++ fs.flatMap (problemsOf known) := by
  induction fs generalizing c with
  | nil => exact (List.append_nil _).symm
  | cons f fs ih =>
    rw [functions, run_bind, ih, diagnostics_function, List.flatMap_cons, List.append_assoc]

/-! ## Programs -/

instance steady_entryPoint (fs : List Fun) : Steady (entryPoint fs) := by
  unfold entryPoint
  cases fs.find? fun f => f.name = "main" with
  | none => exact steady_report _ _
  | some f => exact steady_ite

instance steady_collect (known : Frame Signature) (fs : List Fun) : Steady (collect known fs) := by
  induction fs generalizing known with
  | nil => exact steady_pure _
  | cons f fs ih =>
    rw [collect]
    split
    · exact (steady_report _ _).bind fun _ => ih known
    · exact ih _

instance steady_signatures (p : Program) : Steady (signatures p) :=
  (steady_collect [] p.functions).bind fun _ =>
    (steady_entryPoint p.functions).bind fun _ => steady_pure _

instance steady_function (known : Frame Signature) (f : Fun) : Steady (function known f) :=
  (steady_note _ _).bind fun _ => (steady_rescope fun _ => .empty).bind fun _ =>
    steady_contents known f

instance steady_functions (known : Frame Signature) (fs : List Fun) :
    Steady (functions known fs) := by
  induction fs with
  | nil => exact steady_pure _
  | cons f fs ih => exact (steady_function known f).bind fun _ => ih

end Scriptlet.Check
