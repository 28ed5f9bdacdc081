import Scriptlet.Proofs.Typing.Visits

/-!
# Checking whole programs

A program is accepted exactly if it obeys the rules: names are distinct, there is a function to start
with, and every body has a derivation.  In an accepted program every expression that is checked gets
the one type that the rules derive for it.
-/

namespace Scriptlet

/-! ## Frames of fresh names -/

namespace Frame

variable {α : Type}

theorem has_append (f : Frame α) (name other : String) (v : α) :
    (f ++ [(name, v)] : Frame α).has other = (f.has other || decide (name = other)) := by
  induction f with
  | nil => by_cases h : name = other <;> simp [has, get?, h]
  | cons entry f ih =>
    obtain ⟨n, w⟩ := entry
    by_cases hn : n = other
    · simp [has, get?, hn]
    · simpa [has, get?, hn] using ih

theorem declare_of_fresh {f : Frame α} {name : String} (h : f.has name = false) (v : α) :
    f.declare name v = f ++ [(name, v)] := by
  induction f with
  | nil => rfl
  | cons entry f ih =>
    obtain ⟨n, w⟩ := entry
    by_cases hn : n = name
    · simp [has, get?, hn] at h
    · have hrest : Frame.has f name = false := by simpa [has, get?, hn] using h
      simp [declare, hn, ih hrest]

/-- The names are distinct, and none of them is in the frame. -/
def Fresh (f : Frame α) (names : List String) : Prop :=
  names.Nodup ∧ ∀ name ∈ names, f.has name = false

theorem fresh_empty {names : List String} : Fresh ([] : Frame α) names ↔ names.Nodup :=
  and_iff_left fun _ _ => rfl

/-- Names are fresh exactly if they are fresh one after the other, each put into the frame before the
next one. -/
theorem fresh_cons {f : Frame α} {name : String} {names : List String} (v : α) :
    f.Fresh (name :: names) ↔ f.has name = false ∧ Fresh (f ++ [(name, v)]) names := by
  simp only [Fresh, has_append, List.nodup_cons, List.forall_mem_cons, Bool.or_eq_false_iff,
    decide_eq_false_iff_not]
  constructor
  · rintro ⟨⟨hname, hnodup⟩, hnew, hrest⟩
    refine ⟨hnew, hnodup, fun other hother => ⟨hrest other hother, ?_⟩⟩
    rintro rfl
    exact hname hother
  · rintro ⟨hnew, hnodup, hrest⟩
    refine ⟨⟨?_, hnodup⟩, hnew, fun other hother => (hrest other hother).1⟩
    intro hname
    exact (hrest name hname).2 rfl

end Frame

namespace Check

/-! ## Signatures -/

instance grows_collect (known : Frame Signature) (fs : List Fun) : Grows (collect known fs) := by
  induction fs generalizing known with
  | nil => exact grows_pure _
  | cons f fs ih => exact grows_ite

/-- Collecting signatures is quiet exactly if all names are new. -/
theorem quiet_collect {fs : List Fun} {known r : Frame Signature} {c c' : Checking} :
    Quiet (collect known fs) c r c' ↔
      known.Fresh (fs.map Fun.name) ∧
        r = known ++ fs.map (fun f => (f.name, Signature.ofFun f)) ∧ c' = c := by
  induction fs generalizing known with
  | nil => simpa [collect, Frame.Fresh] using quiet_pure
  | cons f fs ih =>
    rw [collect, List.map_cons, Frame.fresh_cons (Signature.ofFun f)]
    by_cases hknown : known.has f.name
    · rw [if_pos hknown, quiet_bind]
      constructor
      · rintro ⟨_, _, hreport, -⟩
        exact absurd hreport not_quiet_report
      · rintro ⟨⟨hnew, -⟩, -⟩
        rw [hnew] at hknown
        cases hknown
    · rw [if_neg hknown, ih]
      simp [hknown]

instance grows_entryPoint (fs : List Fun) : Grows (entryPoint fs) := by
  rw [entryPoint]
  split
  · exact grows_report _ _
  · exact grows_ite

/-- With distinct names there is only one function that a name can mean. -/
theorem find?_eq_some_of_nodup {fs : List Fun} (hnodup : (fs.map Fun.name).Nodup) {f : Fun}
    (hf : f ∈ fs) : fs.find? (fun g => g.name = f.name) = some f := by
  induction fs with
  | nil => cases hf
  | cons g fs ih =>
    rw [List.map_cons, List.nodup_cons] at hnodup
    rcases List.mem_cons.1 hf with rfl | hf
    · simp
    · have hne : g.name ≠ f.name := fun h => hnodup.1 (h ▸ List.mem_map_of_mem hf)
      simpa [hne] using ih hnodup.2 hf

theorem quiet_entryPoint {fs : List Fun} (hnodup : (fs.map Fun.name).Nodup) {c c' : Checking}
    {u : Unit} :
    Quiet (entryPoint fs) c u c' ↔ (∃ f ∈ fs, f.name = "main" ∧ f.params = []) ∧ c' = c := by
  rw [entryPoint]
  cases hfind : fs.find? (fun f => f.name = "main") with
  | none =>
    constructor
    · intro h
      exact absurd h not_quiet_report
    · rintro ⟨⟨f, hf, hmain, -⟩, -⟩
      have hnone := List.find?_eq_none.1 hfind f hf
      exact absurd hmain (by simpa using hnone)
  | some g =>
    have hg := List.mem_of_find?_eq_some hfind
    have hmain : g.name = "main" := by simpa using List.find?_some hfind
    have hiff : (∃ f ∈ fs, f.name = "main" ∧ f.params = []) ↔ g.params = [] := by
      constructor
      · rintro ⟨f, hf, hname, hparams⟩
        have hfind' := find?_eq_some_of_nodup hnodup hf
        rw [hname, hfind] at hfind'
        rw [Option.some.inj hfind']
        exact hparams
      · intro hparams
        exact ⟨g, hg, hmain, hparams⟩
    rw [hiff]
    by_cases hparams : g.params = []
    · have hpure : Quiet (pure ()) c u c' ↔ u = () ∧ c' = c := quiet_pure
      simpa [hparams] using hpure
    · have hreport : ¬ Quiet (report g.span .mainHasParams) c u c' := not_quiet_report
      simpa [hparams] using hreport

instance grows_signatures (p : Program) : Grows (signatures p) := grows_bind

theorem quiet_signatures {p : Program} {r : Frame Signature} {c c' : Checking} :
    Quiet (signatures p) c r c' ↔
      ((p.functions.map Fun.name).Nodup ∧ ∃ f ∈ p.functions, f.name = "main" ∧ f.params = []) ∧
        r = p.signatures ∧ c' = c := by
  simp only [signatures, quiet_bind, quiet_collect, quiet_pure]
  constructor
  · rintro ⟨known, c₁, ⟨hfresh, rfl, rfl⟩, _, c₂, hentry, rfl, rfl⟩
    have hnodup := Frame.fresh_empty.1 hfresh
    obtain ⟨hmain, rfl⟩ := (quiet_entryPoint hnodup).1 hentry
    exact ⟨⟨hnodup, hmain⟩, rfl, rfl⟩
  · rintro ⟨⟨hnodup, hmain⟩, rfl, rfl⟩
    exact ⟨_, _, ⟨Frame.fresh_empty.2 hnodup, rfl, rfl⟩, (), _,
      (quiet_entryPoint hnodup).2 ⟨hmain, rfl⟩, rfl, rfl⟩

/-! ## Functions -/

instance grows_param (p : Param) : Grows (param p) := grows_bind

theorem quiet_param {p : Param} {c c' : Checking} {u : Unit} :
    Quiet (param p) c u c' ↔
      c.scope.declaredHere p.name = false ∧
        c' = { c with scope := c.scope.declare p.name (Ty.ofRef p.type) } := by
  have hquiet : Quiet (param p) c u c' ↔
      Quiet (if c.scope.declaredHere p.name then report p.span (.variableRedefined p.name)
        else declare p.name (Ty.ofRef p.type)) c u c' := Iff.rfl
  rw [hquiet]
  cases hnew : c.scope.declaredHere p.name with
  | true => simpa using not_quiet_report
  | false => simpa using quiet_declare

instance grows_params (ps : List Param) : Grows (params ps) := by
  induction ps with
  | nil => exact grows_pure _
  | cons p ps ih => exact grows_bind

/-- Declaring parameters is quiet exactly if all names are new. -/
theorem quiet_params {ps : List Param} {F : Frame Ty} {c c' : Checking} {u : Unit}
    (hs : c.scope = [F]) :
    Quiet (params ps) c u c' ↔
      F.Fresh (ps.map Param.name) ∧
        c' = { c with scope := [F ++ ps.map fun p => (p.name, Ty.ofRef p.type)] } := by
  induction ps generalizing F c with
  | nil =>
    have hc : { c with scope := [F] } = c := by rw [← hs]
    have hpure : Quiet (pure ()) c u c' ↔ u = () ∧ c' = c := quiet_pure
    simpa [params, hc, Frame.Fresh] using hpure
  | cons p ps ih =>
    rw [params, quiet_bind, List.map_cons, Frame.fresh_cons (Ty.ofRef p.type)]
    simp only [quiet_param, hs, Scope.declaredHere, Scope.declare]
    constructor
    · rintro ⟨_, c₁, ⟨hnew, rfl⟩, hps⟩
      rw [Frame.declare_of_fresh hnew, ih rfl] at hps
      obtain ⟨hfresh, rfl⟩ := hps
      exact ⟨⟨hnew, hfresh⟩, by simp⟩
    · rintro ⟨⟨hnew, hfresh⟩, rfl⟩
      refine ⟨(), _, ⟨hnew, rfl⟩, ?_⟩
      rw [Frame.declare_of_fresh hnew, ih rfl]
      exact ⟨hfresh, by simp⟩

/-- What is done before the body of a function is checked. -/
def enter (f : Fun) : Check Unit := do
  note 2 ("check function " ++ f.name)
  modify fun c => { c with scope := .empty }
  params f.params

/-- What is fixed while the body of a function is checked. -/
def contextOf (signatures : Frame Signature) (f : Fun) : Context := ⟨signatures, Ty.ofRef? f.result⟩

theorem function_eq (signatures : Frame Signature) (f : Fun) :
    function signatures f = (do
      enter f
      let _ ← exprs (contextOf signatures f) f.body) := rfl

instance grows_enter (f : Fun) : Grows (enter f) :=
  Grows.bind (grows_note _ _) fun _ =>
    Grows.bind (grows_modify fun _ => rfl) fun _ => grows_params _

theorem quiet_enter {f : Fun} {c c' : Checking} {u : Unit} :
    Quiet (enter f) c u c' ↔
      (f.params.map Param.name).Nodup ∧
        c' = { c with
          scope := f.scope
          trace := c.trace.write 2 ("check function " ++ f.name) } := by
  have hquiet : Quiet (enter f) c u c' ↔
      Quiet (params f.params)
        { c with
          scope := .empty
          trace := c.trace.write 2 ("check function " ++ f.name) } u c' := Iff.rfl
  rw [hquiet, quiet_params (F := []) rfl]
  simp [Frame.fresh_empty, Fun.scope]

instance grows_function (signatures : Frame Signature) (f : Fun) :
    Grows (function signatures f) := by
  rw [function_eq]
  exact grows_bind

/-- Checking a function is quiet exactly if it is well typed. -/
theorem exists_quiet_function {signatures : Frame Signature} {f : Fun} {c : Checking} :
    (∃ c', Quiet (function signatures f) c () c') ↔ f.WellTyped signatures := by
  rw [function_eq]
  constructor
  · rintro ⟨c', h⟩
    obtain ⟨_, c₁, henter, h⟩ := quiet_bind.1 h
    obtain ⟨rs, hbody, -⟩ := quiet_map.1 h
    obtain ⟨hnodup, rfl⟩ := quiet_enter.1 henter
    obtain ⟨ts, -, hts⟩ := hasTypes_of_quiet_of (fun e _ => hasType_of_quiet _ e) rfl hbody
    exact ⟨hnodup, ts, _, hts⟩
  · rintro ⟨hnodup, ts, Δ, hts⟩
    obtain ⟨c', hbody, -⟩ := quiet_of_hasTypes_of (fun e _ => quiet_of_hasType _ e)
      (c := { c with
        scope := f.scope
        trace := c.trace.write 2 ("check function " ++ f.name) }) rfl hts
    have henter : Quiet (enter f) c () _ := quiet_enter.2 ⟨hnodup, rfl⟩
    exact ⟨c', henter.bind (hbody.map fun _ => ())⟩

instance grows_functions (signatures : Frame Signature) (fs : List Fun) :
    Grows (functions signatures fs) := by
  induction fs with
  | nil => exact grows_pure _
  | cons f fs ih => exact grows_bind

theorem exists_quiet_functions {signatures : Frame Signature} {fs : List Fun} {c : Checking} :
    (∃ c', Quiet (functions signatures fs) c () c') ↔ ∀ f ∈ fs, f.WellTyped signatures := by
  induction fs generalizing c with
  | nil =>
    constructor
    · intro _ f hf
      cases hf
    · intro _
      exact ⟨c, quiet_pure.2 ⟨rfl, rfl⟩⟩
  | cons f fs ih =>
    simp only [functions, quiet_bind]
    constructor
    · rintro ⟨c', _, c₁, hf, hfs⟩ g hg
      rcases List.mem_cons.1 hg with rfl | hg
      · exact exists_quiet_function.1 ⟨c₁, hf⟩
      · exact ih.1 ⟨c', hfs⟩ g hg
    · intro hall
      obtain ⟨c₁, hf⟩ := exists_quiet_function (c := c).2 (hall f List.mem_cons_self)
      obtain ⟨c', hfs⟩ := ih (c := c₁).2 fun g hg => hall g (List.mem_cons_of_mem _ hg)
      exact ⟨c', (), c₁, hf, hfs⟩

/-! ## Programs -/

/-- Nothing is wrong with a program exactly if checking it is quiet. -/
theorem check_eq_nil_iff_quiet {p : Program} {trace : Trace} :
    (p.check trace).1 = [] ↔ ∃ c', Quiet (program p) { trace } () c' := by
  constructor
  · intro h
    exact ⟨_, rfl, h⟩
  · rintro ⟨c', hrun, hsame⟩
    show ((program p).run { trace }).2.diagnostics = []
    rw [hrun]
    exact hsame

/-- Checking a program is quiet exactly if its signatures and its functions are checked quietly. -/
theorem exists_quiet_program {p : Program} {c : Checking} :
    (∃ c', Quiet (program p) c () c') ↔
      ∃ known c₁ c₂, Quiet (signatures p) c known c₁ ∧
        Quiet (functions known p.functions) c₁ () c₂ := by
  constructor
  · rintro ⟨c', h⟩
    obtain ⟨known, c₁, hsig, h⟩ := quiet_bind.1 h
    obtain ⟨_, c₂, hfs, -⟩ := quiet_bind.1 h
    exact ⟨known, c₁, c₂, hsig, hfs⟩
  · rintro ⟨known, c₁, c₂, hsig, hfs⟩
    have hnote : ∃ c', Quiet (do
        note 1 ("check: " ++ toString (← get).diagnostics.length ++ " diagnostics")) c₂ () c' :=
      ⟨_, rfl, rfl⟩
    obtain ⟨c', hnote⟩ := hnote
    exact ⟨c', hsig.bind (hfs.bind hnote)⟩

end Check

/-- Nothing is wrong with a program exactly if it obeys the rules. -/
theorem Program.check_eq_nil {p : Program} {trace : Trace} :
    (p.check trace).1 = [] ↔ p.WellTyped := by
  rw [Check.check_eq_nil_iff_quiet, Check.exists_quiet_program]
  simp only [Check.quiet_signatures]
  constructor
  · rintro ⟨known, c₁, c₂, ⟨⟨hnodup, hmain⟩, rfl, rfl⟩, hfs⟩
    exact ⟨hnodup, hmain, Check.exists_quiet_functions.1 ⟨c₂, hfs⟩⟩
  · rintro ⟨hnodup, hmain, hfs⟩
    obtain ⟨c₂, hquiet⟩ := Check.exists_quiet_functions (c := { trace }).2 hfs
    exact ⟨_, _, c₂, ⟨⟨hnodup, hmain⟩, rfl, rfl⟩, hquiet⟩

/-! ## What checking a program comes across -/

/-- Checking a program comes across an expression in the body of a function, in a state. -/
inductive Program.Visits (p : Program) (trace : Trace) : Fun → Checking → Expr → Prop
  | body {known : Frame Signature} {c₁ c : Checking} {before rest : List Fun} {f : Fun}
      {es es' : List Expr} {e₀ e : Expr} :
      (Check.signatures p).run { trace } = (known, c₁) →
      p.functions = before ++ f :: rest → f.body = es ++ e₀ :: es' →
      Check.Visits (Check.contextOf known f)
        (Check.after (do
          Check.functions known before
          Check.enter f
          Check.exprs (Check.contextOf known f) es) c₁) e₀ c e →
      Visits p trace f c e

/-- The signatures that checking a program that obeys the rules starts with. -/
theorem Program.WellTyped.run_signatures {p : Program} (h : p.WellTyped) (trace : Trace) :
    (Check.signatures p).run { trace } = (p.signatures, { trace }) :=
  (Check.quiet_signatures (c := { trace }).2 ⟨⟨h.1, h.2.1⟩, rfl, rfl⟩).1

/-- The state in which checking the body of a function starts: its parameters are in scope. -/
theorem Program.WellTyped.body_start {p : Program} (h : p.WellTyped) (trace : Trace)
    {before rest : List Fun} {f : Fun} (hfunctions : p.functions = before ++ f :: rest) :
    ∃ c₀ : Checking, c₀.scope = f.scope ∧
      (∀ es, Check.after (do
        Check.functions p.signatures before
        Check.enter f
        Check.exprs (Check.contextOf p.signatures f) es) { trace } =
          Check.after (Check.exprs (Check.contextOf p.signatures f) es) c₀) ∧
      ∃ rs c', Check.Quiet (Check.exprs (Check.contextOf p.signatures f) f.body) c₀ rs c' := by
  have hmem : ∀ g ∈ before, g ∈ p.functions := fun g hg => by simp [hfunctions, hg]
  obtain ⟨c₂, hbefore⟩ := Check.exists_quiet_functions (c := { trace }).2
    fun g hg => h.2.2 g (hmem g hg)
  obtain ⟨c₃, hf⟩ := Check.exists_quiet_function (c := c₂).2 (h.2.2 f (by simp [hfunctions]))
  rw [Check.function_eq] at hf
  obtain ⟨_, c₀, henter, hf⟩ := Check.quiet_bind.1 hf
  obtain ⟨rs, hexprs, -⟩ := Check.quiet_map.1 hf
  refine ⟨c₀, by rw [(Check.quiet_enter.1 henter).2], fun es => ?_, rs, c₃, hexprs⟩
  rw [← henter.after_eq, ← hbefore.after_eq]
  rfl

/-- The state in which a statement of a body is checked in a program that obeys the rules. -/
theorem Program.WellTyped.fine_statement {p : Program} (h : p.WellTyped) {trace : Trace}
    {known : Frame Signature} {c₁ : Checking} {before rest : List Fun} {f : Fun}
    {es es' : List Expr} {e₀ : Expr} (hknown : (Check.signatures p).run { trace } = (known, c₁))
    (hfunctions : p.functions = before ++ f :: rest) (hbody : f.body = es ++ e₀ :: es') :
    known = p.signatures ∧
      Check.Fine (Check.contextOf p.signatures f)
        (Check.after (do
          Check.functions known before
          Check.enter f
          Check.exprs (Check.contextOf known f) es) c₁) e₀ := by
  obtain ⟨rfl, rfl⟩ := Prod.mk.inj ((h.run_signatures trace).symm.trans hknown)
  obtain ⟨c₀, hscope, hstart, rs, c', hexprs⟩ := h.body_start trace hfunctions
  rw [hbody] at hexprs
  rw [hstart]
  exact ⟨rfl, Check.fine_of_quiet_exprs hscope hexprs⟩

/-- A program is accepted exactly if it obeys the typing rules.  Then everything that occurs in a
body is checked, and whatever is checked gets a type that the rules derive for it, which is the only
one that they derive. -/
theorem Program.check_decides_typing (p : Program) (trace : Trace) :
    ((p.check trace).1 = [] ↔ p.WellTyped) ∧
      (p.WellTyped →
        (∀ f ∈ p.functions, ∀ statement ∈ f.body, ∀ e : Expr, e.Within statement →
          ∃ c, p.Visits trace f c e) ∧
        ∀ (f : Fun) (c : Checking) (e : Expr), p.Visits trace f c e →
          ∃ t, ((Check.expr (Check.contextOf p.signatures f) e).run c).1 = some t ∧
            (∃ Δ', HasType (Check.contextOf p.signatures f) c.scope e t Δ') ∧
            ∀ u Δ', HasType (Check.contextOf p.signatures f) c.scope e u Δ' → u = t) := by
  refine ⟨Program.check_eq_nil, fun h => ⟨?_, ?_⟩⟩
  · intro f hf statement hstatement e hwithin
    obtain ⟨before, rest, hfunctions⟩ := List.append_of_mem hf
    obtain ⟨es, es', hbody⟩ := List.append_of_mem hstatement
    rcases hknown : (Check.signatures p).run { trace } with ⟨known, c₁⟩
    obtain ⟨rfl, hfine⟩ := h.fine_statement hknown hfunctions hbody
    obtain ⟨c, hvisits⟩ := Check.exists_visits_of_within hfine hwithin
    exact ⟨c, .body hknown hfunctions hbody hvisits⟩
  · intro f c e hvisits
    cases hvisits with
    | body hknown hfunctions hbody hvisits =>
      obtain ⟨rfl, hfine⟩ := h.fine_statement hknown hfunctions hbody
      exact Check.unique_type_of_fine (Check.fine_of_visits hfine hvisits)

end Scriptlet
