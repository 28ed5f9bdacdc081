import Scriptlet.Pipeline
import Scriptlet.Proofs.Eval.Unwinding

/-!
# Programs with other bodies

A run gets to the functions of a program by their names alone.  So the runs of two programs are in
lockstep if each name that is not a built-in function's means functions in both whose bodies are in
lockstep, or is unknown in both.  With equality as the relation between traces, such runs are the
same.
-/

namespace Scriptlet

open Run

variable {T : Trace → Trace → Prop}

/-! ## The same runs -/

instance : Trace.SameLevels Eq where
  write _ _ h := by rw [h]
  verbosity h := by rw [h]

theorem State.Linked.eq {s s' : State} (h : s.Linked Eq s') : s' = s := by
  obtain ⟨hsame, htrace⟩ := h
  rw [hsame, ← htrace]

/-- Runs in lockstep whose traces are always equal are the same. -/
theorem Run.Lockstep.eq {α : Type} {act act' : Run α} (h : Lockstep Eq act act') : act' = act := by
  funext s
  have hs : s.Linked Eq s := ⟨rfl, rfl⟩
  obtain ⟨hresult, hlinked⟩ := h hs
  exact Prod.ext hresult hlinked.eq

theorem Run.lockstep_of_eq {α : Type} {act act' : Run α} (h : act' = act) :
    Lockstep Eq act act' := by
  subst h
  intro s s' hs
  obtain rfl := hs.eq
  exact ⟨rfl, rfl, rfl⟩

/-! ## Calls -/

/-- Machines with the same loops, whose calls are in lockstep. -/
structure Machine.Linked (T : Trace → Trace → Prop) (m m' : Machine) : Prop where
  rounds : m'.rounds = m.rounds
  forScope : m'.forScope = m.forScope
  call : ∀ name vs, Lockstep T (m.call name vs) (m'.call name vs)

/-- Functions whose calls are in lockstep, as long as the calls are that they make themselves. -/
structure Fun.Linked (T : Trace → Trace → Prop) (f g : Fun) : Prop where
  params : g.params.map Param.name = f.params.map Param.name
  body : ∀ m m', Machine.Linked T m m' →
    Lockstep T (unwound (m.block f.body)) (unwound (m'.block g.body))

/-- Each name that is not a built-in function's means functions in both programs whose calls are in
lockstep, or is unknown in both. -/
def Program.Linked (T : Trace → Trace → Prop) (p q : Program) : Prop :=
  ∀ name, Builtin.ofName? name = none → Option.Rel (Fun.Linked T) (p.find? name) (q.find? name)

theorem Machine.Linked.eq {m m' : Machine} (h : Machine.Linked Eq m m') : m' = m := by
  obtain ⟨call, rounds, forScope⟩ := m
  obtain ⟨call', rounds', forScope'⟩ := m'
  obtain ⟨hrounds, hforScope, hcall⟩ := h
  have hcalls : call' = call := by
    funext name vs
    exact (hcall name vs).eq
  subst hcalls hrounds hforScope
  rfl

/-- Functions with the same parameters, whose bodies are the same runs. -/
theorem Fun.linked_eq {f g : Fun} (hparams : g.params.map Param.name = f.params.map Param.name)
    (hbody : ∀ m : Machine, m.block g.body = m.block f.body) : Fun.Linked Eq f g := by
  refine ⟨hparams, fun m m' hm => ?_⟩
  rw [hm.eq]
  exact lockstep_of_eq (by rw [hbody])

/-- The variables at the start of a call are a matter of the names of the parameters. -/
theorem Fun.frame_congr {f g : Fun} (h : g.params.map Param.name = f.params.map Param.name)
    (args : List Value) : g.frame args = f.frame args := by
  have hnames : ∀ k : Fun, k.frame args =
      ((k.params.map Param.name).zip args).foldl (fun frame nv => Frame.declare nv.1 nv.2 frame)
        [] := by
    intro k
    rw [List.zip_map_left, List.foldl_map]
    rfl
  rw [hnames, hnames, h]

namespace Program

/-- A name means the same function as before, changed as all functions were. -/
theorem find?_map {change : Fun → Fun} (hname : ∀ f, (change f).name = f.name) (span : Span)
    (p : Program) (name : String) :
    (Program.mk span (p.functions.map change)).find? name = (p.find? name).map change := by
  rw [find?, find?, List.find?_map]
  congr 2
  funext f
  simp only [Function.comp_apply, hname]

/-- A program whose functions were changed in lockstep. -/
theorem linked_map (change : Fun → Fun) (p : Program) (span : Span)
    (hname : ∀ f, (change f).name = f.name) (hchange : ∀ f, Fun.Linked T f (change f)) :
    p.Linked T ⟨span, p.functions.map change⟩ := by
  intro name _
  rw [find?_map hname]
  cases p.find? name with
  | none => exact .none
  | some f => exact .some (hchange f)

variable [Trace.SameLevels T] {p q : Program}

theorem Linked.dispatch (h : p.Linked T q) {user user' : Fun → List Value → Run Value}
    (huser : ∀ f g, Fun.Linked T f g → ∀ vs, Lockstep T (user f vs) (user' g vs)) (name : String)
    (vs : List Value) : Lockstep T (p.dispatch user name vs) (q.dispatch user' name vs) := by
  unfold Program.dispatch
  cases hbuiltin : Builtin.ofName? name with
  | some b => exact (lockstep_noteCall _ vs).bind fun _ => b.lockstep_apply vs
  | none =>
    have hfind := h name hbuiltin
    generalize p.find? name = found at hfind
    generalize q.find? name = found' at hfind
    cases hfind with
    | none => exact lockstep_throw _
    | some hfg =>
      refine (lockstep_noteCall name vs).bind fun _ => (huser _ _ hfg vs).bind fun v => ?_
      exact (lockstep_noteValue _ _ v).bind fun _ => lockstep_pure v

/-- Calls are in lockstep, however deep they are nested. -/
theorem Linked.invoke (h : p.Linked T q) (o : Settings) (depth : Nat) {f g : Fun} (hfg : Fun.Linked T f g) (vs : List Value) :
    Lockstep T (p.invoke o depth f vs) (q.invoke o depth g vs) := by
  induction depth generalizing f g vs with
  | zero => exact lockstep_throw _
  | succ depth ih =>
    -- One call deeper all calls are in lockstep, which is all that the bodies ask for.
    have hm : Machine.Linked T ⟨p.dispatch (p.invoke o depth), o.rounds, o.forScope⟩
        ⟨q.dispatch (q.invoke o depth), o.rounds, o.forScope⟩ :=
      ⟨rfl, rfl, h.dispatch fun _ _ hlinked vs => ih hlinked vs⟩
    rw [Program.invoke, Program.invoke, Fun.frame_congr hfg.params, resultOf_eq, resultOf_eq]
    exact (hfg.body _ _ hm).caught.inCall (f.frame vs)

/-- Whole runs are in lockstep. -/
theorem Linked.run (h : p.Linked T q) (o : Settings) :
    Lockstep T (p.run o) (q.run o) := by
  have hcall : Lockstep T (p.call o "main" []) (q.call o "main" []) :=
    h.dispatch (fun _ _ hfg vs => h.invoke o o.calls hfg vs) "main" []
  exact (lockstep_note _ _).bind fun _ => hcall.bind fun v =>
    (lockstep_note _ _).bind fun _ => lockstep_pure v

/-- Programs whose functions of one name are the same runs are the same runs themselves. -/
theorem execute_eq_of_linked (h : p.Linked Eq q) (o : Settings) (s : State) :
    q.execute o s = p.execute o s := by
  have hrun : q.run o = p.run o := (h.run o).eq
  rw [Program.execute, Program.execute, hrun]

end Program

end Scriptlet
