import Scriptlet.Proofs.Eval.Safety
import Scriptlet.Proofs.Grammar.RoundTrip
import Scriptlet.Proofs.Store.Numbers

/-!
# The store at every point of a run

At every point of a run all values are valid, in the function that runs, in those that wait for it and
in the arrays.  Arrays never change their lengths: there is one list of lengths, that of the arrays at
the end of the run, and at every point the lengths of the arrays are a start of it.
-/

namespace Scriptlet

open Run

/-! ## Valid values at every point -/

theorem State.Leads.push {s t : State} (h : s.Leads t) :
    s.Leads { t with scope := t.scope.push } :=
  h.withScope h.valid.scope.push

namespace Machine

variable {m : Machine} {s s' t : State} {e e' : Expr} {before rest : List Expr}

theorem Comes.leads (hm : m.ValidCalls) (hes : ∀ e ∈ before, e.NumbersFit) (hs : s.Valid)
    (h : m.Comes before e s s') : s.Leads s' := by
  obtain ⟨u, hbefore, hannounce⟩ := h
  have hu := ((hm.block hes s hs).of_run hbefore).1
  exact hu.trans ((upholds_announce hu.valid e).of_run hannounce).1

theorem Rounds.leads (hm : m.ValidCalls) {cond : Expr} {body : List Expr} {k : Nat}
    (hcond : cond.NumbersFit) (hbody : ∀ e ∈ body, e.NumbersFit) (hs : s.Valid)
    (h : m.Rounds cond body k s t) : s.Leads t := by
  induction h with
  | none => exact hs.leads
  | more _ hcondition _ hnote hround ih =>
    have h₁ := ih hs
    have h₂ := h₁.trans ((hm.eval hcond _ h₁.valid).of_run hcondition).1
    have h₃ := h₂.trans ((upholds_note h₂.valid _ _).of_run hnote).1
    exact h₃.trans (((hm.block hbody).inBlock _ h₃.valid).of_run hround).1

/-- From form to form, values stay valid. -/
theorem Enters.leads (hm : m.ValidCalls) (he : e.NumbersFit) (hs : s.Valid)
    (h : m.Enters s e s' e') : s.Leads s' := by
  have hpart : ∀ {l : Expr}, l ∈ e.parts → l.NumbersFit := he.part
  have hoperand : ∀ {l : Expr} {t : State}, t.Valid →
      (announceStatement l).run t = (.ok (), s') → t.Leads s' :=
    fun ht hrun => ((upholds_announceStatement ht _).of_run hrun).1
  cases h with
  | neg hrun | not hrun | parens hrun | left hrun | declared hrun | assigned hrun | tested hrun
  | iterable hrun | returned hrun => exact hoperand hs hrun
  | index hlookup hrun | position hlookup hrun =>
    have h₁ := ((upholds_lookup hs _).of_run hlookup).1
    exact h₁.trans (hoperand h₁.valid hrun)
  | right hleft _ hrun =>
    have h₁ := ((hm.eval (hpart (by simp [Expr.parts])) s hs).of_run hleft).1
    exact h₁.trans (hoperand h₁.valid hrun)
  | argument hbefore hrun =>
    have h₁ := ((hm.values (fun x hx => hpart (by simp [Expr.parts, hx])) s hs).of_run hbefore).1
    exact h₁.trans (hoperand h₁.valid hrun)
  | stored hlookup hindex hrun =>
    have h₁ := ((upholds_lookup hs _).of_run hlookup).1
    have h₂ := h₁.trans ((hm.eval (hpart (by simp [Expr.parts])) _ h₁.valid).of_run hindex).1
    exact h₂.trans (hoperand h₂.valid hrun)
  | taken hcondition _ hnote hcomes | otherwise hcondition _ hnote hcomes =>
    have h₁ := ((hm.eval (hpart (by simp [Expr.parts])) s hs).of_run hcondition).1
    have h₂ := (h₁.trans ((upholds_noteValue h₁.valid 3 _ _).of_run hnote).1).push
    exact h₂.trans (hcomes.leads hm (fun x hx => hpart (by simp [Expr.parts, hx])) h₂.valid)
  | round _ hiter helements hitems hdone hround hannounce =>
    obtain ⟨h₁, hv⟩ := (hm.eval (hpart (by simp [Expr.parts])) s hs).of_run hiter
    obtain ⟨h₂, hvalues⟩ := (Value.upholds_elements h₁.valid hv).of_run helements
    rw [hitems] at hvalues
    -- the rounds that are done, each with the whole body
    have hbody := hm.block fun x hx => hpart (.tail _ hx)
    have h₃ := ((upholds_eachValue (fun _ _ ht hv => upholds_roundFor hbody ht hv)
      h₂.push.valid fun v hv => hvalues v (List.mem_append_left _ hv)).of_run hdone).1
    -- the round that is going on, with the statements before the one that comes next
    have hfront := hm.block fun x hx => hpart (.tail _ (List.mem_append_left _ hx))
    have hw := (hvalues _ (List.mem_append_right _ List.mem_cons_self)).mono h₃.size
    have h₄ := ((upholds_roundFor hfront h₃.valid hw).of_run hround).1
    have h₅ := ((upholds_announce h₄.valid _).of_run hannounce).1
    exact h₁.trans (h₂.push.trans (h₃.trans (h₄.trans h₅)))
  | freshRound _ hiter helements hitems hdone hround hannounce =>
    obtain ⟨h₁, hv⟩ := (hm.eval (hpart (by simp [Expr.parts])) s hs).of_run hiter
    obtain ⟨h₂, hvalues⟩ := (Value.upholds_elements h₁.valid hv).of_run helements
    rw [hitems] at hvalues
    have hbody := hm.block fun x hx => hpart (.tail _ hx)
    have h₃ := ((upholds_eachValue (fun v t ht hv => upholds_inBlock
      (upholds_roundFor (s := { t with scope := t.scope.push }) hbody ht.leads.push.valid hv))
      h₂.valid fun v hv => hvalues v (List.mem_append_left _ hv)).of_run hdone).1
    have hfront := hm.block fun x hx => hpart (.tail _ (List.mem_append_left _ hx))
    have hw := (hvalues _ (List.mem_append_right _ List.mem_cons_self)).mono h₃.size
    have h₄ := ((upholds_roundFor hfront h₃.push.valid hw).of_run hround).1
    have h₅ := ((upholds_announce h₄.valid _).of_run hannounce).1
    exact h₁.trans (h₂.trans (h₃.push.trans (h₄.trans h₅)))
  | held hrounds _ hrun =>
    have h₁ := hrounds.leads hm (hpart (by simp [Expr.parts])) (fun x hx => hpart (.tail _ hx)) hs
    exact h₁.trans (hoperand h₁.valid hrun)
  | repeated hrounds _ hcondition _ hnote hcomes =>
    have h₁ := hrounds.leads hm (hpart (by simp [Expr.parts])) (fun x hx => hpart (.tail _ hx)) hs
    have h₂ := h₁.trans ((hm.eval (hpart (by simp [Expr.parts])) _ h₁.valid).of_run hcondition).1
    have h₃ := (h₂.trans ((upholds_note h₂.valid _ _).of_run hnote).1).push
    exact h₃.trans (hcomes.leads hm (fun x hx => hpart (by simp [Expr.parts, hx])) h₃.valid)

end Machine

/-- A name that was set stands for what it was set to. -/
theorem Scope.get?_of_set? {α : Type} {sc sc' : Scope α} {name : String} {v : α}
    (h : sc.set? name v = some sc') : sc'.get? name = some v := by
  induction sc generalizing sc' with
  | nil => cases h
  | cons f fs ih =>
    simp only [Scope.set?] at h
    split at h
    · obtain rfl := Option.some.inj h
      simp [Scope.get?, Frame.get?_declare]
    · next hf =>
      obtain ⟨fs', hfs', rfl⟩ := Option.map_eq_some_iff.1 h
      have hnone : f.get? name = none := by simpa [Frame.has] using hf
      have hrest := ih hfs'
      rw [Scope.get?] at hrest ⊢
      rw [List.findSome?_cons, hnone, hrest]

/-! ## Creating arrays and replacing characters -/

namespace Machine

variable {m : Machine} {s t : State}

theorem length_values (m : Machine) (es : List Expr) :
    (m.values es).Only fun vs => vs.length = es.length := by
  induction es with
  | nil => exact only_pure rfl
  | cons e es ih =>
    refine only_bind (only_trivial _) fun v _ => only_bind ih fun vs hvs => ?_
    exact only_pure (by rw [List.length_cons, List.length_cons, hvs])

/-- The position of a text's element is checked, and the text keeps its length. -/
theorem length_of_storeAt {name : String} {text : CodeText} {i v : Value}
    (h : ((Value.str text).storeAt name i v).run s = (.ok (), t)) :
    ∃ text', t.scope.get? name = some (.str text') ∧ text'.length = text.length := by
  cases v with
  | char c =>
    obtain ⟨k, u, -, hassign⟩ := exists_run_of_bind h
    obtain ⟨_, _, hget, hassign⟩ := exists_run_of_bind hassign
    cases hget
    cases hset : u.scope.set? name (.str (text.set k c)) with
    | none =>
      rw [hset] at hassign
      cases hassign
    | some sc =>
      rw [hset] at hassign
      cases hassign
      refine ⟨_, Scope.get?_of_set? hset, ?_⟩
      exact List.length_set
  | int | bool | str | unit | array | range => cases h

/-- An assignment to a character of a text leaves a text of the same length behind. -/
theorem length_of_store {span target : Span} {base : Name} {position value : Expr} {text : CodeText}
    {r : Effect} (htext : s.scope.get? base.text = some (.str text))
    (h : (m.step (.store span target base position value)).run s = (.ok r, t)) :
    ∃ text', t.scope.get? base.text = some (.str text') ∧ text'.length = text.length := by
  obtain ⟨container, u, hlookup, h⟩ := exists_run_of_bind h
  rw [run_lookup htext] at hlookup
  cases hlookup
  obtain ⟨i, u₁, -, h⟩ := exists_run_of_bind h
  obtain ⟨v, u₂, -, h⟩ := exists_run_of_bind h
  obtain ⟨_, u₃, hstore, h⟩ := exists_run_of_bind h
  cases h
  exact length_of_storeAt hstore

end Machine

/-! ## From call to call -/

namespace Program

variable {p : Program} {o : Settings} {depth : Nat} {name : String} {f : Fun} {vs : List Value}
  {s t : State}

theorem NumbersFit.machineAt (hp : p.NumbersFit) (o : Settings) (depth : Nat) :
    (p.machineAt o depth).ValidCalls :=
  fun _ name _ hs hvs => upholds_dispatch (hp.invoke o depth) hs name hvs

/-- An array is as long as the list of arguments that it was made from. -/
theorem lengths_of_arrayOf {span : Span} {args : List Expr} {r : Effect}
    (h : ((p.machineAt o depth).step (.call span "arrayOf" args)).run s = (.ok r, t)) :
    ∃ a, r = .value (.array a) ∧ t.heap.lengths[a.id]? = some args.length := by
  obtain ⟨vs, u, hvalues, h⟩ := exists_run_of_bind h
  obtain ⟨v, u₁, hcall, h⟩ := exists_run_of_bind h
  cases h
  obtain ⟨_, u₂, -, halloc⟩ := exists_run_of_bind hcall
  obtain rfl : v = .array ⟨u₂.heap.size⟩ := (Except.ok.inj (Prod.mk.inj halloc).1).symm
  have hheap : u₂.heap.lengths ++ [vs.length] = t.heap.lengths := by
    rw [← (Prod.mk.inj halloc).2]
    exact (Heap.lengths_alloc _ _).symm
  refine ⟨_, rfl, ?_⟩
  rw [← hheap, List.getElem?_append_right (by simp)]
  simp [(p.machineAt o depth).length_values args s vs u hvalues]

namespace Reaches

variable {s₀ : State} {waiting : List Waiting} {e : Expr}

/-- Every value is valid at every point, and so are the variables of the calls that wait. -/
theorem valid (hp : p.NumbersFit) (hs₀ : s₀.Valid) (h : p.Reaches o s₀ depth waiting f s e) :
    s.Valid ∧ e.NumbersFit ∧ ∀ w ∈ waiting, Scope.Valid s.heap.size w.scope := by
  induction h with
  | @start depth f s s' before rest e _ hfind hnote hbody hcomes =>
    have hfit := hp f (List.mem_of_find?_eq_some hfind)
    rw [hbody] at hfit
    have hs := (((upholds_note hs₀ _ _).bind fun _ _ ht _ => upholds_noteCall ht.valid _ _).of_run
      hnote).1
    have hstart : State.Valid { s with scope := [f.frame []] } :=
      ⟨f.valid_frame (List.forall_mem_nil _), hs.valid.heap⟩
    have hs' := hcomes.leads (hp.machineAt o depth)
      (fun x hx => hfit x (List.mem_append_left _ hx)) hstart
    exact ⟨hs'.valid, hfit e (by simp), fun w hw => by cases hw⟩
  | part _ henters ih =>
    obtain ⟨hs, he, hwaiting⟩ := ih
    have hs' := henters.leads (hp.machineAt o _) he hs
    exact ⟨hs'.valid, he.part henters.mem_parts, fun w hw => (hwaiting w hw).mono hs'.size⟩
  | @call depth waiting f g s s₁ s₂ s' span name args before rest e vs _ hvalues hname hfind hnote
      hbody hcomes ih =>
    obtain ⟨hs, he, hwaiting⟩ := ih
    have hfit := hp g (List.mem_of_find?_eq_some hfind)
    rw [hbody] at hfit
    obtain ⟨h₁, hvs⟩ := ((hp.machineAt o _).values (fun x hx => he.part hx) s hs).of_run hvalues
    have h₂ := ((upholds_noteCall h₁.valid _ _).of_run hnote).1
    have hstart : State.Valid { s₂ with scope := [g.frame vs] } :=
      ⟨g.valid_frame (hvs.mono h₂.size), h₂.valid.heap⟩
    have h₃ := hcomes.leads (hp.machineAt o depth)
      (fun x hx => hfit x (List.mem_append_left _ hx)) hstart
    refine ⟨h₃.valid, hfit e (by simp), List.forall_mem_cons.2 ⟨h₂.valid.scope.mono h₃.size, ?_⟩⟩
    intro w hw
    have hsize := Nat.le_trans (h₁.trans h₂).size h₃.size
    exact (hwaiting w hw).mono hsize

end Reaches

/-! ## The store invariant -/

/-- What holds at a point of a run, where `L` are the lengths of the arrays at the end of the run. -/
structure PointValid (m : Machine) (L : List Nat) (waiting : List Waiting) (s : State) (e : Expr) :
    Prop where
  /-- All variables of the function that runs and all elements of arrays are valid. -/
  held : s.Valid
  /-- So are the variables of the calls that wait. -/
  suspended : ∀ w ∈ waiting, Scope.Valid s.heap.size w.scope
  /-- The form gives, or returns, a valid value and leaves a valid state behind. -/
  given : Upholds (m.step e) s Effect.Valid
  /-- The arguments of a call are valid. -/
  arguments : ∀ span name args, e = .call span name args → Upholds (m.values args) s AllValid
  /-- What a loop visits is valid. -/
  visited : ∀ span name iterable body, e = .forIn span name iterable body →
    Upholds (m.eval iterable >>= Value.elements) s fun n items => AllValid n items.toList
  /-- The arrays have the lengths that they have at the end, before the form and after it. -/
  before : s.heap.lengths <+: L
  after : ((m.step e).run s).2.heap.lengths <+: L
  /-- An array is as long as the list of the arguments that made it. -/
  created : ∀ span args r t, e = .call span "arrayOf" args → (m.step e).run s = (.ok r, t) →
    ∃ a, r = .value (.array a) ∧ L[a.id]? = some args.length
  /-- An assignment to a character of a text keeps its length. -/
  replaced : ∀ span target base position value text r t,
    e = .store span target base position value → s.scope.get? base.text = some (.str text) →
    (m.step e).run s = (.ok r, t) →
    ∃ text', t.scope.get? base.text = some (.str text') ∧ text'.length = text.length

/-- Whatever a program does that was read from a source, checked or not, and whatever its input, at
every point of its run numbers are in range, characters are single code points, handles name arrays
that are there, and arrays have the lengths that they were made with. -/
theorem run_valid {source : String} {p : Program} (h : Program.ofSource source = .ok p)
    (o : Settings) (console : Console) (log : Trace) :
    Upholds (p.run o) { console, trace := log } Value.Valid ∧
    ∀ depth waiting f s e, p.Reaches o { console, trace := log } depth waiting f s e →
      PointValid (p.machineAt o depth)
        ((p.run o).run { console, trace := log }).2.heap.lengths waiting s e := by
  have hp := Program.numbersFit_of_ofSource h
  have hs₀ : State.Valid { console, trace := log } :=
    ⟨List.forall_mem_singleton.2 (List.forall_mem_nil _), by simp [Heap.Valid]⟩
  constructor
  · refine (upholds_note hs₀ _ _).bind fun _ t ht _ => ?_
    have hcall : Upholds (p.call o "main" []) t Value.Valid :=
      upholds_dispatch (hp.invoke o o.calls) ht.valid "main" (List.forall_mem_nil _)
    refine hcall.bind fun v u hu hv => ?_
    exact (upholds_note hu.valid _ _).bind fun _ w hw _ => upholds_pure hw.valid (hv.mono hw.size)
  · intro depth waiting f s e hreach
    obtain ⟨hs, he, hwaiting⟩ := hreach.valid hp hs₀
    have hm := hp.machineAt o depth
    have hafter := hreach.partOf.lengths
    refine ⟨hs, hwaiting, hm.step e he s hs, ?_, ?_, ?_, hafter, ?_, ?_⟩
    · rintro span name args rfl
      exact hm.values (fun x hx => he.part hx) s hs
    · rintro span name iterable body rfl
      refine (hm.eval (he.part (by simp [Expr.parts])) s hs).bind fun v t ht hv => ?_
      exact Value.upholds_elements ht.valid hv
    · exact (((p.growing_machineAt o depth).step e) s).trans hafter
    · rintro span args r t rfl hrun
      obtain ⟨a, rfl, ha⟩ := lengths_of_arrayOf hrun
      rw [hrun] at hafter
      obtain ⟨more, hmore⟩ := hafter
      obtain ⟨hlt, -⟩ := List.getElem?_eq_some_iff.1 ha
      exact ⟨a, rfl, by rw [← hmore, List.getElem?_append_left hlt, ha]⟩
    · rintro span target base position value text r t rfl htext hrun
      exact Machine.length_of_store htext hrun

/-- The program with an array that a loop writes to, read back from how it is written. -/
theorem run_valid_lastOfLoop :
    ∃ q, Program.ofSource lastOfLoop.print = .ok q ∧
      Upholds (q.run ⟨2, 1, .shared⟩) { trace := ⟨0, #[]⟩ } Value.Valid ∧
      ∀ depth waiting f s e, q.Reaches ⟨2, 1, .shared⟩ { trace := ⟨0, #[]⟩ } depth waiting f s e →
        PointValid (q.machineAt ⟨2, 1, .shared⟩ depth)
          ((q.run ⟨2, 1, .shared⟩).run { trace := ⟨0, #[]⟩ }).2.heap.lengths waiting s e := by
  have hplain : ∀ f ∈ lastOfLoop.functions, Expr.PlainStatements f.body := by
    simp [lastOfLoop, Expr.PlainStatements, Expr.PlainStatement, Expr.Plain, Expr.PlainAll,
      Expr.isOperand]
  have hall : lastOfLoop.tokens.all (fun t => decide t.IsWritable) = true := by decide +kernel
  obtain ⟨q, hq, -⟩ := exists_ofLexemes lastOfLoop
    (fun f hf => (Expr.plainStatements_iff f.body).1 (hplain f hf))
    (Scan.tokens_lexemes_spellAll fun t ht => of_decide_eq_true (List.all_eq_true.1 hall t ht))
  exact ⟨q, hq, run_valid hq ⟨2, 1, .shared⟩ {} ⟨0, #[]⟩⟩

end Program

end Scriptlet
