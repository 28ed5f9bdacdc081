import Scriptlet.Typing.Judgement

/-!
# Steps of checking that report nothing

A step of checking only ever adds to what was reported.  So a step made of two parts reports nothing
exactly if neither part does, and for each part it can be said once what it means that it reports
nothing: the rule of the form holds.
-/

namespace Scriptlet.Check

variable {α β : Type}

/-- A step that only adds to what was reported. -/
class Grows (act : Check α) : Prop where
  grows (c : Checking) : c.diagnostics <+: (act.run c).2.diagnostics

/-- From `c` the step gives `a`, leaves `c'` and reports nothing. -/
def Quiet (act : Check α) (c : Checking) (a : α) (c' : Checking) : Prop :=
  act.run c = (a, c') ∧ c'.diagnostics = c.diagnostics

/-! ## Steps in general -/

theorem run_bind (act : Check α) (f : α → Check β) (c : Checking) :
    (act >>= f).run c = (f (act.run c).1).run (act.run c).2 := rfl

instance grows_pure (a : α) : Grows (pure a) := ⟨fun _ => List.prefix_rfl⟩

theorem Grows.bind {act : Check α} {f : α → Check β} (h : Grows act) (hf : ∀ a, Grows (f a)) :
    Grows (act >>= f) := by
  constructor
  intro c
  rw [run_bind]
  exact (h.grows c).trans ((hf _).grows _)

instance grows_bind {act : Check α} {f : α → Check β} [h : Grows act] [hf : ∀ a, Grows (f a)] :
    Grows (act >>= f) :=
  h.bind hf

instance grows_get : Grows get := ⟨fun _ => List.prefix_rfl⟩

theorem grows_modify {f : Checking → Checking} (h : ∀ c, (f c).diagnostics = c.diagnostics) :
    Grows (modify f) := by
  constructor
  intro c
  exact (h c).symm ▸ List.prefix_rfl

instance grows_ite {p : Prop} [Decidable p] {act act' : Check α} [h : Grows act]
    [h' : Grows act'] : Grows (if p then act else act') := by
  split
  · exact h
  · exact h'

theorem quiet_pure {a b : α} {c c' : Checking} : Quiet (pure a) c b c' ↔ b = a ∧ c' = c := by
  constructor
  · rintro ⟨h, -⟩
    cases h
    exact ⟨rfl, rfl⟩
  · rintro ⟨rfl, rfl⟩
    exact ⟨rfl, rfl⟩

theorem Quiet.bind {act : Check α} {f : α → Check β} {c c' c'' : Checking} {a : α} {b : β}
    (h : Quiet act c a c') (hf : Quiet (f a) c' b c'') : Quiet (act >>= f) c b c'' := by
  obtain ⟨hrun, hsame⟩ := h
  obtain ⟨hrun', hsame'⟩ := hf
  refine ⟨?_, hsame'.trans hsame⟩
  rw [run_bind, hrun]
  exact hrun'

theorem Quiet.map {act : Check α} {c c' : Checking} {a : α} (h : Quiet act c a c') (f : α → β) :
    Quiet (act >>= fun a => pure (f a)) c (f a) c' :=
  h.bind ⟨rfl, rfl⟩

/-- Two steps report nothing exactly if each of them does. -/
theorem quiet_bind {act : Check α} {f : α → Check β} [h : Grows act] [hf : ∀ a, Grows (f a)]
    {c c'' : Checking} {b : β} :
    Quiet (act >>= f) c b c'' ↔ ∃ a c', Quiet act c a c' ∧ Quiet (f a) c' b c'' := by
  constructor
  · rintro ⟨hrun, hsame⟩
    rw [run_bind] at hrun
    have first := h.grows c
    have second := (hf (act.run c).1).grows (act.run c).2
    rw [hrun, hsame] at second
    have hmid := second.eq_of_length_le first.length_le
    exact ⟨_, _, ⟨rfl, hmid⟩, hrun, hsame.trans hmid.symm⟩
  · rintro ⟨a, c', hact, hnext⟩
    exact hact.bind hnext

theorem quiet_map {act : Check α} {f : α → β} [Grows act] {c c' : Checking} {b : β} :
    Quiet (act >>= fun a => pure (f a)) c b c' ↔ ∃ a, Quiet act c a c' ∧ b = f a := by
  rw [quiet_bind]
  simp only [quiet_pure]
  constructor
  · rintro ⟨a, c₁, hact, rfl, rfl⟩
    exact ⟨a, hact, rfl⟩
  · rintro ⟨a, hact, rfl⟩
    exact ⟨a, c', hact, rfl, rfl⟩

theorem quiet_modify {f : Checking → Checking} (h : ∀ c, (f c).diagnostics = c.diagnostics)
    {c c' : Checking} {u : Unit} : Quiet (modify f) c u c' ↔ c' = f c := by
  constructor
  · rintro ⟨hrun, -⟩
    cases hrun
    rfl
  · rintro rfl
    exact ⟨rfl, h c⟩

/-- What a quiet step gives does not leave a choice. -/
theorem Quiet.unique {act : Check α} {c c₁ c₂ : Checking} {a b : α} (h : Quiet act c a c₁)
    (h' : Quiet act c b c₂) : a = b ∧ c₁ = c₂ := by
  have heq := h.1.symm.trans h'.1
  exact ⟨congrArg Prod.fst heq, congrArg Prod.snd heq⟩

/-! ## Reports -/

instance grows_note (level : Nat) (text : String) : Grows (note level text) :=
  grows_modify fun _ => rfl

theorem run_report (span : Span) (problem : Problem) (c : Checking) :
    ((report span problem).run c).2.diagnostics = c.diagnostics ++ [⟨span, problem⟩] := rfl

instance grows_report (span : Span) (problem : Problem) : Grows (report span problem) := by
  constructor
  intro c
  rw [run_report]
  exact List.prefix_append _ _

theorem not_quiet_report {span : Span} {problem : Problem} {c c' : Checking} {u : Unit} :
    ¬ Quiet (report span problem) c u c' := by
  rintro ⟨hrun, hsame⟩
  have hreport := run_report span problem c
  rw [hrun, hsame] at hreport
  simp at hreport

instance grows_reject (span : Span) (problem : Problem) : Grows (reject span problem) :=
  grows_bind

theorem not_quiet_reject {span : Span} {problem : Problem} {c c' : Checking} {r : Option Ty} :
    ¬ Quiet (reject span problem) c r c' := by
  intro h
  obtain ⟨_, _, hreport, -⟩ := quiet_bind.1 h
  exact not_quiet_report hreport

/-- A choice between a type and a report is quiet exactly on the side of the type. -/
theorem quiet_ite_reject {p : Prop} [Decidable p] {act : Check (Option Ty)} {span : Span}
    {problem : Problem} {c c' : Checking} {r : Option Ty} :
    Quiet (if p then act else reject span problem) c r c' ↔ p ∧ Quiet act c r c' := by
  by_cases hp : p
  · simp [hp]
  · simp [hp, not_quiet_reject]

/-- As before, with the report on the other side. -/
theorem quiet_reject_ite {p : Prop} [Decidable p] {act : Check (Option Ty)} {span : Span}
    {problem : Problem} {c c' : Checking} {r : Option Ty} :
    Quiet (if p then reject span problem else act) c r c' ↔ ¬ p ∧ Quiet act c r c' := by
  by_cases hp : p
  · simp [hp, not_quiet_reject]
  · simp [hp]

/-! ## Blocks -/

instance grows_inBlock {act : Check α} [h : Grows act] : Grows (inBlock act) :=
  Grows.bind (grows_modify fun _ => rfl) fun _ => Grows.bind h fun _ =>
    Grows.bind (grows_modify fun _ => rfl) fun _ => grows_pure _

theorem quiet_inBlock {act : Check α} {c c' : Checking} {a : α} :
    Quiet (inBlock act) c a c' ↔
      ∃ c₁, Quiet act { c with scope := c.scope.push } a c₁ ∧
        c' = { c₁ with scope := c₁.scope.pop } := by
  constructor
  · rintro ⟨hrun, hsame⟩
    cases hrun
    exact ⟨_, ⟨rfl, hsame⟩, rfl⟩
  · rintro ⟨c₁, ⟨hrun, hsame⟩, rfl⟩
    refine ⟨?_, hsame⟩
    calc (inBlock act).run c
        = ((act.run { c with scope := c.scope.push }).1,
            { (act.run { c with scope := c.scope.push }).2 with
              scope := (act.run { c with scope := c.scope.push }).2.scope.pop }) := rfl
      _ = (a, { c₁ with scope := c₁.scope.pop }) := by rw [hrun]

/-! ## Forms

For each step that works out the type of a form from the types of its parts: it only adds to what was
reported, and it is quiet exactly if the rule of the form holds.
-/

instance grows_variableType (span : Span) (name : String) : Grows (variableType span name) := by
  refine Grows.bind grows_bind fun t => ?_
  cases t with
  | none => exact grows_reject _ _
  | some t => exact grows_pure _

theorem run_variableType (span : Span) (name : String) (c : Checking) :
    (variableType span name).run c =
      match c.scope.get? name with
      | some t => (some t, c)
      | none => (reject span (.variableUnknown name)).run c := by
  show (match c.scope.get? name with
      | some t => pure (some t)
      | none => reject span (.variableUnknown name) : Check (Option Ty)).run c = _
  cases c.scope.get? name <;> rfl

theorem quiet_variableType {span : Span} {name : String} {c c' : Checking} {r : Option Ty} :
    Quiet (variableType span name) c r c' ↔ ∃ t, c.scope.get? name = some t ∧ r = some t ∧ c' = c := by
  rw [Quiet, run_variableType]
  cases hget : c.scope.get? name with
  | none =>
    have hreject : ¬ Quiet (reject span (.variableUnknown name)) c r c' := not_quiet_reject
    simpa [Quiet] using hreject
  | some t =>
    constructor
    · rintro ⟨hrun, -⟩
      cases hrun
      exact ⟨t, rfl, rfl, rfl⟩
    · rintro ⟨t', ht, rfl, rfl⟩
      cases ht
      exact ⟨rfl, rfl⟩

instance grows_require (span : Span) (wanted : Ty) (problem : Problem) (t : Option Ty) :
    Grows (require span wanted problem t) := by
  cases t with
  | none => exact grows_pure _
  | some t => exact grows_ite

theorem quiet_require {span : Span} {wanted t : Ty} {problem : Problem} {c c' : Checking}
    {r : Option Ty} :
    Quiet (require span wanted problem (some t)) c r c' ↔ t = wanted ∧ r = some t ∧ c' = c := by
  rw [require, quiet_ite_reject, quiet_pure]

instance grows_sameType (span : Span) (l r : Option Ty) : Grows (sameType span l r) := by
  cases l with
  | none => exact grows_pure _
  | some l =>
    cases r with
    | none => exact grows_pure _
    | some r => exact grows_ite

theorem quiet_sameType {span : Span} {l r : Ty} {c c' : Checking} {t : Option Ty} :
    Quiet (sameType span (some l) (some r)) c t c' ↔ l = r ∧ t = some l ∧ c' = c := by
  rw [sameType, quiet_ite_reject, quiet_pure]

instance grows_sumType (span : Span) (l r : Option Ty) : Grows (sumType span l r) := by
  cases l with
  | none => exact grows_pure _
  | some l =>
    cases r with
    | none => exact grows_pure _
    | some r =>
      exact grows_ite

theorem quiet_sumType {span : Span} {l r : Ty} {c c' : Checking} {t : Option Ty} :
    Quiet (sumType span (some l) (some r)) c t c' ↔
      ∃ u, BinOp.Typed .add l r u ∧ t = some u ∧ c' = c := by
  rw [sumType, quiet_reject_ite]
  by_cases hs : l = .string ∨ r = .string
  · rw [if_pos hs, quiet_pure]
    constructor
    · rintro ⟨hunit, rfl, rfl⟩
      refine ⟨.string, ?_, rfl, rfl⟩
      rcases hs with rfl | rfl
      · exact .concatRight fun h => hunit (.inr h)
      · exact .concatLeft fun h => hunit (.inl h)
    · rintro ⟨u, hu, rfl, rfl⟩
      cases hu <;> simp_all
  · rw [if_neg hs, quiet_sameType]
    constructor
    · rintro ⟨hunit, rfl, rfl, rfl⟩
      exact ⟨l, .sum fun h => hunit (.inl h), rfl, rfl⟩
    · rintro ⟨u, hu, rfl, rfl⟩
      cases hu <;> simp_all

/-- The type of a comparison of operands of one type. -/
def comparedType (span : Span) : Option Ty → Check (Option Ty)
  | none => return none
  | some t =>
    if t = .boolean then reject span .compareBooleans
    else if t.isPrimitive then return some .boolean
    else reject span .compareOthers

theorem comparisonType_eq (span : Span) (l r : Option Ty) :
    comparisonType span l r = sameType span l r >>= comparedType span := rfl

instance grows_comparedType (span : Span) (t : Option Ty) : Grows (comparedType span t) := by
  cases t with
  | none => exact grows_pure _
  | some t => exact grows_ite

instance grows_comparisonType (span : Span) (l r : Option Ty) :
    Grows (comparisonType span l r) :=
  (grows_sameType span l r).bind (grows_comparedType span)

theorem quiet_comparisonType {span : Span} {l r : Ty} {c c' : Checking} {t : Option Ty} :
    Quiet (comparisonType span (some l) (some r)) c t c' ↔
      l = r ∧ l ≠ .boolean ∧ l.isPrimitive ∧ t = some .boolean ∧ c' = c := by
  rw [comparisonType_eq, quiet_bind]
  simp only [quiet_sameType]
  constructor
  · rintro ⟨u, c₁, ⟨rfl, rfl, rfl⟩, h⟩
    rw [comparedType, quiet_reject_ite, quiet_ite_reject, quiet_pure] at h
    exact ⟨rfl, h⟩
  · rintro ⟨rfl, h⟩
    refine ⟨some l, c, ⟨rfl, rfl, rfl⟩, ?_⟩
    rw [comparedType, quiet_reject_ite, quiet_ite_reject, quiet_pure]
    exact h

instance grows_connectiveType (span : Span) (l r : Option Ty) : Grows (connectiveType span l r) := by
  cases l with
  | none => exact grows_pure _
  | some l =>
    cases r with
    | none => exact grows_pure _
    | some r => exact grows_ite

theorem quiet_connectiveType {span : Span} {l r : Ty} {c c' : Checking} {t : Option Ty} :
    Quiet (connectiveType span (some l) (some r)) c t c' ↔
      (l = .boolean ∧ r = .boolean) ∧ t = some .boolean ∧ c' = c := by
  rw [connectiveType, quiet_ite_reject, quiet_pure]

instance grows_operationType (span : Span) (op : BinOp) (l r : Option Ty) :
    Grows (operationType span op l r) := by
  cases op with
  | add => exact grows_sumType _ _ _
  | sub | mul | div => exact grows_sameType _ _ _
  | range => exact grows_bind
  | less | greater => exact grows_comparisonType _ _ _
  | and | or => exact grows_connectiveType _ _ _

/-- An operation is quiet exactly if its operands have types that the operator takes. -/
theorem quiet_operationType {span : Span} {op : BinOp} {l r : Ty} {c c' : Checking}
    {t : Option Ty} :
    Quiet (operationType span op (some l) (some r)) c t c' ↔
      ∃ u, op.Typed l r u ∧ t = some u ∧ c' = c := by
  cases op with
  | add => exact quiet_sumType
  | sub | mul | div =>
    refine quiet_sameType.trans ⟨?_, ?_⟩
    · rintro ⟨rfl, rfl, rfl⟩
      exact ⟨l, by constructor, rfl, rfl⟩
    · rintro ⟨u, hu, rfl, rfl⟩
      cases hu
      exact ⟨rfl, rfl, rfl⟩
  | range =>
    refine quiet_map.trans ?_
    simp only [quiet_sameType]
    constructor
    · rintro ⟨_, ⟨rfl, rfl, rfl⟩, rfl⟩
      exact ⟨.range l, .range, rfl, rfl⟩
    · rintro ⟨u, hu, rfl, rfl⟩
      cases hu
      exact ⟨some l, ⟨rfl, rfl, rfl⟩, rfl⟩
  | less | greater =>
    refine quiet_comparisonType.trans ⟨?_, ?_⟩
    · rintro ⟨rfl, hbool, hprim, rfl, rfl⟩
      exact ⟨.boolean, by constructor <;> assumption, rfl, rfl⟩
    · rintro ⟨u, hu, rfl, rfl⟩
      cases hu
      exact ⟨rfl, by assumption, by assumption, rfl, rfl⟩
  | and | or =>
    refine quiet_connectiveType.trans ⟨?_, ?_⟩
    · rintro ⟨⟨rfl, rfl⟩, rfl, rfl⟩
      exact ⟨.boolean, by constructor, rfl, rfl⟩
    · rintro ⟨u, hu, rfl, rfl⟩
      cases hu
      exact ⟨⟨rfl, rfl⟩, rfl, rfl⟩

instance grows_baseElement (span : Span) (t : Option Ty) : Grows (baseElement span t) := by
  cases t with
  | none => exact grows_pure _
  | some t => cases t <;> first | exact grows_pure _ | exact grows_reject _ _

theorem quiet_baseElement {span : Span} {t : Ty} {c c' : Checking} {r : Option Ty} :
    Quiet (baseElement span (some t)) c r c' ↔ ∃ u, t.Indexed u ∧ r = some u ∧ c' = c := by
  cases t with
  | array t =>
    refine quiet_pure.trans ⟨?_, ?_⟩
    · rintro ⟨rfl, rfl⟩
      exact ⟨t, .array, rfl, rfl⟩
    · rintro ⟨u, hu, rfl, rfl⟩
      cases hu
      exact ⟨rfl, rfl⟩
  | string =>
    refine quiet_pure.trans ⟨?_, ?_⟩
    · rintro ⟨rfl, rfl⟩
      exact ⟨.char, .string, rfl, rfl⟩
    · rintro ⟨u, hu, rfl, rfl⟩
      cases hu
      exact ⟨rfl, rfl⟩
  | int | boolean | char | unit | range _ =>
    constructor
    · intro h
      exact absurd h not_quiet_reject
    · rintro ⟨u, hu, -⟩
      cases hu

instance grows_elementType (span : Span) (base position : Option Ty) :
    Grows (elementType span base position) :=
  grows_bind

theorem quiet_elementType {span : Span} {base position : Ty} {c c' : Checking} {r : Option Ty} :
    Quiet (elementType span (some base) (some position)) c r c' ↔
      position = .int ∧ ∃ u, base.Indexed u ∧ r = some u ∧ c' = c := by
  rw [elementType, quiet_bind]
  simp only [quiet_require, quiet_map, quiet_baseElement]
  constructor
  · rintro ⟨_, _, ⟨rfl, rfl, rfl⟩, _, ⟨u, hu, rfl, rfl⟩, rfl⟩
    exact ⟨rfl, u, hu, rfl, rfl⟩
  · rintro ⟨rfl, u, hu, rfl, rfl⟩
    exact ⟨_, _, ⟨rfl, rfl, rfl⟩, _, ⟨u, hu, rfl, rfl⟩, rfl⟩

instance grows_condition (span : Span) (t : Option Ty) : Grows (condition span t) :=
  grows_bind

theorem quiet_condition {span : Span} {t : Ty} {c c' : Checking} {ok : Bool} :
    Quiet (condition span (some t)) c ok c' ↔ t = .boolean ∧ ok = true ∧ c' = c := by
  rw [condition, quiet_map]
  simp only [quiet_require]
  constructor
  · rintro ⟨_, ⟨rfl, rfl, rfl⟩, rfl⟩
    exact ⟨rfl, rfl, rfl⟩
  · rintro ⟨rfl, rfl, rfl⟩
    exact ⟨_, ⟨rfl, rfl, rfl⟩, rfl⟩

/-! ## Calls -/

instance grows_printable (span : Span) (ts : List Ty) : Grows (printable span ts) := by
  induction ts with
  | nil => exact grows_pure _
  | cons t ts ih =>
    exact grows_ite

theorem quiet_printable {span : Span} {ts : List Ty} {c c' : Checking} {ok : Bool} :
    Quiet (printable span ts) c ok c' ↔ (∀ t ∈ ts, t.isPrimitive) ∧ ok = true ∧ c' = c := by
  induction ts with
  | nil => simpa [printable] using quiet_pure
  | cons t ts ih =>
    rw [printable]
    by_cases ht : t.isPrimitive
    · simp [ht, ih]
    · rw [if_neg ht, quiet_bind]
      constructor
      · rintro ⟨_, _, hreport, -⟩
        exact absurd hreport not_quiet_report
      · rintro ⟨hall, -⟩
        exact absurd (hall t List.mem_cons_self) ht

instance grows_builtinType (span : Span) (b : Builtin) (args : List Ty) :
    Grows (builtinType span b args) := by
  cases b with
  | print | println => exact grows_bind
  | arrayOf =>
    cases args with
    | nil => exact grows_reject _ _
    | cons t ts => exact grows_ite
  | readln | readlnInt | readlnBoolean => exact grows_ite

/-- A call of a built-in function is quiet exactly if the function takes these arguments. -/
theorem quiet_builtinType {span : Span} {b : Builtin} {args : List Ty} {c c' : Checking}
    {r : Option Ty} :
    Quiet (builtinType span b args) c r c' ↔ ∃ t, b.Typed args t ∧ r = some t ∧ c' = c := by
  cases b with
  | print | println =>
    refine quiet_map.trans ?_
    simp only [quiet_printable]
    constructor
    · rintro ⟨_, ⟨hall, rfl, rfl⟩, rfl⟩
      exact ⟨.unit, by constructor; exact hall, rfl, rfl⟩
    · rintro ⟨t, ht, rfl, rfl⟩
      cases ht
      exact ⟨true, ⟨by assumption, rfl, rfl⟩, rfl⟩
  | arrayOf =>
    cases args with
    | nil =>
      constructor
      · intro h
        exact absurd h not_quiet_reject
      · rintro ⟨t, ht, -⟩
        cases ht
    | cons t ts =>
      refine quiet_ite_reject.trans ?_
      rw [quiet_pure]
      constructor
      · rintro ⟨hall, rfl, rfl⟩
        exact ⟨.array t, .arrayOf (by simpa using hall), rfl, rfl⟩
      · rintro ⟨u, hu, rfl, rfl⟩
        cases hu with
        | arrayOf hall => exact ⟨by simpa using hall, rfl, rfl⟩
  | readln | readlnInt | readlnBoolean =>
    refine quiet_ite_reject.trans ?_
    rw [quiet_pure]
    constructor
    · rintro ⟨hnil, rfl, rfl⟩
      obtain rfl : args = [] := List.length_eq_zero_iff.1 (of_decide_eq_true hnil)
      exact ⟨_, by constructor, rfl, rfl⟩
    · rintro ⟨u, hu, rfl, rfl⟩
      cases hu
      exact ⟨rfl, rfl, rfl⟩

theorem allTypes_map_some (ts : List Ty) : allTypes (ts.map some) = some ts := by
  induction ts with
  | nil => rfl
  | cons t ts ih => simp [allTypes, ih]

instance grows_callType (Γ : Context) (span : Span) (name : String) (args : List (Option Ty)) :
    Grows (callType Γ span name args) := by
  rw [callType]
  split
  · split
    · exact grows_pure _
    · exact grows_builtinType _ _ _
  · split
    · exact grows_reject _ _
    · split
      · exact grows_pure _
      · exact grows_ite

/-- A call is quiet exactly if the function it means takes these arguments. -/
theorem quiet_callType {Γ : Context} {span : Span} {name : String} {ts : List Ty}
    {c c' : Checking} {r : Option Ty} :
    Quiet (callType Γ span name (ts.map some)) c r c' ↔
      ∃ t, Γ.Calls name ts t ∧ r = some t ∧ c' = c := by
  rw [callType, allTypes_map_some]
  cases hb : Builtin.ofName? name with
  | some b =>
    refine quiet_builtinType.trans ⟨?_, ?_⟩
    · rintro ⟨t, ht, rfl, rfl⟩
      exact ⟨t, .builtin hb ht, rfl, rfl⟩
    · rintro ⟨t, ht, rfl, rfl⟩
      cases ht with
      | builtin hb' ht =>
        obtain rfl : b = _ := Option.some.inj (hb.symm.trans hb')
        exact ⟨t, ht, rfl, rfl⟩
      | user hb' _ => simp [hb] at hb'
  | none =>
    cases hsig : Γ.signatures.get? name with
    | none =>
      constructor
      · intro h
        exact absurd h not_quiet_reject
      · rintro ⟨t, ht, -⟩
        cases ht with
        | builtin hb' _ => simp [hb] at hb'
        | user _ hsig' => simp [hsig] at hsig'
    | some sig =>
      refine quiet_ite_reject.trans ?_
      rw [quiet_pure]
      constructor
      · rintro ⟨rfl, rfl, rfl⟩
        exact ⟨sig.result, .user hb hsig, rfl, rfl⟩
      · rintro ⟨t, ht, rfl, rfl⟩
        cases ht with
        | builtin hb' _ => simp [hb] at hb'
        | user _ hsig' =>
          obtain rfl : sig = _ := Option.some.inj (hsig.symm.trans hsig')
          exact ⟨rfl, rfl, rfl⟩

/-! ## Statements -/

instance grows_declare (name : String) (t : Ty) : Grows (declare name t) :=
  grows_modify fun _ => rfl

theorem quiet_declare {name : String} {t : Ty} {c c' : Checking} {u : Unit} :
    Quiet (declare name t) c u c' ↔ c' = { c with scope := c.scope.declare name t } :=
  quiet_modify fun _ => rfl

instance grows_declaration (span : Span) (name : String) (t : Option Ty) :
    Grows (declaration span name t) := by
  cases t with
  | none => exact grows_pure _
  | some t =>
    exact grows_bind

/-- A declaration is quiet exactly if the innermost block does not declare the name yet. -/
theorem quiet_declaration {span : Span} {name : String} {t : Ty} {c c' : Checking}
    {r : Option Ty} :
    Quiet (declaration span name (some t)) c r c' ↔
      c.scope.declaredHere name = false ∧ r = some .unit ∧
        c' = { c with
          scope := c.scope.declare name t
          trace := c.trace.write 2 ("declare " ++ name ++ ": " ++ t.render) } := by
  have hrun : (declaration span name (some t)).run c =
      (if c.scope.declaredHere name then reject span (.variableRedefined name)
        else (do
          declare name t
          note 2 ("declare " ++ name ++ ": " ++ t.render)
          return some .unit : Check (Option Ty))).run c := rfl
  have hquiet : Quiet (declaration span name (some t)) c r c' ↔
      Quiet (if c.scope.declaredHere name then reject span (.variableRedefined name)
        else (do
          declare name t
          note 2 ("declare " ++ name ++ ": " ++ t.render)
          return some .unit : Check (Option Ty))) c r c' := by
    rw [Quiet, Quiet, hrun]
  rw [hquiet, quiet_reject_ite, Bool.not_eq_true]
  refine and_congr_right fun _ => ?_
  constructor
  · rintro ⟨h, -⟩
    cases h
    exact ⟨rfl, rfl⟩
  · rintro ⟨rfl, rfl⟩
    exact ⟨rfl, rfl⟩

instance grows_assignment (span : Span) (name : String) (value : Option Ty) :
    Grows (assignment span name value) := by
  refine Grows.bind grows_bind fun t => ?_
  cases t with
  | none => exact grows_reject _ _
  | some t =>
    cases value with
    | none => exact grows_pure _
    | some u => exact grows_ite

/-- An assignment is quiet exactly if the variable has the type of the value. -/
theorem quiet_assignment {span : Span} {name : String} {t : Ty} {c c' : Checking}
    {r : Option Ty} :
    Quiet (assignment span name (some t)) c r c' ↔
      c.scope.get? name = some t ∧ r = some .unit ∧ c' = c := by
  have htype : (typeOf? name).run c = (c.scope.get? name, c) := rfl
  rw [Quiet, assignment, run_bind, htype]
  cases hget : c.scope.get? name with
  | none =>
    have hreject : ¬ Quiet (reject span (.variableUnknown name)) c r c' := not_quiet_reject
    simpa [Quiet] using hreject
  | some expected =>
    refine (quiet_ite_reject (p := t = expected)).trans ?_
    rw [quiet_pure, Option.some_inj, eq_comm]

instance grows_storeType (span : Span) (target value : Option Ty) :
    Grows (storeType span target value) :=
  grows_bind

theorem quiet_storeType {span : Span} {target value : Ty} {c c' : Checking} {r : Option Ty} :
    Quiet (storeType span (some target) (some value)) c r c' ↔
      target = value ∧ r = some .unit ∧ c' = c := by
  rw [storeType, quiet_map]
  simp only [quiet_sameType]
  constructor
  · rintro ⟨_, ⟨rfl, rfl, rfl⟩, rfl⟩
    exact ⟨rfl, rfl, rfl⟩
  · rintro ⟨rfl, rfl, rfl⟩
    exact ⟨_, ⟨rfl, rfl, rfl⟩, rfl⟩

instance grows_reportUnless (ok : Bool) (span : Span) (problem : Problem) :
    Grows (reportUnless ok span problem) :=
  grows_ite

instance grows_returnType (Γ : Context) (span : Span) (t : Option Ty) :
    Grows (returnType Γ span t) := by
  cases t with
  | none => exact grows_pure _
  | some t => exact grows_bind

/-- A `return` is quiet exactly if its value has the declared type. -/
theorem quiet_returnType {Γ : Context} {span : Span} {t : Ty} {c c' : Checking} {r : Option Ty} :
    Quiet (returnType Γ span (some t)) c r c' ↔ t = Γ.result ∧ r = some .unit ∧ c' = c := by
  rw [returnType, quiet_bind]
  simp only [quiet_pure]
  by_cases ht : t = Γ.result
  · simp [reportUnless, ht, quiet_pure, and_comm]
  · simp only [reportUnless, ht, decide_false]
    constructor
    · rintro ⟨_, _, hreport, -⟩
      exact absurd hreport not_quiet_report
    · rintro ⟨h, -⟩
      exact absurd h id

end Scriptlet.Check
