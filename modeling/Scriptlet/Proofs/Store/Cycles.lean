import Mathlib.Data.List.Perm.Subperm
import Mathlib.Logic.Relation
import Scriptlet.Proofs.Eval.Safe

/-!
# Arrays that contain themselves

An array may come to contain itself, directly or through others, and then it cannot be shown: showing
it would never end.  All that leads to no such array can be shown: `Heap.text?_eq_none_iff`.  The depth
that showing is given is enough because a chain of arrays, each contained in the one before, passes no
array twice.
-/

namespace Scriptlet

/-! ## Relations without cycles -/

/-- In a relation without cycles, as many steps lead to the end as there are things to step from.
`P n x` says that `n` steps are enough from `x`. -/
theorem acyclic_induction {α : Type} {R : α → α → Prop} {sources : List α} {P : Nat → α → Prop}
    {start : α} (hacyclic : ∀ x, Relation.ReflTransGen R start x → ¬ Relation.TransGen R x x)
    (leaf : ∀ n x, x ∉ sources → P n x) (step : ∀ n x, (∀ y, R x y → P n y) → P (n + 1) x) :
    P sources.length start := by
  -- What was passed on the way to `x` has no duplicates, so it leaves room for `n` more.
  have general : ∀ n x passed, Relation.ReflTransGen R start x →
      (∀ z ∈ passed, Relation.TransGen R z x) → passed.Nodup → passed ⊆ sources →
      sources.length ≤ passed.length + n → P n x := by
    intro n
    induction n with
    | zero =>
      -- All that can be stepped from was passed, and `x` is not among it.
      intro x passed hx hpassed hnodup hsources hlength
      refine leaf 0 x fun hmem => ?_
      have hnew : x ∉ passed := fun h => hacyclic x hx (hpassed x h)
      have hmore := (List.subperm_of_subset (List.nodup_cons.2 ⟨hnew, hnodup⟩)
        (List.cons_subset.2 ⟨hmem, hsources⟩)).length_le
      rw [List.length_cons] at hmore
      omega
    | succ n ih =>
      intro x passed hx hpassed hnodup hsources hlength
      by_cases hmem : x ∈ sources
      · have hnew : x ∉ passed := fun h => hacyclic x hx (hpassed x h)
        refine step n x fun y hxy => ih y (x :: passed) (hx.tail hxy) ?_
          (List.nodup_cons.2 ⟨hnew, hnodup⟩) (List.cons_subset.2 ⟨hmem, hsources⟩) ?_
        · intro z hz
          rcases List.mem_cons.1 hz with rfl | hz
          · exact .single hxy
          · exact (hpassed z hz).tail hxy
        · rw [List.length_cons]
          omega
      · exact leaf (n + 1) x hmem
  exact general _ start [] .refl (List.forall_mem_nil _) List.nodup_nil (List.nil_subset _) (by simp)

/-! ## What arrays contain -/

/-- The value is the array, or a range one end of which refers to it. -/
def Value.Refers : Value → Handle → Prop
  | .array h, h' => h = h'
  | .range a b, h' => a.Refers h' ∨ b.Refers h'
  | .int _, _ | .bool _, _ | .str _, _ | .char _, _ | .unit, _ => False

namespace Heap

variable {m : Heap}

/-- An element of the first array refers to the second one. -/
def Holds (m : Heap) (h h' : Handle) : Prop := ∃ v ∈ (m.items h).toList, v.Refers h'

/-- No array contains itself, be it through other arrays. -/
def Acyclic (m : Heap) : Prop := ∀ h, ¬ Relation.TransGen m.Holds h h

/-- A value can be shown if the arrays can that it refers to. -/
theorem describe?_ne_none {array : Handle → Option CodeText} {v : Value}
    (h : ∀ h', v.Refers h' → array h' ≠ none) : v.describe? array ≠ none := by
  induction v with
  | int | bool | str | char | unit => exact Option.some_ne_none _
  | array h' => exact h h' rfl
  | range a b iha ihb =>
    obtain ⟨left, hleft⟩ := Option.ne_none_iff_exists'.1 (iha fun h' hh' => h h' (.inl hh'))
    obtain ⟨right, hright⟩ := Option.ne_none_iff_exists'.1 (ihb fun h' hh' => h h' (.inr hh'))
    rw [Value.describe?, hleft, hright]
    exact Option.some_ne_none _

theorem mapM_ne_none {f : Value → Option CodeText} {vs : List Value} (h : ∀ v ∈ vs, f v ≠ none) :
    vs.mapM f ≠ none := by
  induction vs with
  | nil => exact Option.some_ne_none _
  | cons v vs ih =>
    obtain ⟨hv, hvs⟩ := List.forall_mem_cons.1 h
    obtain ⟨text, htext⟩ := Option.ne_none_iff_exists'.1 hv
    obtain ⟨texts, htexts⟩ := Option.ne_none_iff_exists'.1 (ih hvs)
    rw [List.mapM_cons, htext, htexts]
    exact Option.some_ne_none _

/-- An array can be shown if the arrays can, one level deeper, that its elements refer to. -/
theorem describeArray?_ne_none {depth : Nat} {h : Handle}
    (hitems : ∀ h', m.Holds h h' → m.describeArray? depth h' ≠ none) :
    m.describeArray? (depth + 1) h ≠ none := by
  have hshown : (m.items h).toList.mapM (Value.describe? (m.describeArray? depth)) ≠ none :=
    mapM_ne_none fun v hv => describe?_ne_none fun h' hh' => hitems h' ⟨v, hv, hh'⟩
  obtain ⟨texts, htexts⟩ := Option.ne_none_iff_exists'.1 hshown
  rw [describeArray?, htexts]
  exact Option.some_ne_none _

/-- An array that is not there has no elements. -/
theorem not_holds_of_size_le {h h' : Handle} (hsize : m.arrays.size ≤ h.id) : ¬ m.Holds h h' := by
  rintro ⟨v, hv, -⟩
  rw [Heap.items, Array.getD_eq_getD_getElem?, Array.getElem?_eq_none hsize] at hv
  cases hv

/-- No array that the value leads to contains itself. -/
def Unrolls (m : Heap) (v : Value) : Prop :=
  ∀ h, v.Refers h → ∀ h', Relation.ReflTransGen m.Holds h h' → ¬ Relation.TransGen m.Holds h' h'

theorem Acyclic.unrolls (hm : m.Acyclic) (v : Value) : m.Unrolls v := fun _ _ h' _ => hm h'

/-- A value that leads to no array that contains itself can be shown. -/
theorem Unrolls.text?_ne_none {v : Value} (hv : m.Unrolls v) : m.text? v ≠ none := by
  have harray : ∀ h, v.Refers h → m.describeArray? (m.arrays.size + 1) h ≠ none := by
    intro h hh
    -- The arrays that are there are what can be stepped from.
    have hdepth : m.describeArray?
        (((List.range m.arrays.size).map Handle.mk).length + 1) h ≠ none := by
      refine acyclic_induction (R := m.Holds) (P := fun n x => m.describeArray? (n + 1) x ≠ none)
        (hv h hh) (fun n x hx => ?_) fun n x hitems => describeArray?_ne_none hitems
      have hsize : m.arrays.size ≤ x.id := by
        rw [List.mem_map] at hx
        exact Nat.le_of_not_lt fun hlt => hx ⟨x.id, List.mem_range.2 hlt, rfl⟩
      exact describeArray?_ne_none fun h' hh' => absurd hh' (not_holds_of_size_le hsize)
    rwa [List.length_map, List.length_range] at hdepth
  cases v with
  | int | bool | str | char => exact Option.some_ne_none _
  | unit | array | range => exact describe?_ne_none harray

/-- Where no array contains itself, every value can be shown. -/
theorem text?_ne_none (hm : m.Acyclic) (v : Value) : m.text? v ≠ none :=
  (hm.unrolls v).text?_ne_none

/-- A value cannot be shown if an array cannot that it refers to. -/
theorem describe?_eq_none {array : Handle → Option CodeText} {v : Value} {h : Handle}
    (hv : v.Refers h) (hnone : array h = none) : v.describe? array = none := by
  induction v with
  | int | bool | str | char | unit => exact absurd hv id
  | array h' =>
    obtain rfl : h' = h := hv
    exact hnone
  | range a b iha ihb =>
    rw [Value.describe?]
    rcases hv with ha | hb
    · rw [iha ha]
      rfl
    · rw [ihb hb]
      cases a.describe? array <;> rfl

theorem mapM_eq_none {f : Value → Option CodeText} {vs : List Value} {v : Value} (hmem : v ∈ vs)
    (hv : f v = none) : vs.mapM f = none := by
  induction vs with
  | nil => cases hmem
  | cons w vs ih =>
    rw [List.mapM_cons]
    rcases List.mem_cons.1 hmem with rfl | hmem
    · rw [hv]
      rfl
    · rw [ih hmem]
      cases f w <;> rfl

/-- An array that leads to one that contains itself cannot be shown, however deep one looks. -/
theorem describeArray?_eq_none {h h' : Handle} (hleads : Relation.ReflTransGen m.Holds h h')
    (hcycle : Relation.TransGen m.Holds h' h') (depth : Nat) : m.describeArray? depth h = none := by
  induction depth generalizing h h' with
  | zero => rfl
  | succ depth ih =>
    -- One step on there is still an array that contains itself ahead.
    obtain ⟨next, ⟨v, hv, hrefers⟩, h'', hleads', hcycle'⟩ : ∃ next, m.Holds h next ∧
        ∃ h'', Relation.ReflTransGen m.Holds next h'' ∧ Relation.TransGen m.Holds h'' h'' := by
      rcases hleads.cases_head with rfl | ⟨next, hnext, hleads⟩
      · obtain ⟨next, hnext, hback⟩ := Relation.TransGen.head'_iff.1 hcycle
        exact ⟨next, hnext, h, hback, hcycle⟩
      · exact ⟨next, hnext, h', hleads, hcycle⟩
    have hitem := describe?_eq_none hrefers (ih hleads' hcycle')
    rw [describeArray?, mapM_eq_none hv hitem]
    rfl

/-- A value can be shown exactly if it leads to no array that contains itself. -/
theorem text?_eq_none_iff {v : Value} : m.text? v = none ↔ ¬ m.Unrolls v := by
  constructor
  · intro hnone hv
    exact hv.text?_ne_none hnone
  · intro hv
    simp only [Unrolls, not_forall, not_not] at hv
    obtain ⟨h, hrefers, h', hleads, hcycle⟩ := hv
    have hnone := describe?_eq_none hrefers
      (describeArray?_eq_none hleads hcycle (m.arrays.size + 1))
    cases v with
    | int | bool | str | char | unit => exact absurd hrefers id
    | array | range => exact hnone

theorem texts?_ne_none (hm : m.Acyclic) (vs : List Value) : m.texts? vs ≠ none :=
  mapM_ne_none fun v _ => text?_ne_none hm v

end Heap

namespace Run

/-- Showing a value changes nothing, and fails only where an array contains itself. -/
theorem textOf_cases (v : Value) (s : State) :
    (∃ text, (textOf v).run s = (.ok text, s)) ∨
      (textOf v).run s = (.error .tooDeep, s) ∧ ¬ s.heap.Acyclic := by
  rw [textOf, run_get_bind]
  cases htext : s.heap.text? v with
  | some text => exact .inl ⟨text, rfl⟩
  | none => exact .inr ⟨rfl, fun hacyclic => Heap.text?_ne_none hacyclic v htext⟩

theorem textsOf_cases (vs : List Value) (s : State) :
    (∃ texts, (textsOf vs).run s = (.ok texts, s)) ∨
      (textsOf vs).run s = (.error .tooDeep, s) ∧ ¬ s.heap.Acyclic := by
  rw [textsOf, run_get_bind]
  cases htexts : s.heap.texts? vs with
  | some texts => exact .inl ⟨texts, rfl⟩
  | none => exact .inr ⟨rfl, fun hacyclic => Heap.texts?_ne_none hacyclic vs htexts⟩

end Run

end Scriptlet
