import Mathlib.Data.List.Forall2
import Scriptlet.Eval.State
import Scriptlet.Typing.Ty

/-!
# Values, arrays and variables that have their types

A heap typing lists the element types of the arrays of a heap, in the order of creation.  It only
ever grows, so a value keeps its type.  `Scope.Fits` relates the types that checking knows for the
variables of each frame to the values that a run keeps in the corresponding frame.
-/

namespace Scriptlet

/-! ## Values -/

/-- A value has a type, where the arrays have the element types in `S`. -/
inductive Value.HasTy (S : List Ty) : Value → Ty → Prop
  | int {n : Int} : HasTy S (.int n) .int
  | bool {b : Bool} : HasTy S (.bool b) .boolean
  | str {v : CodeText} : HasTy S (.str v) .string
  | char {c : CodePoint} : HasTy S (.char c) .char
  | unit : HasTy S .unit .unit
  | array {h : Handle} {t : Ty} : S[h.id]? = some t → HasTy S (.array h) (.array t)
  | range {a b : Value} {t : Ty} : HasTy S a t → HasTy S b t → HasTy S (.range a b) (.range t)

/-- A value keeps its type when arrays are added. -/
theorem Value.HasTy.mono {S S' : List Ty} (hS : S <+: S') {v : Value} {t : Ty}
    (h : v.HasTy S t) : v.HasTy S' t := by
  induction h with
  | int => exact .int
  | bool => exact .bool
  | str => exact .str
  | char => exact .char
  | unit => exact .unit
  | array hget =>
    obtain ⟨rest, rfl⟩ := hS
    obtain ⟨hlt, -⟩ := List.getElem?_eq_some_iff.1 hget
    exact .array ((List.getElem?_append_left hlt).trans hget)
  | range _ _ iha ihb => exact .range iha ihb

/-! ## Heaps -/

/-- The arrays of a heap hold values of the element types in `S`. -/
structure Heap.Typed (S : List Ty) (m : Heap) : Prop where
  /-- Every array has an element type. -/
  size : m.arrays.size = S.length
  /-- Every element has the element type of its array. -/
  items : ∀ (h : Handle) (t : Ty), S[h.id]? = some t → ∀ v ∈ (m.items h).toList, v.HasTy S t

/-- The heap without arrays. -/
theorem Heap.typed_empty : Heap.Typed [] {} where
  size := rfl
  items := by
    intro h t ht
    simp at ht

/-- A new array of values of one type. -/
theorem Heap.Typed.alloc {S : List Ty} {m : Heap} (h : m.Typed S) {vs : List Value} {t : Ty}
    (hvs : ∀ v ∈ vs, v.HasTy S t) : (m.alloc vs.toArray).2.Typed (S ++ [t]) where
  size := by simp [Heap.alloc, h.size]
  items := by
    intro other u hu v hv
    have hgrow : S <+: S ++ [t] := List.prefix_append _ _
    -- The array is an old one, the new one, or none at all.
    rcases Nat.lt_trichotomy other.id S.length with hlt | heq | hgt
    · rw [List.getElem?_append_left hlt] at hu
      have hitems : (m.alloc vs.toArray).2.items other = m.items other := by
        simp [Heap.alloc, Heap.items, Array.getD_eq_getD_getElem?, Array.getElem?_push, h.size,
          Nat.ne_of_lt hlt]
      rw [hitems] at hv
      exact (h.items other u hu v hv).mono hgrow
    · have hitems : (m.alloc vs.toArray).2.items other = vs.toArray := by
        rw [Heap.alloc, Heap.items, Array.getD_eq_getD_getElem?, heq, ← h.size,
          Array.getElem?_push_size]
        rfl
      rw [heq] at hu
      obtain rfl : t = u := by simpa using hu
      rw [hitems] at hv
      exact (hvs v (by simpa using hv)).mono hgrow
    · have hnone : (S ++ [t])[other.id]? = none :=
        List.getElem?_eq_none (by simp; omega)
      simp [hnone] at hu

/-- Replacing an element by a value of the element type. -/
theorem Heap.Typed.store {S : List Ty} {m : Heap} (h : m.Typed S) {a : Handle} {t : Ty}
    (ha : S[a.id]? = some t) {v : Value} (hv : v.HasTy S t) (i : Nat) :
    (m.store a i v).Typed S where
  size := by simp [Heap.store, h.size]
  items := by
    intro other u hu w hw
    by_cases heq : a.id = other.id
    · have hitems : (m.store a i v).items other = (m.items other).setIfInBounds i v := by
        simp only [Heap.store, Heap.items, Array.getD_eq_getD_getElem?, Array.getElem?_modify, heq,
          if_true]
        cases m.arrays[other.id]? <;> simp
      rw [heq] at ha
      obtain rfl : t = u := Option.some.inj (ha.symm.trans hu)
      rw [hitems, Array.toList_setIfInBounds] at hw
      rcases List.mem_or_eq_of_mem_set hw with hw | rfl
      · exact h.items other t hu w hw
      · exact hv
    · have hitems : (m.store a i v).items other = m.items other := by
        simp [Heap.store, Heap.items, Array.getD_eq_getD_getElem?, Array.getElem?_modify, heq]
      rw [hitems] at hw
      exact h.items other u hu w hw

/-! ## Frames and scopes -/

/-- A frame of values has a value of the right type for every name of a frame of types. -/
def Frame.Fits (S : List Ty) (F : Frame Ty) (G : Frame Value) : Prop :=
  ∀ (x : String) (t : Ty), F.get? x = some t → ∃ v, G.get? x = some v ∧ v.HasTy S t

theorem Frame.Fits.mono {S S' : List Ty} (hS : S <+: S') {F : Frame Ty} {G : Frame Value}
    (h : F.Fits S G) : F.Fits S' G := by
  intro x t hx
  obtain ⟨v, hv, ht⟩ := h x t hx
  exact ⟨v, hv, ht.mono hS⟩

theorem Frame.has_declare {α : Type} (F : Frame α) (x y : String) (a : α) :
    (F.declare x a).has y = (decide (x = y) || F.has y) := by
  by_cases h : x = y <;> simp [Frame.has, Frame.get?_declare, h]

theorem Frame.Fits.declare {S : List Ty} {F : Frame Ty} {G : Frame Value} (h : F.Fits S G)
    {v : Value} {t : Ty} (hv : v.HasTy S t) (x : String) :
    Frame.Fits S (F.declare x t) (G.declare x v) := by
  intro y u hy
  rw [Frame.get?_declare] at hy ⊢
  by_cases hxy : x = y
  · rw [if_pos hxy] at hy ⊢
    cases hy
    exact ⟨v, rfl, hv⟩
  · rw [if_neg hxy] at hy ⊢
    exact h y u hy

/-- Frame by frame, variables hold values of their types.  A frame of values may hold further names,
those that its block is going to declare; none of them is visible from outside of the block. -/
inductive Scope.Fits (S : List Ty) : List (List String) → Scope Ty → Scope Value → Prop
  | nil : Fits S [] [] []
  | cons {X : List String} {Xs : List (List String)} {F : Frame Ty} {Δ : Scope Ty}
      {G : Frame Value} {sc : Scope Value} :
      F.Fits S G → (∀ y, G.has y = true → F.has y = false → y ∈ X) →
      (∀ y ∈ X, Δ.get? y = none) → Fits S Xs Δ sc → Fits S (X :: Xs) (F :: Δ) (G :: sc)

namespace Scope.Fits

variable {S S' : List Ty} {Xs : List (List String)} {Δ : Scope Ty} {sc : Scope Value}

theorem mono (hS : S <+: S') (h : Fits S Xs Δ sc) : Fits S' Xs Δ sc := by
  induction h with
  | nil => exact .nil
  | cons hframe hextra hnew _ ih => exact .cons (hframe.mono hS) hextra hnew ih

/-- Each frame holds values of the right types. -/
theorem forall₂ (h : Fits S Xs Δ sc) : List.Forall₂ (Frame.Fits S) Δ sc := by
  induction h with
  | nil => exact .nil
  | cons hframe _ _ _ ih => exact .cons hframe ih

/-- A further name of a frame would hide a variable from outside, but no such name is visible there. -/
theorem has_eq_false {F : Frame Ty} {G : Frame Value} {X : List String}
    (hextra : ∀ y, G.has y = true → F.has y = false → y ∈ X) (hnew : ∀ y ∈ X, Δ.get? y = none)
    {x : String} {t : Ty} (hF : F.get? x = none) (hΔ : Δ.get? x = some t) : G.has x = false := by
  refine Bool.eq_false_iff.2 fun hhas => ?_
  have hmem := hextra x hhas (by simp [Frame.has, hF])
  rw [hnew x hmem] at hΔ
  cases hΔ

/-- A variable that is visible to the checker holds a value of its type. -/
theorem get? (h : Fits S Xs Δ sc) {x : String} {t : Ty} (hx : Δ.get? x = some t) :
    ∃ v, sc.get? x = some v ∧ v.HasTy S t := by
  induction h with
  | nil => cases hx
  | @cons X Xs F Δ G sc hframe hextra hnew _ ih =>
    cases hF : F.get? x with
    | some u =>
      obtain rfl : u = t := by simpa [Scope.get?, hF] using hx
      obtain ⟨v, hv, ht⟩ := hframe x u hF
      exact ⟨v, by simp [Scope.get?, hv], ht⟩
    | none =>
      have hΔ : Scope.get? Δ x = some t := by simpa [Scope.get?, hF] using hx
      have hG : G.get? x = none := by
        simpa [Frame.has] using has_eq_false hextra hnew hF hΔ
      obtain ⟨v, hv, ht⟩ := ih hΔ
      exact ⟨v, by simpa [Scope.get?, hG] using hv, ht⟩

/-- A declaration of a variable with a value of its type. -/
theorem declare {F : Frame Ty} (h : Fits S Xs (F :: Δ) sc) {v : Value} {t : Ty}
    (hv : v.HasTy S t) (x : String) :
    Fits S Xs (Scope.declare (F :: Δ) x t) (sc.declare x v) := by
  cases h with
  | @cons X Xs _ _ G sc hframe hextra hnew hrest =>
    refine .cons (hframe.declare hv x) ?_ hnew hrest
    intro y hG hF
    rw [Frame.has_declare, Bool.or_eq_false_iff] at hF
    rw [Frame.has_declare, hF.1, Bool.false_or] at hG
    exact hextra y hG hF.2

/-- An assignment of a value of the type of a variable. -/
theorem set? (h : Fits S Xs Δ sc) {x : String} {t : Ty} (hx : Δ.get? x = some t) {v : Value}
    (hv : v.HasTy S t) : ∃ sc', sc.set? x v = some sc' ∧ Fits S Xs Δ sc' := by
  induction h with
  | nil => cases hx
  | @cons X Xs F Δ G sc hframe hextra hnew hrest ih =>
    cases hF : F.get? x with
    | some u =>
      obtain rfl : u = t := by simpa [Scope.get?, hF] using hx
      obtain ⟨w, hw, -⟩ := hframe x u hF
      refine ⟨G.declare x v :: sc, by simp [Scope.set?, Frame.has, hw], ?_⟩
      refine .cons ?_ ?_ hnew hrest
      · intro y t' hy
        rw [Frame.get?_declare]
        by_cases hxy : x = y
        · subst hxy
          rw [if_pos rfl]
          obtain rfl : u = t' := Option.some.inj (hF.symm.trans hy)
          exact ⟨v, rfl, hv⟩
        · rw [if_neg hxy]
          exact hframe y t' hy
      · intro y hG hF'
        have hxy : x ≠ y := by
          rintro rfl
          simp [Frame.has, hF] at hF'
        rw [Frame.has_declare] at hG
        exact hextra y (by simpa [hxy] using hG) hF'
    | none =>
      have hΔ : Scope.get? Δ x = some t := by simpa [Scope.get?, hF] using hx
      have hG : G.has x = false := has_eq_false hextra hnew hF hΔ
      obtain ⟨sc', hsc', hfits⟩ := ih hΔ
      exact ⟨G :: sc', by simp [Scope.set?, hG, hsc'], .cons hframe hextra hnew hfits⟩

/-- A new block declares nothing. -/
theorem push (h : Fits S Xs Δ sc) : Fits S ([] :: Xs) Δ.push sc.push := by
  refine .cons ?_ ?_ ?_ h
  · intro x t hx
    cases hx
  · intro y hG
    simp [Frame.has, Frame.get?] at hG
  · intro y hy
    cases hy

/-- What is left of a block is what was there before. -/
theorem pop {X : List String} {F F' : Frame Ty} (h : Fits S (X :: Xs) (F :: F' :: Δ) sc) :
    Fits S Xs (F' :: Δ) sc.pop := by
  cases h with
  | cons _ _ _ hrest =>
    cases hrest with
    | cons hframe hextra hnew hrest => exact .cons hframe hextra hnew hrest

/-- Variables of the innermost frame may be forgotten if they are among its further names. -/
theorem forget {X : List String} {F F' : Frame Ty} (h : Fits S (X :: Xs) (F' :: Δ) sc)
    (hget : ∀ x t, F.get? x = some t → F'.get? x = some t)
    (hhas : ∀ y, F'.has y = true → F.has y = true ∨ y ∈ X) : Fits S (X :: Xs) (F :: Δ) sc := by
  cases h with
  | cons hframe hextra hnew hrest =>
    refine .cons (fun x t hx => hframe x t (hget x t hx)) ?_ hnew hrest
    intro y hG hF
    cases hF' : F'.has y with
    | false => exact hextra y hG hF'
    | true =>
      rcases hhas y hF' with hy | hy
      · simp [hF] at hy
      · exact hy

/-- The names that the next block is going to declare. -/
theorem reserve {F : Frame Ty} {G : Frame Value} (h : Fits S ([] :: Xs) (F :: Δ) (G :: sc))
    {X : List String} (hX : ∀ y ∈ X, Δ.get? y = none) : Fits S (X :: Xs) (F :: Δ) (G :: sc) := by
  cases h with
  | cons hframe hextra _ hrest =>
    exact .cons hframe (fun y hG hF => absurd (hextra y hG hF) List.not_mem_nil) hX hrest

end Scope.Fits

/-! ## States -/

/-- The arrays and the variables of a state have their types. -/
structure State.Fits (S : List Ty) (Xs : List (List String)) (Δ : Scope Ty) (s : State) : Prop where
  /-- The arrays have the element types in `S`. -/
  heap : s.heap.Typed S
  /-- The variables have the types in `Δ`. -/
  scope : Scope.Fits S Xs Δ s.scope

end Scriptlet
