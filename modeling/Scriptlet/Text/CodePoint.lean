/-!
# Code points

A code point is a position of the code space of texts.  Some positions, the surrogates, stand for
no character; a walk from one character to another passes over them like over any other position.
-/

namespace Scriptlet

/-- A position of the code space. -/
structure CodePoint where
  /-- Its number. -/
  val : Nat
  /-- The code space ends somewhere. -/
  isLt : val < 0x110000
deriving DecidableEq

namespace CodePoint

/-- A character is a number of the code space. -/
theorem toNat_lt (c : Char) : c.toNat < 0x110000 := by
  have valid : c.toNat.isValidChar := c.valid
  simp only [Nat.isValidChar] at valid
  omega

/-- The position of a character. -/
def ofChar (c : Char) : CodePoint := ⟨c.toNat, toNat_lt c⟩

/-- Whether the position stands for no character. -/
def IsSurrogate (p : CodePoint) : Prop := 0xd800 ≤ p.val ∧ p.val < 0xe000

instance (p : CodePoint) : Decidable p.IsSurrogate := inferInstanceAs (Decidable (_ ∧ _))

/-- The character at a position, if it stands for one. -/
def toChar? (p : CodePoint) : Option Char :=
  if h : p.val.isValidChar then some (Char.ofNatAux p.val h) else none

/-- A character is found at its position. -/
theorem toChar?_ofChar (c : Char) : (ofChar c).toChar? = some c := by
  have valid : (ofChar c).val.isValidChar := c.valid
  rw [toChar?, dif_pos valid]
  rfl

/-- A character is found at no other position. -/
theorem eq_ofChar_of_toChar? {p : CodePoint} {c : Char} (h : p.toChar? = some c) :
    p = ofChar c := by
  by_cases valid : p.val.isValidChar
  · rw [toChar?, dif_pos valid] at h
    obtain rfl := Option.some.inj h
    rfl
  · rw [toChar?, dif_neg valid] at h
    cases h

/-- Only the surrogates stand for no character. -/
theorem toChar?_eq_none_iff {p : CodePoint} : p.toChar? = none ↔ p.IsSurrogate := by
  have hvalid : p.val.isValidChar ↔ ¬ p.IsSurrogate := by
    have hlt := p.isLt
    simp only [Nat.isValidChar, IsSurrogate]
    omega
  by_cases valid : p.val.isValidChar
  · rw [toChar?, dif_pos valid]
    exact iff_of_false (Option.some_ne_none _) (hvalid.1 valid)
  · rw [toChar?, dif_neg valid]
    exact iff_of_true rfl (Decidable.of_not_not (mt hvalid.2 valid))

/-- The positions from `lo` to `hi`, both included, in ascending order. -/
def between (lo hi : CodePoint) : List CodePoint :=
  List.ofFn fun k : Fin (hi.val + 1 - lo.val) =>
    ⟨lo.val + k.val, by
      have bound := k.isLt
      have top := hi.isLt
      omega⟩

/-- How many positions there are between two. -/
theorem length_between (lo hi : CodePoint) : (between lo hi).length = hi.val + 1 - lo.val :=
  List.length_ofFn

end CodePoint

end Scriptlet
