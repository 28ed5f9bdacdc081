/-!
# Numbers of 32 bits

Arithmetic on numbers wraps around: a result is replaced by the number between `-2^31` and
`2^31 - 1` that differs from it by a multiple of `2^32`.
-/

namespace Scriptlet.Word

/-- The smallest number, `-2^31`. -/
def least : Int := -2147483648

/-- The largest number, `2^31 - 1`. -/
def greatest : Int := 2147483647

/-- Whether a number needs no wrapping. -/
def InRange (n : Int) : Prop := least ≤ n ∧ n ≤ greatest

instance (n : Int) : Decidable (InRange n) := inferInstanceAs (Decidable (_ ∧ _))

/-- How many numbers there are, `2^32`. -/
def count : Nat := 4294967296

/-- Wraps a number around. -/
def wrap (n : Int) : Int := n.bmod count

/-- Negation. -/
def neg (a : Int) : Int := wrap (-a)

/-- Addition. -/
def add (a b : Int) : Int := wrap (a + b)

/-- Subtraction. -/
def sub (a b : Int) : Int := wrap (a - b)

/-- Multiplication. -/
def mul (a b : Int) : Int := wrap (a * b)

/-- Division, rounded towards zero; there is none by zero. -/
def div? (a b : Int) : Option Int := if b = 0 then none else some (wrap (a.tdiv b))

/-- A wrapped number is in range. -/
theorem inRange_wrap (n : Int) : InRange (wrap n) := by
  have lower := Int.le_bmod (x := n) (m := count) (by decide)
  have upper := Int.bmod_lt (x := n) (m := count) (by decide)
  simp only [InRange, wrap, least, greatest, count] at lower upper ⊢
  omega

/-- A number in range is left alone. -/
theorem wrap_of_inRange {n : Int} (h : InRange n) : wrap n = n := by
  simp only [InRange, least, greatest] at h
  apply Int.bmod_eq_of_le <;> simp only [count] <;> omega

/-! ## Other forms -/

/-- Wrapping as a remainder: the least number is moved to zero, and back again. -/
theorem wrap_eq_emod (n : Int) : wrap n = (n - least) % count + least := by
  unfold wrap Int.bmod least count
  dsimp only
  split <;> omega

/-- The quotient rounded towards zero is that of the absolute values, with the sign put right. -/
theorem tdiv_eq_natAbs (a b : Int) :
    a.tdiv b =
      if (a < 0 ↔ b < 0) then Int.ofNat (a.natAbs / b.natAbs)
      else -Int.ofNat (a.natAbs / b.natAbs) := by
  have hpos : ∀ k : Nat, ¬ Int.ofNat k < 0 := fun k => Int.not_lt.2 (Int.natCast_nonneg k)
  have hneg : ∀ k : Nat, Int.negSucc k < 0 := Int.negSucc_lt_zero
  cases a <;> cases b <;>
    simp only [hpos, hneg, if_true, if_false, iff_self, iff_false, iff_true, not_true] <;> rfl

/-- Division by way of absolute values. -/
theorem div?_eq_natAbs (a b : Int) :
    div? a b =
      if b = 0 then none
      else some (wrap (if (a < 0 ↔ b < 0) then Int.ofNat (a.natAbs / b.natAbs)
        else -Int.ofNat (a.natAbs / b.natAbs))) := by
  rw [div?, tdiv_eq_natAbs]

end Scriptlet.Word
