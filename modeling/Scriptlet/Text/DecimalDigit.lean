/-!
# Decimal digits

The characters with which the scripts of the world write decimal numbers (general category `Nd` of
Unicode 14).  Each script has its ten digits in a row, so its zero determines them all.
-/

namespace Scriptlet.Text

/-- The code point of the zero of each script, ascending. -/
def decimalZeros : List Nat :=
  [0x30, 0x660, 0x6f0, 0x7c0, 0x966, 0x9e6, 0xa66, 0xae6, 0xb66, 0xbe6, 0xc66, 0xce6, 0xd66, 0xde6,
   0xe50, 0xed0, 0xf20, 0x1040, 0x1090, 0x17e0, 0x1810, 0x1946, 0x19d0, 0x1a80, 0x1a90, 0x1b50,
   0x1bb0, 0x1c40, 0x1c50, 0xa620, 0xa8d0, 0xa900, 0xa9d0, 0xa9f0, 0xaa50, 0xabf0, 0xff10, 0x104a0,
   0x10d30, 0x11066, 0x110f0, 0x11136, 0x111d0, 0x112f0, 0x11450, 0x114d0, 0x11650, 0x116c0,
   0x11730, 0x118e0, 0x11950, 0x11c50, 0x11d50, 0x11da0, 0x16a60, 0x16ac0, 0x16b50, 0x1d7ce,
   0x1d7d8, 0x1d7e2, 0x1d7ec, 0x1d7f6, 0x1e140, 0x1e2f0, 0x1e950, 0x1fbf0]

/-- Whether `c` is a decimal digit of some script. -/
def isDecimalDigit (c : Char) : Bool :=
  decimalZeros.any fun z => z ≤ c.toNat && c.toNat < z + 10

/-- The digits of ASCII are among them. -/
theorem isDecimalDigit_of_isDigit {c : Char} (h : c.isDigit) : isDecimalDigit c := by
  have bounds : 0x30 ≤ c.toNat ∧ c.toNat < 0x30 + 10 := by
    simp only [Char.isDigit, Bool.and_eq_true, decide_eq_true_eq, ge_iff_le, UInt32.le_iff_toNat_le]
      at h
    have lower : 48 ≤ c.toNat := h.1
    have upper : c.toNat ≤ 57 := h.2
    omega
  exact List.any_eq_true.2 ⟨0x30, by decide, by simpa using bounds⟩

end Scriptlet.Text
