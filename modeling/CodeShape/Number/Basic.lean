/-!
The numbers that literals stand for: binary floating-point values of 64 bits, other than the
undefined ones. A number is kept as its bits, so that everything about it can be stated in integers.
-/
namespace CodeShape

namespace Number

/-- The bit that tells a negative number from a positive one. -/
def signBit : UInt64 := 0x8000000000000000

/-- The bits of positive infinity, above those of every finite magnitude. The bits above these
belong to undefined numbers. -/
def infinityBits : Nat := 0x7FF0000000000000

/-- The bits without the sign. They order magnitudes as the numbers do. -/
def magnitudeOf (bits : UInt64) : Nat := (bits &&& (signBit - 1)).toNat

end Number

/-- A floating-point number by its sign bit, eleven exponent bits and 52 fraction bits. It may be
infinite, but not the result of an undefined operation. -/
structure Number where
  bits : UInt64
  defined : Number.magnitudeOf bits ≤ Number.infinityBits
deriving DecidableEq, Repr

namespace Number

/-- Whether the sign bit is set, which it may be on zero too. -/
def isNegative (x : Number) : Bool := x.bits &&& signBit != 0

/-- The number without its sign, as an integer. -/
def magnitude (x : Number) : Nat := magnitudeOf x.bits

def isFinite (x : Number) : Bool := x.magnitude < infinityBits

/-- The number with the given bits, unless they are those of an undefined one. -/
def ofBits? (bits : UInt64) : Option Number :=
  if h : magnitudeOf bits ≤ infinityBits then some ⟨bits, h⟩ else none

/-- Only the bits below the sign count for the magnitude. -/
theorem magnitudeOf_eq_mod (bits : UInt64) : magnitudeOf bits = bits.toNat % signBit.toNat := by
  have hMask : (signBit - 1).toNat = 2 ^ 63 - 1 := by decide
  rw [magnitudeOf, UInt64.toNat_and, hMask, Nat.and_two_pow_sub_one_eq_mod]
  rfl

/-- Setting the sign of a magnitude keeps the magnitude. -/
theorem magnitudeOf_signed_le (negative : Bool) {magnitude : Nat}
    (h : magnitude ≤ infinityBits) :
    magnitudeOf (magnitude.toUInt64 ||| (if negative then signBit else 0)) ≤ infinityBits := by
  have hSign : (if negative then signBit else 0 : UInt64).toNat % 2 ^ 63 = 0 := by
    cases negative <;> decide
  have hSmall : magnitude < 2 ^ 63 := Nat.lt_of_le_of_lt h (by decide)
  have hBits : magnitude.toUInt64.toNat = magnitude :=
    Nat.mod_eq_of_lt (Nat.lt_trans hSmall (by decide))
  have hSignBit : signBit.toNat = 2 ^ 63 := by decide
  rw [magnitudeOf_eq_mod, hSignBit, UInt64.toNat_or, Nat.or_mod_two_pow, hSign, hBits, Nat.or_zero,
    Nat.mod_eq_of_lt hSmall]
  exact h

/-- Turning the sign around keeps the magnitude. -/
theorem magnitudeOf_xor_signBit (bits : UInt64) :
    magnitudeOf (bits ^^^ signBit) = magnitudeOf bits := by
  have hSignBit : signBit.toNat = 2 ^ 63 := by decide
  rw [magnitudeOf_eq_mod, magnitudeOf_eq_mod, hSignBit, UInt64.toNat_xor, Nat.xor_mod_two_pow,
    ← hSignBit, Nat.mod_self, Nat.xor_zero]

/-- The number of the given magnitude and sign. -/
def ofMagnitude (negative : Bool) (magnitude : Nat) (h : magnitude ≤ infinityBits) : Number :=
  ⟨magnitude.toUInt64 ||| (if negative then signBit else 0), magnitudeOf_signed_le negative h⟩

/-- The number with the other sign. Zero has two signs. -/
def neg (x : Number) : Number :=
  ⟨x.bits ^^^ signBit, (magnitudeOf_xor_signBit x.bits).symm ▸ x.defined⟩

/-- The numbers from 0 up in magnitude, and the negative ones below; both zeros are 0. -/
def rank (x : Number) : Int :=
  if x.isNegative then -(x.magnitude : Int) else x.magnitude

/-- Equal as numbers: the two zeros are equal. -/
instance : BEq Number where
  beq x y := x.rank == y.rank

/-- The order of numbers. -/
def lt (x y : Number) : Bool := x.rank < y.rank

/-- A number as floating-point hardware takes it. -/
def toFloat (x : Number) : Float := Float.ofBits x.bits

/-- A number as floating-point hardware gives it, if it is defined. -/
def ofFloat? (x : Float) : Option Number := ofBits? x.toBits

/-- The integer `fraction` and the exponent of two that make up a finite magnitude: a magnitude with
a zero exponent field has no leading one and the least exponent. -/
def significand (x : Number) : Nat × Int :=
  let field : Nat := x.magnitude / Nat.pow 2 52
  let fraction : Nat := x.magnitude % Nat.pow 2 52
  if field = 0 then (fraction, -1074) else (Nat.pow 2 52 + fraction, (field : Int) - 1075)

end Number

end CodeShape
