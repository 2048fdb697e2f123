import CodeShape.Number.Basic

/-!
The number nearest to an exact quotient. The quotient is scaled by a power of two so that its
integer part has 53 binary digits, or as many as the least exponent leaves, and is then rounded to
an integer, a half to the even neighbour.
-/
namespace CodeShape.Number

/-- The quotient as an integer, a half rounded to the even neighbour. -/
def divideToEven (num den : Nat) : Nat :=
  let q := num / den
  let r := num % den
  if den < 2 * r || (2 * r == den && q % 2 == 1) then q + 1 else q

/-- `num / den` divided by a power of two, as a new quotient. -/
def scaled (num den : Nat) (exponent : Int) : Nat × Nat :=
  (num * Nat.pow 2 (-exponent).toNat, den * Nat.pow 2 exponent.toNat)

/-- The largest exponent of two, not below -1074, at which the quotient has no more than 53 binary
digits before the point: estimated from the lengths of the two integers, then corrected. -/
def fittingExponent (num den : Nat) : Int :=
  let estimate := (num.log2 : Int) - den.log2 - 53
  let fits (e : Int) : Bool :=
    let (n, d) := scaled num den e
    n < d * Nat.pow 2 53
  let e := if fits estimate then estimate else if fits (estimate + 1) then estimate + 1
    else estimate + 2
  max e (-1074)

/-- The magnitude nearest to `num / den`. Counting magnitudes from the least exponent up, each
further exponent starts 2^52 higher, so a carry out of the fraction needs no care. -/
def nearestMagnitude (num den : Nat) : Nat :=
  if num = 0 then 0
  else
    let e := fittingExponent num den
    let (n, d) := scaled num den e
    min ((e + 1074).toNat * Nat.pow 2 52 + divideToEven n d) infinityBits

/-- Rounding gives no undefined number. -/
theorem nearestMagnitude_le (num den : Nat) : nearestMagnitude num den ≤ infinityBits := by
  unfold nearestMagnitude
  split
  · exact Nat.zero_le _
  · exact Nat.min_le_right _ _

/-- The number nearest to `num / den` with the given sign; infinity if that is beyond the largest
number by more than half of the last step. -/
def nearest (negative : Bool) (num den : Nat) : Number :=
  ofMagnitude negative (nearestMagnitude num den) (nearestMagnitude_le num den)

def ofInt (n : Int) : Number := nearest (n < 0) n.natAbs 1

def zero (negative : Bool) : Number := ofMagnitude negative 0 (Nat.zero_le _)

def infinity (negative : Bool) : Number := ofMagnitude negative infinityBits (Nat.le_refl _)

/-- The number nearest to `digits · 10 ^ exponent`. Exponents far outside the range of numbers are
not raised to a power. -/
def ofDecimal (negative : Bool) (digits : Nat) (exponent : Int) : Number :=
  if digits = 0 then zero negative
  else
    if 400 < exponent then infinity negative
    else if exponent < -(digits.log2 : Int) - 400 then zero negative
    else nearest negative (digits * Nat.pow 10 exponent.toNat) (Nat.pow 10 (-exponent).toNat)

end CodeShape.Number
