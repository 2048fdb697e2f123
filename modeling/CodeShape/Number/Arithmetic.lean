import CodeShape.Number.Rounding

/-!
Arithmetic on numbers. Sums, products, quotients and powers are those of the hardware; the remainder
is exact, so it is computed in integers. An operation without a defined result has none.
-/
namespace CodeShape.Number

def add (x y : Number) : Option Number := ofFloat? (x.toFloat + y.toFloat)

def sub (x y : Number) : Option Number := ofFloat? (x.toFloat - y.toFloat)

def mul (x y : Number) : Option Number := ofFloat? (x.toFloat * y.toFloat)

/-- The quotient, rounded. A zero divisor gives an infinite number or none. -/
def div (x y : Number) : Option Number := ofFloat? (x.toFloat / y.toFloat)

def pow (x y : Number) : Option Number := ofFloat? (x.toFloat ^ y.toFloat)

/-- What is left of the dividend after taking away the divisor as often as it fits, with the sign of
the dividend. An infinite divisor never fits; an infinite dividend or a zero divisor has no
remainder. -/
def rem (x y : Number) : Option Number :=
  if !x.isFinite || y.magnitude == 0 then none
  else if !y.isFinite then some x
  else
    let (m, p) := x.significand
    let (n, q) := y.significand
    let least := min p q
    let r := (m * Nat.pow 2 (p - least).toNat) % (n * Nat.pow 2 (q - least).toNat)
    some (nearest x.isNegative (r * Nat.pow 2 least.toNat) (Nat.pow 2 (-least).toNat))

end CodeShape.Number
