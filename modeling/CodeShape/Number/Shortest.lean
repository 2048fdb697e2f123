import CodeShape.Number.Rounding

/-!
The text of a number: the fewest decimal digits that read back as the same number, written without
an exponent.
-/
namespace CodeShape.Number

/-- A positive decimal `digits · 10 ^ exponent`. -/
structure Decimal where
  digits : Nat
  exponent : Int
deriving DecidableEq, Repr

/-- Whether the decimal is nearest to a number of this magnitude. -/
def Decimal.readsAs (d : Decimal) (magnitude : Nat) : Bool :=
  (ofDecimal false d.digits d.exponent).magnitude == magnitude

/-- The exact value as a quotient of integers. -/
def ratio (x : Number) : Nat × Nat :=
  let (m, q) := x.significand
  (m * Nat.pow 2 q.toNat, Nat.pow 2 (-q).toNat)

/-- The exact value as a decimal: a power of two below one is a power of five over one of ten. -/
def exactDecimal (x : Number) : Decimal :=
  let (m, q) := x.significand
  if 0 ≤ q then ⟨m * Nat.pow 2 q.toNat, 0⟩ else ⟨m * Nat.pow 5 (-q).toNat, q⟩

/-- The number of decimal digits of a positive integer. -/
def decimalLength (n : Nat) : Nat := (Nat.toDigits 10 n).length

/-- How many more times a quotient below one can be multiplied by ten and stay below one, counting
from `zeros` and trying at most `steps` times. -/
def zerosAfterPoint (num den : Nat) : (steps zeros : Nat) → Nat
  | 0, zeros => zeros
  | steps + 1, zeros =>
    if num * Nat.pow 10 (zeros + 1) < den then zerosAfterPoint num den steps (zeros + 1) else zeros

/-- The place of the leading digit of a quotient: the least `k` for which it is below `10 ^ k`. The
lengths of the two integers give the number of zeros after the point up to three. -/
def leadingPlace (num den : Nat) : Int :=
  if den ≤ num then decimalLength (num / den)
  else Int.neg (zerosAfterPoint num den 3 ((den.log2 - num.log2) * 30102 / 100000 - 1))

/-- The nearer of the value's two neighbours among the multiples of `10 ^ exponent` that read back;
the upper one if both do and the value is halfway. -/
def neighbour? (x : Number) (exponent : Int) : Option Decimal :=
  let (num, den) := x.ratio
  let n := num * Nat.pow 10 (-exponent).toNat
  let d := den * Nat.pow 10 exponent.toNat
  let lower : Decimal := ⟨n / d, exponent⟩
  let upper : Decimal := ⟨n / d + 1, exponent⟩
  match lower.readsAs x.magnitude, upper.readsAs x.magnitude with
  | true, true => some (if 2 * (n % d) < d then lower else upper)
  | true, false => some lower
  | false, true => some upper
  | false, false => none

/-- The decimal of the fewest digits that reads back as this number, which is finite and not zero.
Seventeen digits are enough; the exact value stands behind them. -/
def shortestDecimal (x : Number) : Decimal :=
  let (num, den) := x.ratio
  let place := leadingPlace num den
  ((List.range 17).findSome? fun i => x.neighbour? (place - (i + 1 : Nat))).getD x.exactDecimal

/-- A positive decimal without an exponent: zeros fill up to the point on either side. -/
def Decimal.positional (d : Decimal) : List Char :=
  let digits := Nat.toDigits 10 d.digits
  if 0 ≤ d.exponent then digits ++ List.replicate d.exponent.toNat '0'
  else
    let places := (-d.exponent).toNat
    let padded := List.replicate (places + 1 - digits.length) '0' ++ digits
    let whole := padded.take (padded.length - places)
    let fraction := (padded.drop (padded.length - places)).reverse.dropWhile (· == '0')
    if fraction.isEmpty then whole else whole ++ '.' :: fraction.reverse

/-- The text of a finite number. A negative zero keeps its sign. -/
def render (x : Number) : String :=
  let body := if x.magnitude = 0 then ['0'] else x.shortestDecimal.positional
  String.ofList (if x.isNegative then '-' :: body else body)

end CodeShape.Number
