import CodeShape.Number.Rounding

/-!
The texts that numbers are read from. Underscores between digits are ignored; a `0x`, `0o` or `0b`
in front announces an integer in base 16, 8 or 2; anything else is a decimal.
-/
namespace CodeShape.Number

/-- The value of a digit below the given base, letters in either case. -/
def digitValue? (base : Nat) (c : Char) : Option Nat :=
  let value? :=
    if '0' ≤ c && c ≤ '9' then some (c.toNat - '0'.toNat)
    else if 'a' ≤ c && c ≤ 'z' then some (c.toNat - 'a'.toNat + 10)
    else if 'A' ≤ c && c ≤ 'Z' then some (c.toNat - 'A'.toNat + 10)
    else none
  value?.filter (· < base)

/-- An integer in the given base. Every further digit is rounded in, so beyond 53 binary digits the
result is not always the nearest number. -/
def readInteger? (base : Nat) (cs : List Char) : Option Number :=
  if cs.isEmpty then none
  else
    let total : Option Float := cs.foldlM (fun total c => do
      let digit ← digitValue? base c
      return total * base.toFloat + digit.toFloat) 0
    total.bind ofFloat?

/-- The integer that a run of decimal digits stands for. -/
def digitsValue (cs : List Char) : Nat := cs.foldl (fun n c => 10 * n + (c.toNat - '0'.toNat)) 0

/-- The exponent part of a decimal: nothing, or a letter `e`, a sign and at least one digit. -/
def readExponent? : List Char → Option Int
  | [] => some 0
  | mark :: cs =>
    if mark != 'e' && mark != 'E' then none
    else
      let (negative, digits) := match cs with
        | '-' :: digits => (true, digits)
        | '+' :: digits => (false, digits)
        | digits => (false, digits)
      if digits.isEmpty || !digits.all Char.isDigit then none
      else
        let value : Int := digitsValue digits
        some (if negative then -value else value)

/-- A decimal without a sign: digits with a point among or beside them, then an exponent. -/
def readUnsigned? (negative : Bool) (cs : List Char) : Option Number := do
  let whole := cs.takeWhile Char.isDigit
  let rest := cs.dropWhile Char.isDigit
  let (fraction, rest) := match rest with
    | '.' :: rest => (rest.takeWhile Char.isDigit, rest.dropWhile Char.isDigit)
    | rest => ([], rest)
  if whole.isEmpty && fraction.isEmpty then none
  else
    let exponent ← readExponent? rest
    return ofDecimal negative (digitsValue (whole ++ fraction)) (exponent - fraction.length)

/-- A decimal with an optional sign. The words for infinity are accepted in any case. -/
def readDecimal? (cs : List Char) : Option Number :=
  let (negative, cs) := match cs with
    | '-' :: cs => (true, cs)
    | '+' :: cs => (false, cs)
    | cs => (false, cs)
  let word := String.ofList (cs.map Char.toLower)
  if word == "inf" || word == "infinity" then some (infinity negative)
  else readUnsigned? negative cs

/-- The number that a text stands for. -/
def read? (text : List Char) : Option Number :=
  match text.filter (· != '_') with
  | '0' :: 'x' :: digits | '0' :: 'X' :: digits => readInteger? 16 digits
  | '0' :: 'o' :: digits | '0' :: 'O' :: digits => readInteger? 8 digits
  | '0' :: 'b' :: digits | '0' :: 'B' :: digits => readInteger? 2 digits
  | digits => readDecimal? digits

end CodeShape.Number
