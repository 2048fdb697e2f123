import CodeShape.Number.Numeral

/-!
String literals. A backslash starts an escape: a letter for a control character, a code point in
hexadecimal, the end of a line, which is left out, or any other character, which stands for itself.
-/
namespace CodeShape.Quotation

/-- Why a text does not start with a string literal. -/
inductive Flaw where
  /-- The closing quote is missing. -/
  | unterminated
  /-- A code point is not given as it has to be. -/
  | badEscape
deriving DecidableEq, Repr

/-- The value of hexadecimal digits, of which there has to be one. A plus sign may stand in
front. -/
def hexValue? (cs : List Char) : Option Nat :=
  let digits := match cs with
    | '+' :: rest => rest
    | rest => rest
  if digits.isEmpty then none
  else digits.foldlM (fun n c => (Number.digitValue? 16 c).map (16 * n + ·)) 0

/-- The character of a code point; the replacement character if there is none. -/
def charOf (code : Nat) : Char := if code.isValidChar then Char.ofNat code else '\uFFFD'

/-- The character that the digits stand for. -/
def decodeHex (cs : List Char) : Except Flaw Char :=
  match hexValue? cs with
  | some code => .ok (charOf code)
  | none => .error .badEscape

/-- The character that the next `count` characters stand for, a plus sign counted as one. -/
def fixedHex (count : Nat) (cs : List Char) : Except Flaw Char :=
  if count ≤ cs.length then decodeHex (cs.take count) else .error .badEscape

/-- The characters that an escape stands for, and how many characters it takes after its
backslash. -/
def escape : List Char → Except Flaw (List Char × Nat)
  | [] => .error .unterminated
  | 'n' :: _ => .ok (['\n'], 1)
  | 't' :: _ => .ok (['\t'], 1)
  | 'r' :: _ => .ok (['\r'], 1)
  | 'b' :: _ => .ok (['\x08'], 1)
  | 'f' :: _ => .ok (['\x0c'], 1)
  | 'v' :: _ => .ok (['\x0b'], 1)
  | '0' :: _ => .ok (['\x00'], 1)
  | '\n' :: _ => .ok ([], 1)
  | '\r' :: '\n' :: _ => .ok ([], 2)
  | '\r' :: _ => .ok ([], 1)
  | 'x' :: cs => do
    let c ← fixedHex 2 cs
    return ([c], 3)
  | 'u' :: '\x7b' :: cs => do
    let digits := cs.takeWhile (· != '\x7d')
    if digits.isEmpty || 6 < digits.length then .error .badEscape
    else
      let c ← decodeHex digits
      return ([c], digits.length + 3)
  | 'u' :: cs => do
    let c ← fixedHex 4 cs
    return ([c], 5)
  | c :: _ => .ok ([c], 1)

/-- The value of a literal after its opening quote, and how many characters it takes from there, the
closing quote included. -/
def body (quote : Char) (cs : List Char) : Except Flaw (List Char × Nat) :=
  match cs with
  | [] => .error .unterminated
  | c :: rest =>
    if c == quote then .ok ([], 1)
    else if c == '\n' || c == '\r' then .error .unterminated
    else if c == '\\' then do
      let (value, taken) ← escape rest
      let (values, length) ← body quote (rest.drop taken)
      return (value ++ values, 1 + taken + length)
    else do
      let (values, length) ← body quote rest
      return (c :: values, 1 + length)
termination_by cs.length
decreasing_by all_goals grind

/-- The value of the string literal that the text starts with, and the literal's own length in
characters. The first character of the text is the quote. -/
def read : List Char → Except Flaw (String × Nat)
  | [] => .error .unterminated
  | quote :: cs => do
    let (value, length) ← body quote cs
    return (String.ofList value, 1 + length)

end CodeShape.Quotation
