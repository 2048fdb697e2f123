import CodeShape.Fault
import CodeShape.Text.Blank
import CodeShape.Text.Letter
import CodeShape.Token.Basic
import CodeShape.Token.Quotation

/-!
From text to tokens. At every point the longest token that the text starts with is taken; white
space and comments are passed over. A template is taken apart into its texts and the token streams
of its expressions.
-/
namespace CodeShape

/-- The part of a text that is still to be read, and where in the text it starts. -/
structure Unread where
  offset : Nat
  chars : List Char
deriving DecidableEq, Repr

namespace Unread

def advance (u : Unread) (count : Nat) : Unread :=
  ⟨u.offset + Text.size (u.chars.take count), u.chars.drop count⟩

def span (u : Unread) (count : Nat) : Text.Span :=
  ⟨u.offset, u.offset + Text.size (u.chars.take count)⟩

def text (u : Unread) (count : Nat) : String := String.ofList (u.chars.take count)

def isNameStart (c : Char) : Bool := c == '$' || c == '_' || Text.isLetter c

def isNamePart (c : Char) : Bool := c == '$' || c == '_' || Text.isLetter c || Text.isNumeral c

/-- The number of characters before the end of a comment, if it ends. -/
def commentLength? : List Char → Option Nat
  | [] => none
  | '*' :: '/' :: _ => some 0
  | _ :: cs => (commentLength? cs).map (· + 1)

/-- What a text starts with, between tokens. -/
inductive Gap where
  /-- A token, or the end of the text. -/
  | none
  /-- One white space character or one comment, of `more + 1` characters. -/
  | piece (more : Nat) (lineEnd : Bool)
  /-- A comment that does not end. -/
  | openComment
deriving DecidableEq, Repr

/-- The white space character or comment that the text starts with. A comment to the end of the line
leaves the line end itself. -/
def gap : List Char → Gap
  | '/' :: '/' :: cs => .piece ((cs.takeWhile (· != '\n')).length + 1) false
  | '/' :: '*' :: cs =>
    match commentLength? cs with
    | some length => .piece (length + 3) ((cs.take length).contains '\n')
    | none => .openComment
  | c :: _ => if Text.isBlank c then .piece 0 (Text.isLineEnd c) else .none
  | [] => .none

/-- Passes over white space and comments, and tells whether a line ended there. -/
def skipGaps (u : Unread) (lineEnd : Bool) : Except Fault (Bool × Unread) :=
  match h : gap u.chars with
  | .none => .ok (lineEnd, u)
  | .openComment => .error ⟨.unterminatedComment, u.span u.chars.length⟩
  | .piece more l =>
    have : (u.advance (more + 1)).chars.length < u.chars.length := by
      cases hc : u.chars with
      | nil => simp [hc, gap] at h
      | cons c cs =>
        simp only [Unread.advance, hc, List.drop_succ_cons, List.length_drop, List.length_cons]
        omega
    (u.advance (more + 1)).skipGaps (lineEnd || l)
termination_by u.chars.length

/-- The length of a decimal: digits and underscores, with one point and one exponent among them. -/
def decimalLength (pointSeen exponentSeen : Bool) : List Char → Nat
  | [] => 0
  | c :: cs =>
    if c.isDigit || c == '_' then decimalLength pointSeen exponentSeen cs + 1
    else if c == '.' && !pointSeen && !exponentSeen then decimalLength true exponentSeen cs + 1
    else if (c == 'e' || c == 'E') && !exponentSeen then
      match cs with
      | '+' :: rest | '-' :: rest => decimalLength pointSeen true rest + 2
      | rest => decimalLength pointSeen true rest + 1
    else 0

/-- Whether the text starts like an integer in another base. -/
def hasBase : List Char → Bool
  | '0' :: c :: _ => c == 'x' || c == 'X' || c == 'o' || c == 'O' || c == 'b' || c == 'B'
  | _ => false

/-- The length of the number that the text starts with. -/
def numeralLength (cs : List Char) : Nat :=
  if hasBase cs then ((cs.drop 2).takeWhile fun c => c.isAlphanum || c == '_').length + 2
  else decimalLength false false cs

/-- Whether the text starts with a number: a digit, or a point with a digit after it. -/
def startsNumber : List Char → Bool
  | '.' :: c :: _ => c.isDigit
  | c :: _ => c.isDigit
  | [] => false

/-- A number, which no letter or digit may follow directly. -/
def numeral (u : Unread) : Except Fault (Lexeme × Nat) :=
  let length := numeralLength u.chars
  let followed := (u.chars.drop length).head?.any isNamePart
  match (Number.read? (u.chars.take length)).filter fun _ => !followed with
  | some value => .ok (.number value (u.text length), length)
  | none => .error ⟨.invalidNumber (u.text length), u.span length⟩

/-- A string literal. A missing quote is reported for the whole line, a bad escape at the opening
quote. -/
def quotation (u : Unread) : Except Fault (Lexeme × Nat) :=
  match Quotation.read u.chars with
  | .ok (value, length) => .ok (.string value (u.text length), length)
  | .error .unterminated =>
    .error ⟨.unterminatedString, u.span (u.chars.takeWhile (· != '\n')).length⟩
  | .error .badEscape => .error ⟨.invalidEscape, u.span 1⟩

/-- The token that the text starts with, unless it is a template, and its length. -/
def plain (u : Unread) (c : Char) : Except Fault (Lexeme × Nat) :=
  if isNameStart c then
    let length := (u.chars.takeWhile isNamePart).length
    .ok (.name (u.text length), length)
  else if startsNumber u.chars then u.numeral
  else if c == '\x22' || c == '\x27' then u.quotation
  else
    match Punct.ofText? u.chars with
    | some sign => .ok (.punct sign, sign.text.length)
    | none => .error ⟨.unexpectedChar c, u.span 1⟩

/-- The number of characters of a template up to its end or to the next expression in it. A
backslash takes the next character along. -/
def quasiLength : List Char → Nat
  | [] => 0
  | '\x60' :: _ => 0
  | '$' :: '\x7b' :: _ => 0
  | '\\' :: _ :: cs => quasiLength cs + 2
  | _ :: cs => quasiLength cs + 1

/-- How many braces are open after the token. -/
def braceDepth (depth : Nat) : Lexeme → Nat
  | .punct .openBrace => depth + 1
  | .punct .closeBrace => depth - 1
  | _ => depth

mutual

/-- The tokens up to the end of the text or, inside a template, up to the brace that closes the
expression which starts at `opening`. Every token and every template piece takes at least one
character, so a budget above the number of characters never runs out. -/
def tokens : (budget : Nat) → (opening : Option Nat) → (depth : Nat) → Unread →
    Except Fault (TokenStream × Unread)
  | 0, _, _, u => .error ⟨.unterminatedTemplate, u.span 0⟩
  | budget + 1, opening, depth, u => do
    let (lineEnd, u) ← u.skipGaps false
    match u.chars, opening with
    | [], none => return (⟨[], u.span 0⟩, u)
    | [], some start => throw ⟨.unterminatedTemplate, ⟨start, u.offset⟩⟩
    | c :: _, _ =>
      if opening.isSome && depth == 0 && c == '\x7d' then return (⟨[], u.span 1⟩, u.advance 1)
      else
        let (word, next) ← if c == '\x60' then do
            let (quasis, parts, next) ← pieces budget u.offset (u.advance 1)
            pure (Lexeme.template quasis parts, next)
          else do
            let (word, length) ← u.plain c
            pure (word, u.advance length)
        let (stream, last) ← tokens budget opening (braceDepth depth word) next
        return (⟨⟨word, ⟨u.offset, next.offset⟩, lineEnd⟩ :: stream.words, stream.stop⟩, last)

/-- The texts and expressions of the template that starts at `start`, from the next piece on. -/
def pieces : (budget : Nat) → (start : Nat) → Unread →
    Except Fault (List String × List TokenStream × Unread)
  | 0, _, u => .error ⟨.unterminatedTemplate, u.span 0⟩
  | budget + 1, start, u => do
    let length := quasiLength u.chars
    let quasi := u.text length
    let u := u.advance length
    match u.chars with
    | '\x60' :: _ => return ([quasi], [], u.advance 1)
    | '$' :: '\x7b' :: _ =>
      let inside := u.advance 2
      let (part, u) ← tokens budget (some inside.offset) 0 inside
      let (quasis, parts, u) ← pieces budget start u
      return (quasi :: quasis, part :: parts, u)
    | _ => throw ⟨.unterminatedTemplate, ⟨start, u.offset⟩⟩

end

end Unread

/-- The tokens of a text. -/
def TokenStream.ofText (text : String) : Except Fault TokenStream := do
  let cs := text.toList
  let (stream, _) ← Unread.tokens (cs.length + 1) none 0 ⟨0, cs⟩
  return stream

end CodeShape
