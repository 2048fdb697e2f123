import CodeShape.Text.Combining
import CodeShape.Text.Unseen

/-!
Quoted text. A character that would not show, or that would end the quotation, is written as an
escape; every other character stands for itself.
-/
namespace CodeShape.Text

/-- The letter that names a character after a backslash. -/
def escapeLetter? (c : Char) : Option Char :=
  if c == '\x00' then some '0'
  else if c == '\t' then some 't'
  else if c == '\r' then some 'r'
  else if c == '\n' then some 'n'
  else if c == '\\' then some '\\'
  else none

/-- An escape that gives the code point in hexadecimal between braces. -/
def numberedEscape (c : Char) : List Char :=
  '\\' :: 'u' :: '\x7b' :: (Nat.toDigits 16 c.toNat ++ ['\x7d'])

/-- One character between the given quotes. Marks are written by number, since they would attach to
what stands before them. -/
def escaped (quote c : Char) : List Char :=
  match escapeLetter? c with
  | some letter => ['\\', letter]
  | none =>
    if c == quote then ['\\', c]
    else if isCombining c || isUnseen c then numberedEscape c
    else [c]

/-- The text between two quotes, escaped where it has to be. -/
def quoted (quote : Char) (cs : List Char) : List Char :=
  quote :: (cs.flatMap (escaped quote) ++ [quote])

def quotedString (s : String) : String := String.ofList (quoted '\x22' s.toList)

def quotedChar (c : Char) : String := String.ofList (quoted '\x27' [c])

end CodeShape.Text
