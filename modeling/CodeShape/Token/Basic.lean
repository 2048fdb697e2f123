import CodeShape.Node.Operator
import CodeShape.Number.Basic
import CodeShape.Text.Position

/-! The words that a program is made of. -/
namespace CodeShape

/-- Operators and delimiters. -/
inductive Punct where
  | assign (op : AssignOp)
  | binary (op : BinaryOp)
  | logical (op : LogicalOp)
  | update (op : UpdateOp)
  | not | bitNot
  | openBrace | closeBrace | openParen | closeParen | openBracket | closeBracket
  | semicolon | comma | colon | question | dot | ellipsis | arrow
deriving DecidableEq, Repr

namespace Punct

def text : Punct → String
  | assign op => op.text
  | binary op => op.text
  | logical op => op.text
  | update op => op.text
  | not => "!" | bitNot => "~"
  | openBrace => "\x7b" | closeBrace => "\x7d"
  | openParen => "(" | closeParen => ")"
  | openBracket => "[" | closeBracket => "]"
  | semicolon => ";" | comma => "," | colon => ":" | question => "?"
  | dot => "." | ellipsis => "..." | arrow => "=>"

/-- Every sign once, longer ones first, so that the first one that fits is the longest. The two
operators that are words are not among them. -/
def all : List Punct :=
  [.assign .shiftRightZero,
   .ellipsis, .binary .strictEq, .binary .strictNotEq, .assign .exp, .assign .shiftLeft,
   .assign .shiftRight, .binary .shiftRightZero,
   .arrow, .binary .eq, .binary .notEq, .binary .le, .binary .ge,
   .logical .and, .logical .or, .logical .nullish, .update .increment, .update .decrement,
   .assign .add, .assign .sub, .assign .mul, .assign .div, .assign .rem, .assign .bitAnd,
   .assign .bitOr, .assign .bitXor, .binary .exp, .binary .shiftLeft, .binary .shiftRight,
   .openBrace, .closeBrace, .openParen, .closeParen, .openBracket, .closeBracket,
   .semicolon, .comma, .binary .lt, .binary .gt, .binary .add, .binary .sub, .binary .mul,
   .binary .div, .binary .rem, .binary .bitAnd, .binary .bitOr, .binary .bitXor,
   .not, .bitNot, .question, .colon, .assign .plain, .dot]

def ofText? (cs : List Char) : Option Punct := all.find? fun p => p.text.toList.isPrefixOf cs

end Punct

/-- A word with its place, and whether a line ends between it and the word before. -/
structure Located (α : Type) where
  word : α
  span : Text.Span
  afterLineEnd : Bool
deriving Repr

/-- Words up to an end: that of the text, or the brace that closes a part of a template. -/
structure Words (α : Type) where
  words : List (Located α)
  stop : Text.Span
deriving Repr

/-- A word of a program. -/
inductive Lexeme where
  /-- An identifier or a keyword. -/
  | name (text : String)
  | number (value : Number) (raw : String)
  | string (value raw : String)
  /-- The texts of a template and, between each two, the words of an expression. -/
  | template (quasis : List String) (parts : List (Words Lexeme))
  | punct (sign : Punct)
deriving Repr

/-- A word of a program with its place. -/
abbrev Token := Located Lexeme

/-- The words of a program or of a part of a template. -/
abbrev TokenStream := Words Lexeme

namespace Lexeme

/-- The word as messages show it: templates are shown without their expressions. -/
def render : Lexeme → String
  | name text => text
  | number _ raw => raw
  | string _ raw => raw
  | template quasis _ => "\x60" ++ "$\x7b...\x7d".intercalate quasis ++ "\x60"
  | punct sign => sign.text

end Lexeme

/-- How messages show the end of a token stream. -/
def endOfInput : String := "end of input"

/-- The words that are no identifiers. -/
def keywords : List String :=
  ["break", "case", "catch", "class", "const", "continue", "debugger", "default", "delete", "do",
   "else", "export", "extends", "false", "finally", "for", "function", "if", "import", "in",
   "instanceof", "let", "new", "null", "return", "super", "switch", "this", "throw", "true", "try",
   "typeof", "var", "void", "while", "with", "yield"]

end CodeShape
