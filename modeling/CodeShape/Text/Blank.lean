import CodeShape.Text.Ranges

/-! White space, and which of it ends a line. -/
namespace CodeShape.Text

/-- The property White_Space. -/
def blankRanges : Ranges :=
  [(0x9, 0xD), (0x20, 0x20), (0x85, 0x85), (0xA0, 0xA0), (0x1680, 0x1680), (0x2000, 0x200A),
   (0x2028, 0x2029), (0x202F, 0x202F), (0x205F, 0x205F), (0x3000, 0x3000)]

/-- White space between tokens. The zero-width space is none. -/
def isBlank (c : Char) : Bool := blankRanges.holds c

/-- The characters after which a statement may end without a semicolon. -/
def isLineEnd (c : Char) : Bool :=
  c == '\n' || c == '\r' || c == '\u2028' || c == '\u2029'

end CodeShape.Text
