/-!
Sets of code points, kept as ascending closed ranges. A character class of the Unicode standard is
one such set; the tables of this library are those of version 17.0.
-/
namespace CodeShape.Text

/-- Closed ranges of code points, ascending and apart. -/
abbrev Ranges := List (Nat × Nat)

/-- Whether the character lies in one of the ranges. -/
def Ranges.holds (ranges : Ranges) (c : Char) : Bool :=
  ranges.any fun range => range.1 ≤ c.toNat && c.toNat ≤ range.2

end CodeShape.Text
