/-!
Places in a text. Offsets count the bytes of its UTF-8 form; lines and columns are what an editor
shows, so a column counts the clusters of characters that a reader takes for one.
-/
namespace CodeShape.Text

/-- A way to cut texts into clusters. -/
class Segmentation where
  cut : List Char → List (List Char)

/-- What is asked of a segmentation: the clusters are the text in consecutive pieces, none of which
is empty. -/
structure Segmentation.Lawful (segmentation : Segmentation) : Prop where
  flatten_cut : ∀ cs, (segmentation.cut cs).flatten = cs
  ne_nil_of_mem_cut : ∀ cs, ∀ cluster ∈ segmentation.cut cs, cluster ≠ []

def size : List Char → Nat
  | [] => 0
  | c :: cs => c.utf8Size + size cs

/-- A line and a column, both counted from one. -/
structure Position where
  line : Nat
  column : Nat
deriving DecidableEq, Repr

def Position.render (p : Position) : String := toString p.line ++ ":" ++ toString p.column

/-- Whether the cluster ends a line. A carriage return alone does not. -/
def endsLine (cluster : List Char) : Bool := cluster == ['\n'] || cluster == ['\r', '\n']

/-- The place after the cluster, if the cluster is at the given place. -/
def Position.after (p : Position) (cluster : List Char) : Position :=
  if endsLine cluster then ⟨p.line + 1, 1⟩ else ⟨p.line, p.column + 1⟩

/-- The place reached by passing over every cluster that ends at or before the offset. -/
def Position.advance (p : Position) (offset : Nat) : List (List Char) → Position
  | [] => p
  | cluster :: rest =>
    if offset < size cluster then p else (p.after cluster).advance (offset - size cluster) rest

/-- A stretch of text, by the offsets of its two ends. -/
structure Span where
  start : Nat
  stop : Nat
deriving DecidableEq, Repr

/-- The part of the span that lies within a text of the given size. -/
def Span.clamp (s : Span) (bytes : Nat) : Span :=
  let stop := min s.stop bytes
  ⟨min s.start stop, stop⟩

/-- What is left after the given number of bytes, if that is a border between characters. -/
def dropBytes : Nat → List Char → Option (List Char)
  | 0, cs => some cs
  | _ + 1, [] => none
  | n + 1, c :: cs => if c.utf8Size ≤ n + 1 then dropBytes (n + 1 - c.utf8Size) cs else none

/-- The characters of the given number of bytes, if they end at a border between characters. -/
def takeBytes : Nat → List Char → Option (List Char)
  | 0, _ => some []
  | _ + 1, [] => none
  | n + 1, c :: cs =>
    if c.utf8Size ≤ n + 1 then (takeBytes (n + 1 - c.utf8Size) cs).map (c :: ·) else none

/-- The text between the ends of the span, if both are borders between characters. -/
def Span.slice? (s : Span) (text : String) : Option String := do
  let rest ← dropBytes s.start text.toList
  let cs ← takeBytes (s.stop - s.start) rest
  return String.ofList cs

/-- The text between the ends of the span, empty if one of them is inside a character. -/
def Span.slice (s : Span) (text : String) : String := (s.slice? text).getD ""

section Segmentation

variable [Segmentation]

/-- The line and column of a byte offset. An offset inside a cluster belongs to that cluster. -/
def Position.ofOffset (text : String) (offset : Nat) : Position :=
  Position.advance ⟨1, 1⟩ offset (Segmentation.cut text.toList)

/-- The line and column of the first character. -/
def Span.position (s : Span) (text : String) : Position := Position.ofOffset text s.start

/-- A detailed form for logs: the position and the two offsets. -/
def Span.describe (s : Span) (text : String) : String :=
  "SourceRange(" ++ (s.position text).render ++ ", " ++ toString s.start ++ ".." ++
    toString s.stop ++ ")"

end Segmentation

end CodeShape.Text
