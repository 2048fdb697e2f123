import CodeShape.Constraint.Basic

/-!
A small language of conditions, for callers that supply them as data. A test asks about the values
by their place in the list; a test of a value that is not there fails.
-/
namespace CodeShape

/-- How two numbers are compared. -/
inductive Comparison where
  | lt | le | gt | ge | eq | ne
deriving DecidableEq, Repr

namespace Comparison

def holds : Comparison → Number → Number → Bool
  | lt, x, y => x.lt y
  | le, x, y => x.lt y || x == y
  | gt, x, y => y.lt x
  | ge, x, y => y.lt x || x == y
  | eq, x, y => x == y
  | ne, x, y => !(x == y)

end Comparison

/-- A condition on a list of values. -/
inductive Test where
  | pass
  | fail
  /-- A single number, compared with a constant. -/
  | number (i : Nat) (comparison : Comparison) (value : Number)
  /-- Two single numbers, compared with each other. -/
  | numbers (i j : Nat) (comparison : Comparison)
  /-- A single identifier of the given name. -/
  | ident (i : Nat) (name : String)
  /-- A single text literal of the given value. -/
  | string (i : Nat) (value : String)
  /-- A single node of the given kind. -/
  | kind (i : Nat) (name : String)
  /-- The number of nodes. -/
  | length (i : Nat) (comparison : Comparison) (value : Number)
  /-- The text of the value. -/
  | text (i : Nat) (value : String)
  /-- Two equal values; a single node equals no list. -/
  | equal (i j : Nat)
  | not (test : Test)
  | any (tests : List Test)
  /-- The first answer that is not a pass. -/
  | all (tests : List Test)
  /-- The reason to give if the test does not pass. In it, a number in braces stands for a value. -/
  | otherwise (test : Test) (message : String)
deriving Repr

namespace Test

/-- A pass if the condition holds. -/
def verdict (b : Bool) : Verdict := if b then .pass else .fail

/-- The text with every occurrence of another, not empty text in it replaced. `skip` characters of
an occurrence are still to be passed over. -/
def replaceFrom (old new : List Char) : (skip : Nat) → List Char → List Char
  | _, [] => []
  | skip + 1, _ :: cs => replaceFrom old new skip cs
  | 0, c :: cs =>
    if old.isPrefixOf (c :: cs) then new ++ replaceFrom old new (old.length - 1) cs
    else c :: replaceFrom old new 0 cs

/-- The message with the values put in, one after the other. -/
def filled (values : List Capture) (message : String) : String :=
  String.ofList <| values.zipIdx.foldl (fun text (value, i) =>
    replaceFrom ('\x7b' :: (Nat.toDigits 10 i ++ ['\x7d'])) value.render.toList 0 text)
    message.toList

def number? (values : List Capture) (i : Nat) : Option Number :=
  (values[i]?.bind Capture.node?).bind Node.number?

mutual

def evaluate (values : List Capture) : Test → Verdict
  | pass => .pass
  | fail => .fail
  | number i comparison value => verdict ((number? values i).any (comparison.holds · value))
  | numbers i j comparison =>
    verdict ((number? values i).any fun x => (number? values j).any (comparison.holds x))
  | ident i name => verdict ((values[i]?.bind Capture.node?).any (·.ident? == some name))
  | string i value => verdict ((values[i]?.bind Capture.node?).any (·.string? == some value))
  | kind i name => verdict ((values[i]?.bind Capture.node?).any (·.kind == name))
  | length i comparison value =>
    verdict (values[i]?.any fun v =>
      comparison.holds (.ofInt v.nodes.length) value)
  | text i value => verdict (values[i]?.any (·.render == value))
  | equal i j => verdict (values[i]?.any fun a => values[j]?.any fun b => a == b)
  | not test => verdict (evaluate values test != .pass)
  | any tests => verdict ((evaluateAll values tests).contains .pass)
  | all tests => ((evaluateAll values tests).find? (· != .pass)).getD .pass
  | otherwise test message =>
    if evaluate values test = .pass then .pass else .failure (filled values message)

def evaluateAll (values : List Capture) : List Test → List Verdict
  | [] => []
  | test :: tests => evaluate values test :: evaluateAll values tests

end

end Test

end CodeShape
