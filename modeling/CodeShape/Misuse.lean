import CodeShape.Fault
import CodeShape.Node.Basic
import CodeShape.Text.Cluster

/-! What a caller can get wrong. That a pattern is not found is no misuse. -/
namespace CodeShape

/-- A mistake in a text, in a pattern or in the values for a pattern. -/
inductive Misuse where
  /-- A text is no program. -/
  | malformed (text : String) (fault : Fault)
  /-- A name stands for one node in one place and for a run in another. -/
  | mixedExtent (name : String)
  /-- A wildcard for a run stands where there is room for one node. -/
  | globOutsideList (w : Wildcard)
  /-- Two wildcards for runs stand side by side, so what belongs to which is arbitrary. -/
  | globNeighbours (left right : Wildcard)
  /-- A condition reads a variable that the pattern does not have. -/
  | unknownVariable (name : String)
  /-- A wrapped pattern is not a function with a body of statements. -/
  | notWrapper (kind : String)
  /-- A name in a pattern has no value. -/
  | missingValue (name : String)
  /-- A name in a pattern has a list for a value instead of a node, or the other way round. -/
  | wrongExtent (name : String) (wanted : Extent)
  /-- There are fewer values than nameless wildcards, here for the one at the given place. -/
  | missingAnonymous (index : Nat)
deriving Repr

namespace Misuse

def description : Misuse → String
  | malformed _ fault => fault.cause.description
  | mixedExtent _ => "Wildcard used inconsistently with and without glob"
  | globOutsideList _ => "Glob outside a list"
  | globNeighbours _ _ => "Two globs next to each other"
  | unknownVariable _ => "Constraint on an unknown variable"
  | notWrapper _ => "Wrapped pattern is not a function"
  | missingValue _ => "No value for a wildcard"
  | wrongExtent _ _ => "Value doesn't fit the wildcard"
  | missingAnonymous _ => "Too few anonymous values"

def message : Misuse → String
  | malformed _ fault => fault.cause.message
  | mixedExtent name => "$" ++ name ++ " and glob$" ++ name ++ " refer to the same variable"
  | globOutsideList w =>
    w.render ++ " can only stand among statements, arguments, elements or parameters"
  | globNeighbours left right => left.render ++ " and " ++ right.render ++ " are adjacent"
  | unknownVariable name => "$" ++ name ++ " does not appear in the pattern"
  | notWrapper kind => "Expected a single function, found " ++ kind
  | missingValue name => "$" ++ name ++ " is not bound"
  | wrongExtent name .scalar => "$" ++ name ++ " needs a single node, got a list"
  | wrongExtent name .glob => "glob$" ++ name ++ " needs a list of nodes, got a single node"
  | missingAnonymous index => "Anonymous wildcard #" ++ toString (index + 1) ++ " has no value"

/-- The text and the place in it that the mistake is at. -/
def place? : Misuse → Option (String × Text.Span)
  | malformed text fault => some (text, fault.span)
  | _ => none

/-- The mistake in one line. -/
def render (m : Misuse) : String :=
  let place := match m.place? with
    | some (text, span) => " at " ++ (span.position text).render
    | none => ""
  m.description ++ place ++ ": " ++ m.message

end Misuse

end CodeShape
