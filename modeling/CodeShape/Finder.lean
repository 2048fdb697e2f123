import CodeShape.Match.Node
import CodeShape.Pattern.Compile

/-! Looking for a pattern in a program. -/
namespace CodeShape

/-- A program to look in. -/
inductive Source where
  /-- A text, whose constants are folded first. -/
  | text (text : String)
  /-- A tree that is used as it is. -/
  | tree (n : Node)
deriving Repr

namespace Source

/-- The tree of the program. -/
def tree? : Source → Except Misuse Node
  | text t => do
    let n ← Node.ofProgramText t
    return n.foldConstants
  | tree n => .ok n

end Source

/-- The result of looking for a pattern. -/
inductive Outcome where
  | matched (bindings : Bindings)
  /-- The reason is the last one that a condition gave. -/
  | failed (diagnostic : Option String)
deriving Repr

namespace Outcome

/-- The result of a search, and the questions asked on the way. -/
def ofSearch (search : Matching) (fallback : Site) : Outcome × List Inquiry :=
  let (found, asked) := search.first
  match found with
  | some branch => (matched (branch.finish fallback), asked)
  | none => (failed (asked.filterMap Inquiry.reason?).getLast?, asked)

end Outcome

namespace Conditions

variable (conditions : Conditions)

/-- All ways to find a pattern in a program. Statements are looked for in the program's body; any
other pattern is looked for at every node in turn. -/
def searchCode (pattern : Node) (program : Site) : Matching :=
  match pattern with
  | .program ps =>
    let body := match program.node with
      | .program _ | .block _ => program.children
      | _ => [program]
    conditions.body ps body .start
  | p => .firstOf (fun s => conditions.node p s (.rootedAt s)) program.descendants

/-- All ways to match a pattern with a node itself. The statements of the pattern are matched with
the node's own statements, or a single statement with the node. -/
def searchNode (pattern : Node) (candidate : Site) : Matching :=
  match pattern, candidate.node with
  | .program ps, .program _ | .program ps, .block _ =>
    conditions.body ps candidate.children .start
  | .program [], _ => .one (.rootedAt candidate)
  | .program [p], _ => conditions.node p candidate (.rootedAt candidate)
  | .program _, _ => .done
  | p, _ => conditions.node p candidate (.rootedAt candidate)

/-- Looks for a pattern anywhere in a program. -/
def matchCode (source : Source) (pattern : PatternSource) :
    Except Misuse (Outcome × List Inquiry) := do
  let program := Site.root (← source.tree?)
  let pattern ← Pattern.compile pattern conditions.constraints
  return Outcome.ofSearch (conditions.searchCode pattern.root program) program

/-- Matches a pattern with a node, without looking below it for another place to start. -/
def matchNode (n : Node) (pattern : PatternSource) : Except Misuse (Outcome × List Inquiry) := do
  let candidate := Site.root n
  let pattern ← Pattern.compile pattern conditions.constraints
  return Outcome.ofSearch (conditions.searchNode pattern.root candidate) candidate

end Conditions

end CodeShape
