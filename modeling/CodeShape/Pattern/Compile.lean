import CodeShape.Constraint.Basic
import CodeShape.Grammar.Statement
import CodeShape.Misuse
import CodeShape.Node.Folding
import CodeShape.Pattern.Wildcard

/-!
Patterns from texts or trees. A pattern is accepted if its wildcards stand where they can be matched
and if every name is used in one way.
-/
namespace CodeShape

/-- The program of a text, or the mistake in it. -/
def Node.ofProgramText (text : String) : Except Misuse Node :=
  (Node.parseProgram text).mapError (.malformed text)

/-- The expression of a text, or the mistake in it. -/
def Node.ofExpressionText (text : String) : Except Misuse Node :=
  (Node.parseExpression text).mapError (.malformed text)

/-- What a pattern is made from. -/
inductive PatternSource where
  /-- Statements. -/
  | text (text : String)
  /-- A function whose body holds the statements. -/
  | wrapped (text : String)
  /-- A tree that is used as it is. -/
  | tree (n : Node)
deriving Repr

/-- A pattern whose wildcards are checked. -/
structure Pattern where
  root : Node
  /-- Every name in the pattern with what it stands for. -/
  vars : List (String × Extent)
deriving Repr

namespace Pattern

def isProgram (p : Pattern) : Bool :=
  match p.root with
  | .program _ => true
  | _ => false

/-- The body of a function that wraps a pattern. An arrow may have an expression for its body. -/
def unwrapped : Node → Except Misuse Node
  | .function _ _ _ (.block body) => .ok (.program body)
  | .function .arrow _ _ body => .ok (.program [.expr body])
  | .function _ _ _ body => .error (.notWrapper body.kind)
  | n => .error (.notWrapper n.kind)

/-- Adds a wildcard to the names found so far. -/
def addWildcard (inList : Bool) (w : Wildcard) (vars : List (String × Extent)) :
    Except Misuse (List (String × Extent)) :=
  if w.extent = .glob && !inList then .error (.globOutsideList w)
  else
    match w.name with
    | none => .ok vars
    | some name =>
      match vars.lookup name with
      | none => .ok (vars ++ [(name, w.extent)])
      | some extent => if extent = w.extent then .ok vars else .error (.mixedExtent name)

/-- The first two neighbours in a list that are both wildcards for runs. -/
def adjacentGlobs? : List Node → Option (Wildcard × Wildcard)
  | a :: b :: rest =>
    match a.glob?, b.glob? with
    | some left, some right => some (left, right)
    | _, _ => adjacentGlobs? (b :: rest)
  | _ => none

/-- Whether a run of nodes has room in the slot. -/
def hasRoom : Field Node → Bool
  | .one _ | .opt _ => false
  | .stmt _ | .seq _ _ => true

/-- Refuses a list with two wildcards for runs side by side. -/
def checkNeighbours : Field Node → Except Misuse Unit
  | .seq _ items =>
    match adjacentGlobs? items with
    | some (left, right) => .error (.globNeighbours left right)
    | none => .ok ()
  | _ => .ok ()

/-- Adds the names in a tree to those found so far. `inList` tells whether a run of nodes has room
where the tree stands. -/
def addNames (inList : Bool) (n : Node) (vars : List (String × Extent)) :
    Except Misuse (List (String × Extent)) :=
  match n with
  | .wildcard w => addWildcard inList w vars
  | n => n.fields.attach.foldlM (fun vars ⟨field, hf⟩ => do
      checkNeighbours field
      field.toList.attach.foldlM (fun vars ⟨c, hc⟩ =>
        have := Node.sizeOf_lt_of_mem_children (List.mem_flatMap.2 ⟨field, hf, hc⟩)
        addNames (hasRoom field) c vars) vars) vars
termination_by sizeOf n

/-- The names in a pattern, if the pattern and the conditions on it are well formed. A wildcard for
a run may be the whole pattern. -/
def validate (root : Node) (constraints : List Constraint) :
    Except Misuse (List (String × Extent)) := do
  let vars ← addNames root.isWildcard root []
  match (constraints.flatMap Constraint.vars).find? fun v => (vars.lookup v).isNone with
  | some name => throw (.unknownVariable name)
  | none => return vars

/-- The tree of a pattern, with constants folded and wildcards marked if it is given as text. -/
def treeOf : PatternSource → Except Misuse Node
  | .text text => do
    let n ← Node.ofProgramText text
    return n.foldConstants.markWildcards
  | .wrapped text => do
    let n ← unwrapped (← Node.ofExpressionText text)
    return n.foldConstants.markWildcards
  | .tree n => .ok n

/-- The pattern, checked together with the conditions on it. -/
def compile (source : PatternSource) (constraints : List Constraint) : Except Misuse Pattern := do
  let root ← treeOf source
  let vars ← validate root constraints
  return ⟨root, vars⟩

end Pattern

end CodeShape
