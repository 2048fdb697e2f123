import CodeShape.Node.Walk

/-!
Rebuilding trees. A visitor is asked about every node from the top down and may replace it by a run
of nodes; a run becomes part of the list that the node stood in.
-/
namespace CodeShape

/-- A visitor's answer. -/
inductive Replacement where
  /-- The node stays, and its children are asked about. -/
  | keep
  /-- The node is replaced, and the replacement is not asked about. -/
  | run (nodes : List Node)
deriving Repr

namespace Node

/-- A run of nodes where there is room for one: a single node is itself, any other run becomes a
list of expressions divided by commas. -/
def ofRun : List Node → Node
  | [n] => n
  | nodes => .sequence nodes

/-- The node with each child replaced by another node. -/
def mapChildren (n : Node) (f : (c : Node) → c ∈ n.children → Node) : Node :=
  n.label.build <| n.fields.attach.map fun ⟨field, hf⟩ =>
    Id.run (field.mapMemM fun c hc => pure (f c (List.mem_flatMap.2 ⟨field, hf, hc⟩)))

end Node

namespace Site

variable {m : Type → Type} [Monad m]

-- The measures are numbers and no pairs, so that the functions also run inside of proofs.
mutual

/-- What becomes of the node at a site, as a run. -/
def rebuildM (visit : Site → m Replacement) (s : Site) : m (List Node) := do
  match ← visit s with
  | .run nodes => return nodes
  | .keep => return [← rebuildPartsM visit s.path s.node]
termination_by 3 * sizeOf s.node + 1

/-- What becomes of a part of the node at the path, where there is room for one node. -/
def rebuildOneM (visit : Site → m Replacement) (path : List Nat) (i : Nat) (part : Node) :
    m Node :=
  Node.ofRun <$> rebuildM visit ⟨path ++ [i], part⟩
termination_by 3 * sizeOf part + 2

/-- What becomes of a part that may be missing. -/
def rebuildOptM (visit : Site → m Replacement) (path : List Nat) (i : Nat) :
    Option Node → m (Option Node)
  | none => return none
  | some part => return some (← rebuildOneM visit path i part)
termination_by part => 3 * sizeOf part

/-- What becomes of the parts in a list. The runs that take their places become one list. -/
def rebuildSeqM (visit : Site → m Replacement) (path : List Nat) (i : Nat) :
    List Node → m (List Node)
  | [] => return []
  | part :: parts => do
    let nodes ← rebuildM visit ⟨path ++ [i], part⟩
    return nodes ++ (← rebuildSeqM visit path (i + 1) parts)
termination_by parts => 3 * sizeOf parts

/-- The node at the path with all its parts rebuilt, kind by kind. Parts are visited from left to
right, each with all that is below it before the next, and have numbers only if they are there. -/
def rebuildPartsM (visit : Site → m Replacement) (path : List Nat) : Node → m Node
  | .program body => return .program (← rebuildSeqM visit path 0 body)
  | .block body => return .block (← rebuildSeqM visit path 0 body)
  | .expr e => return .expr (← rebuildOneM visit path 0 e)
  | .throws e => return .throws (← rebuildOneM visit path 0 e)
  | .spread e => return .spread (← rebuildOneM visit path 0 e)
  | .empty => return .empty
  | .breaks => return .breaks
  | .continues => return .continues
  | .literal value => return .literal value
  | .ident name => return .ident name
  | .this => return .this
  | .hole => return .hole
  | .wildcard w => return .wildcard w
  | .ifElse test consequent alternate =>
    return .ifElse (← rebuildOneM visit path 0 test) (← rebuildOneM visit path 1 consequent)
      (← rebuildOptM visit path 2 alternate)
  | .forLoop init test step body =>
    return .forLoop (← rebuildOptM visit path 0 init)
      (← rebuildOptM visit path init.toList.length test)
      (← rebuildOptM visit path (init.toList.length + test.toList.length) step)
      (← rebuildOneM visit path
        (init.toList.length + test.toList.length + step.toList.length) body)
  | .forEach left right body overValues =>
    return .forEach (← rebuildOneM visit path 0 left) (← rebuildOneM visit path 1 right)
      (← rebuildOneM visit path 2 body) overValues
  | .whileLoop test body =>
    return .whileLoop (← rebuildOneM visit path 0 test) (← rebuildOneM visit path 1 body)
  | .doWhile body test =>
    return .doWhile (← rebuildOneM visit path 0 body) (← rebuildOneM visit path 1 test)
  | .returns argument => return .returns (← rebuildOptM visit path 0 argument)
  | .tryCatch body param handler finalizer =>
    return .tryCatch (← rebuildOneM visit path 0 body) (← rebuildOptM visit path 1 param)
      (← rebuildOptM visit path (1 + param.toList.length) handler)
      (← rebuildOptM visit path (1 + param.toList.length + handler.toList.length) finalizer)
  | .declaration kind declarators =>
    return .declaration kind (← rebuildSeqM visit path 0 declarators)
  | .declarator id init =>
    return .declarator (← rebuildOneM visit path 0 id) (← rebuildOptM visit path 1 init)
  | .function form id params body =>
    return .function form (← rebuildOptM visit path 0 id)
      (← rebuildSeqM visit path id.toList.length params)
      (← rebuildOneM visit path (id.toList.length + params.length) body)
  | .classDef id superclass members expression =>
    return .classDef (← rebuildOptM visit path 0 id)
      (← rebuildOptM visit path id.toList.length superclass)
      (← rebuildSeqM visit path (id.toList.length + superclass.toList.length) members) expression
  | .method key value kind isStatic =>
    return .method (← rebuildOneM visit path 0 key) (← rebuildOneM visit path 1 value) kind isStatic
  | .assign op left right =>
    return .assign op (← rebuildOneM visit path 0 left) (← rebuildOneM visit path 1 right)
  | .update op before argument => return .update op before (← rebuildOneM visit path 0 argument)
  | .binary op left right =>
    return .binary op (← rebuildOneM visit path 0 left) (← rebuildOneM visit path 1 right)
  | .logical op left right =>
    return .logical op (← rebuildOneM visit path 0 left) (← rebuildOneM visit path 1 right)
  | .unary op argument => return .unary op (← rebuildOneM visit path 0 argument)
  | .conditional test consequent alternate =>
    return .conditional (← rebuildOneM visit path 0 test) (← rebuildOneM visit path 1 consequent)
      (← rebuildOneM visit path 2 alternate)
  | .call callee arguments =>
    return .call (← rebuildOneM visit path 0 callee) (← rebuildSeqM visit path 1 arguments)
  | .construct callee arguments =>
    return .construct (← rebuildOneM visit path 0 callee) (← rebuildSeqM visit path 1 arguments)
  | .member owner key computed =>
    return .member (← rebuildOneM visit path 0 owner) (← rebuildOneM visit path 1 key) computed
  | .sequence items => return .sequence (← rebuildSeqM visit path 0 items)
  | .array elements => return .array (← rebuildSeqM visit path 0 elements)
  | .object members => return .object (← rebuildSeqM visit path 0 members)
  | .property key value kind computed shorthand isMethod =>
    return .property (← rebuildOneM visit path 0 key) (← rebuildOneM visit path 1 value) kind computed
      shorthand isMethod
  | .template quasis expressions => return .template quasis (← rebuildSeqM visit path 0 expressions)
  | .withDefault left right =>
    return .withDefault (← rebuildOneM visit path 0 left) (← rebuildOneM visit path 1 right)
termination_by n => 3 * sizeOf n

end

end Site

namespace Node

/-- The tree that a visitor makes of a tree. The visitor sees each node with its place. -/
def rebuildM {m : Type → Type} [Monad m] (visit : Site → m Replacement) (n : Node) : m Node :=
  ofRun <$> (Site.root n).rebuildM visit

/-- The tree that a visitor without effects makes of a tree. -/
def rebuild (visit : Site → Replacement) (n : Node) : Node :=
  Id.run (n.rebuildM fun s => pure (visit s))

end Node

end CodeShape
