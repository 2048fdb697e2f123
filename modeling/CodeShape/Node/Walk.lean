import CodeShape.Node.View

/-!
Places in a tree and the orders in which they are visited. A site is a node together with the way to
it from the top, so that equal nodes in different places stay apart.
-/
namespace CodeShape

namespace Node

/-- The number of levels of a tree. -/
def height (n : Node) : Nat :=
  (n.children.attach.map fun ⟨c, h⟩ =>
    have := sizeOf_lt_of_mem_children h
    c.height).foldl max 0 + 1
termination_by sizeOf n

end Node

/-- A node at the end of a path. Each step of the path picks one of the children, counted from
zero. -/
structure Site where
  path : List Nat
  node : Node
deriving Repr

namespace Site

def root (n : Node) : Site := ⟨[], n⟩

def below (s : Site) (child : Nat × Node) : Site := ⟨s.path ++ [child.1], child.2⟩

/-- The slots of the node, holding sites. -/
def fields (s : Site) : List (Field Site) :=
  (Field.numberAll 0 s.node.fields).map (Field.map s.below)

def children (s : Site) : List Site := s.fields.flatMap Field.toList

/-- The sites of the children hold the children. -/
@[simp]
theorem map_node_children (s : Site) : s.children.map node = s.node.children := by
  have h : ∀ fields : List (Field (Nat × Node)),
      ((fields.map (Field.map s.below)).flatMap Field.toList).map node =
        (fields.flatMap Field.toList).map Prod.snd := by
    intro fields
    induction fields with
    | nil => rfl
    | cons field rest ih => simp [ih, below, Function.comp_def]
  rw [children, fields, h, Field.map_snd_numberAll, Node.children]

/-- Children are smaller than the node. -/
theorem sizeOf_lt_of_mem_children {s c : Site} (h : c ∈ s.children) :
    sizeOf c.node < sizeOf s.node :=
  Node.sizeOf_lt_of_mem_children (s.map_node_children ▸ List.mem_map_of_mem h)

/-- The site itself and all sites below it, each followed by what is below it. -/
def descendants (s : Site) : List Site :=
  s :: s.children.attach.flatMap fun ⟨c, h⟩ =>
    have := sizeOf_lt_of_mem_children h
    c.descendants
termination_by sizeOf s.node

/-- The statements that a statement stands for: those of a block, or the statement alone. -/
def statements (s : Site) : List Site :=
  match s.node with
  | .block _ => s.children
  | _ => [s]

/-- The closest statement lists at or below a site, in order. A statement that is no block is a list
of one where a statement list could be. Lists inside the lists found are not among them. -/
def nestedLists (s : Site) : List (List Site) :=
  match s.node with
  | .program _ | .block _ => [s.children]
  | _ => s.fields.attach.flatMap fun ⟨field, hf⟩ =>
    match field with
    | .stmt child => child.toList.map statements
    | .one child =>
      have := sizeOf_lt_of_mem_children (s := s) (c := child)
        (List.mem_flatMap.2 ⟨_, hf, by simp [Field.toList]⟩)
      child.nestedLists
    | .opt none => []
    | .opt (some child) =>
      have := sizeOf_lt_of_mem_children (s := s) (c := child)
        (List.mem_flatMap.2 ⟨_, hf, by simp [Field.toList]⟩)
      child.nestedLists
    | .seq _ children => children.attach.flatMap fun ⟨child, hc⟩ =>
      have := sizeOf_lt_of_mem_children (s := s) (c := child)
        (List.mem_flatMap.2 ⟨_, hf, by simpa [Field.toList] using hc⟩)
      child.nestedLists
termination_by sizeOf s.node

end Site

namespace Node

/-- The node and all nodes below it, each followed by what is below it. -/
def descendants (n : Node) : List Node := (Site.root n).descendants.map Site.node

/-- The node at the end of a path, if the path stays in the tree. -/
def at? (n : Node) : List Nat → Option Node
  | [] => some n
  | i :: path => n.children[i]?.bind (·.at? path)

end Node

end CodeShape
