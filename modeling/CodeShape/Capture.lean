import CodeShape.Node.Equality
import CodeShape.Node.Printer
import CodeShape.Node.Rebuild

/-!
What wildcards stand for. During a search a wildcard is bound to sites of the program; a finished
match holds copies of what was there.
-/
namespace CodeShape

/-- The value of a wildcard. -/
inductive Capture where
  | one (node : Node)
  | many (nodes : List Node)
deriving BEq, Repr

namespace Capture

def node? : Capture → Option Node
  | one n => some n
  | many _ => none

def nodes : Capture → List Node
  | one n => [n]
  | many ns => ns

/-- The text of the value. A list is divided by spaces. -/
def render : Capture → String
  | one n => n.render
  | many ns => "[" ++ " ".intercalate (ns.map Node.render) ++ "]"

end Capture

/-- The place in a program that a wildcard stands for. -/
inductive Binding where
  | one (site : Site)
  | many (sites : List Site)
deriving Repr

namespace Binding

def sites : Binding → List Site
  | one s => [s]
  | many ss => ss

def capture : Binding → Capture
  | one s => .one s.node
  | many ss => .many (ss.map Site.node)

end Binding

/-- The bindings made so far on one way through a search. -/
structure Branch where
  /-- The bindings of nameless wildcards, in the order in which they were made. -/
  anonymous : List Binding
  /-- The bindings of names, in the order in which they were made. -/
  named : List (String × Binding)
  /-- Where the first statement of the pattern was found. -/
  root : Option Site
deriving Repr

namespace Branch

/-- No bindings. -/
def start : Branch := ⟨[], [], none⟩

/-- No bindings, with the root already known. -/
def rootedAt (s : Site) : Branch := ⟨[], [], some s⟩

def find? (b : Branch) (name : String) : Option Binding := b.named.lookup name

/-- Makes the site the root, unless there is one already. -/
def anchor (b : Branch) (s : Option Site) : Branch := { b with root := b.root.or s }

end Branch

/-- What a match found. -/
structure Bindings where
  anonymous : List Capture
  vars : List (String × Capture)
  /-- The node that the first statement of the pattern was matched with. What named wildcards stand
  for is replaced by the wildcards in it. -/
  root : Node
deriving Repr

namespace Bindings

def empty : Bindings := ⟨[], [], .empty⟩

def find? (b : Bindings) (name : String) : Option Capture := b.vars.lookup name

def insert (b : Bindings) (name : String) (value : Capture) : Bindings :=
  { b with vars := b.vars.filter (·.1 != name) ++ [(name, value)] }

def erase (b : Bindings) (name : String) : Bindings :=
  { b with vars := b.vars.filter (·.1 != name) }

end Bindings

/-- What becomes of the sites of a binding when they are erased: the first one is replaced by the
wildcard, the others are left out. -/
def Binding.erasure (name : String) : Binding → List (List Nat × List Node)
  | one s => [(s.path, [.wildcard ⟨some name, .scalar⟩])]
  | many [] => []
  | many (s :: ss) =>
    (s.path, [.wildcard ⟨some name, .glob⟩]) :: ss.map fun s => (s.path, [])

namespace Branch

/-- What becomes of each site that a name is bound to. -/
def erasures (b : Branch) : List (List Nat × List Node) :=
  b.named.flatMap fun (name, binding) => binding.erasure name

/-- The tree at a site with the bound sites in it erased. -/
def erased (b : Branch) (s : Site) : Node :=
  Node.ofRun <| Id.run <| s.rebuildM fun place => pure <|
    match b.erasures.lookup place.path with
    | some nodes => .run nodes
    | none => .keep

/-- The result of a search that ended with these bindings. The fallback is the root if the pattern
had no statement to find. -/
def finish (b : Branch) (fallback : Site) : Bindings where
  anonymous := b.anonymous.map Binding.capture
  vars := b.named.map fun (name, binding) => (name, binding.capture)
  root := b.erased (b.root.getD fallback)

end Branch

end CodeShape
