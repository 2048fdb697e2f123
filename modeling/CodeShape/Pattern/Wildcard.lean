import CodeShape.Node.Rebuild

/-!
Wildcards in the text of a pattern. They are written as identifiers: `_` and `$name` for one node,
`glob_` and `glob$name` for a run of nodes.
-/
namespace CodeShape

namespace Wildcard

/-- Whether the text can name a variable: it is not empty and holds no further sign. -/
def isVariable (cs : List Char) : Bool := !cs.isEmpty && !cs.contains '$'

/-- The named wildcard with the given extent. -/
def named? (extent : Extent) (cs : List Char) : Option Wildcard :=
  if isVariable cs then some ⟨some (String.ofList cs), extent⟩ else none

/-- The wildcard that an identifier stands for. -/
def ofName? (name : String) : Option Wildcard :=
  match name.toList with
  | ['_'] => some ⟨none, .scalar⟩
  | ['g', 'l', 'o', 'b', '_'] => some ⟨none, .glob⟩
  | 'g' :: 'l' :: 'o' :: 'b' :: '$' :: rest => named? .glob rest
  | '$' :: rest => named? .scalar rest
  | _ => none

end Wildcard

namespace Node

/-- The wildcard that a node of a pattern's text stands for. A statement that is just a wildcard
stands for a statement. -/
def wildcardFor? : Node → Option Wildcard
  | .ident name | .expr (.ident name) => Wildcard.ofName? name
  | _ => none

/-- The tree with its wildcards marked. -/
def markWildcards (n : Node) : Node :=
  n.rebuild fun s =>
    match s.node.wildcardFor? with
    | some w => .run [.wildcard w]
    | none => .keep

end Node

end CodeShape
