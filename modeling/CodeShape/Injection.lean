import CodeShape.Pattern.Compile

/-!
Filling a pattern: every wildcard is replaced by a value. Named wildcards take the value of their
name; nameless ones take the nameless values in order.
-/
namespace CodeShape

namespace Pattern

/-- The nameless values that are left, and how many have been taken. -/
structure Supply where
  left : List Capture
  taken : Nat

/-- The value of a wildcard. -/
def valueOf (bindings : Bindings) (w : Wildcard) : StateT Supply (Except Misuse) Capture := do
  match w.name with
  | some name =>
    match bindings.find? name with
    | some value => return value
    | none => throw (.missingValue name)
  | none =>
    let supply ← get
    match supply.left with
    | value :: left =>
      set (⟨left, supply.taken + 1⟩ : Supply)
      return value
    | [] => throw (.missingAnonymous supply.taken)

/-- The nodes that take the place of a wildcard. Only for a named wildcard the value has to be of
the right extent. -/
def replacement (w : Wildcard) (value : Capture) : Except Misuse (List Node) :=
  match w.name, w.extent, value with
  | some name, .scalar, .many _ => .error (.wrongExtent name .scalar)
  | some name, .glob, .one _ => .error (.wrongExtent name .glob)
  | _, _, value => .ok value.nodes

def inject (pattern : Pattern) (bindings : Bindings) : Except Misuse Node := do
  let visit (s : Site) : StateT Supply (Except Misuse) Replacement :=
    match s.node with
    | .wildcard w => do
      let value ← valueOf bindings w
      return .run (← replacement w value)
    | _ => return .keep
  let (filled, _) ← (pattern.root.rebuildM visit).run ⟨bindings.anonymous, 0⟩
  return filled

/-- Compiles a pattern and fills it. -/
def injectInto (source : PatternSource) (bindings : Bindings) : Except Misuse Node := do
  let pattern ← compile source []
  pattern.inject bindings

end Pattern

end CodeShape
