import CodeShape.Node.Rebuild
import CodeShape.Number.Arithmetic
import CodeShape.Number.Shortest

/-!
Constant folding. A sign in front of a number and an operation on two numbers become a number, so
that `-5` and `2 * 3` are matched like other constants. Operations are folded from the top in one
pass: the operands have to be numbers as they are written.
-/
namespace CodeShape

/-- The finite result of an arithmetic operation. -/
def BinaryOp.apply? (op : BinaryOp) (x y : Number) : Option Number :=
  let result? : Option Number := match op with
    | add => x.add y
    | sub => x.sub y
    | mul => x.mul y
    | div => x.div y
    | rem => x.rem y
    | exp => x.pow y
    | _ => none
  result?.filter Number.isFinite

namespace Node

/-- A minus sign applied to an argument. The text of a number loses its minus sign or gets one. -/
def negated : Node → Node
  | .literal ⟨.number value, raw⟩ =>
    let raw := match raw.toList with
      | '-' :: positive => String.ofList positive
      | cs => String.ofList ('-' :: cs)
    .literal ⟨.number value.neg, raw⟩
  | argument => .unary .neg argument

/-- A plus sign applied to an argument. -/
def affirmed : Node → Node
  | .literal ⟨.number value, raw⟩ => .literal ⟨.number value, raw⟩
  | argument => .unary .plus argument

/-- The number that an operation on two numbers gives. -/
def computed? (op : BinaryOp) (left right : Node) : Option Node := do
  let x ← left.number?
  let y ← right.number?
  let value ← op.apply? x y
  return .literal ⟨.number value, value.render⟩

/-- The tree with its constants folded. -/
def foldConstants : Node → Node
  | .unary .neg argument => negated argument.foldConstants
  | .unary .plus argument => affirmed argument.foldConstants
  | .binary op left right =>
    (computed? op left right).getD (.binary op left.foldConstants right.foldConstants)
  | n => n.mapChildren fun c h =>
    have := sizeOf_lt_of_mem_children h
    c.foldConstants
termination_by n => sizeOf n

end Node

end CodeShape
