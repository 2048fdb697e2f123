import CodeShape.Node.Equality

/-!
Different ways of writing the same computation. A rule gives, for a pattern and a candidate, other
forms of the pattern that have the shape of the candidate; the children are then compared under the
same rules.
-/
namespace CodeShape

/-- The families of rules, each on or off. -/
structure Rules where
  /-- Operands of commutative operators may be swapped. -/
  commutative : Bool
  /-- A comparison may be turned around. -/
  converse : Bool
  /-- An operation may be part of an assignment. -/
  compound : Bool
  /-- Adding one may be an update. -/
  increment : Bool
  /-- A variable may be declared first and assigned to in the next statement. -/
  declarationSplit : Bool
deriving DecidableEq, Repr

/-- Every family is on. -/
def Rules.all : Rules := ⟨true, true, true, true, true⟩

namespace Node

/-- The other operand, if the node applies the operator to the target. The target may be the second
operand of a commutative operator. -/
def operandBeside? (target : Node) (op : BinaryOp) : Node → Option Node
  | .binary used left right =>
    if used != op then none
    else if left == target then some right
    else if op.commutative && right == target then some left
    else none
  | _ => none

def isOne (n : Node) : Bool := n.number?.any (· == .ofInt 1)

/-- The forms of an assignment that are assignments by another operator. -/
def reassigned (rules : Rules) (op : AssignOp) (left right : Node) (wanted : AssignOp) :
    List Node :=
  if !rules.compound then []
  else
    match op.binary?, wanted.binary? with
    | some applied, none => [.assign .plain left (.binary applied left right)]
    | none, some applied =>
      (operandBeside? left applied right).toList.map fun operand => .assign wanted left operand
    | _, _ => []

/-- The forms of an update that are assignments. -/
def updateAssigned (rules : Rules) (op : UpdateOp) (argument : Node) (wanted : AssignOp) :
    List Node :=
  if !rules.increment then []
  else if wanted = op.compound then [.assign wanted argument (.int 1)]
  else if wanted = .plain && rules.compound then
    op.compound.binary?.toList.map fun applied =>
      .assign .plain argument (.binary applied argument (.int 1))
  else []

/-- Whether an assignment does what an update does. -/
def isUpdateBy (rules : Rules) (op : AssignOp) (left right : Node) (wanted : UpdateOp) : Bool :=
  (op = wanted.compound && isOne right) ||
    (op = .plain && rules.compound &&
      (wanted.compound.binary?.bind (operandBeside? left · right)).any isOne)

/-- Other forms of the pattern with the shape of the candidate, in the order in which they are
tried. -/
def alternatives (rules : Rules) : (pattern candidate : Node) → List Node
  | .binary op left right, .binary wanted _ _ =>
    (if rules.commutative && op = wanted && op.commutative then [.binary op right left] else []) ++
      (if rules.converse && op.converse? = some wanted then [.binary wanted right left] else [])
  | .logical op left right, .logical wanted _ _ =>
    if rules.commutative && op = wanted && op.commutative then [.logical op right left] else []
  | .assign op left right, .assign wanted _ _ => reassigned rules op left right wanted
  | .update op _ argument, .assign wanted _ _ => updateAssigned rules op argument wanted
  | .assign op left right, .update wanted before _ =>
    if rules.increment && isUpdateBy rules op left right wanted then [.update wanted before left]
    else []
  | _, _ => []

/-- A declaration of one variable with a value, as a declaration without and an assignment. -/
def splitDeclaration? : Node → Option (Node × Node)
  | .declaration kind [.declarator id (some init)] =>
    some (.declaration kind [.declarator id none], .expr (.assign .plain id init))
  | _ => none

/-- A declaration of one variable without a value and an assignment to it, as one declaration. -/
def mergeDeclaration? : (first second : Node) → Option Node
  | .declaration kind [.declarator id none], .expr (.assign .plain left right) =>
    if left == id then some (.declaration kind [.declarator id (some right)]) else none
  | _, _ => none

/-- Whether the trees are equal up to the rules. -/
def equalUnder (rules : Rules) (pattern candidate : Node) : Bool :=
  (pattern :: alternatives rules pattern candidate).any fun form =>
    form.sameShape candidate && form.aligned candidate &&
      (form.children.zip candidate.children).attach.all fun ⟨(x, y), h⟩ =>
        have : sizeOf y < sizeOf candidate := sizeOf_lt_of_mem_children (List.of_mem_zip h).2
        equalUnder rules x y
termination_by sizeOf candidate

/-- Whether the trees may stand for each other. Without rules they have to be equal. -/
def equivalent (rules : Option Rules) (pattern candidate : Node) : Bool :=
  match rules with
  | none => pattern == candidate
  | some rules => equalUnder rules pattern candidate

end Node

end CodeShape
