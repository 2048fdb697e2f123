import CodeShape.Node.Basic

/-!
A uniform view of nodes: a label, which says everything about a node but its children, and the
fields that hold the children. The two together give the node back, so whatever treats all kinds of
node alike is written over labels and fields.
-/
namespace CodeShape

/-- How the elements of a list in a pattern are paired with those of a list in a program. -/
inductive Pairing where
  /-- One by one from the front; further elements of the program are ignored. -/
  | fixed
  /-- In the same order, with any other elements between. -/
  | ordered
  /-- In the same order, also in statement lists below the ones already reached. -/
  | statements
deriving DecidableEq, Repr

/-- A slot of a node for children. -/
inductive Field (α : Type) where
  | one (child : α)
  | opt (child : Option α)
  /-- A statement of its own, such as the body of a loop. -/
  | stmt (child : Option α)
  | seq (pairing : Pairing) (children : List α)
deriving Repr

namespace Field

variable {α β : Type}

def toList : Field α → List α
  | one child => [child]
  | opt child => child.toList
  | stmt child => child.toList
  | seq _ children => children

/-- Replaces every child, with the knowledge that it is one, from left to right. -/
def mapMemM {m : Type → Type} [Monad m] :
    (field : Field α) → ((child : α) → child ∈ field.toList → m β) → m (Field β)
  | one child, f => one <$> f child (by simp [toList])
  | opt none, _ => pure (opt none)
  | opt (some child), f => (fun b => opt (some b)) <$> f child (by simp [toList])
  | stmt none, _ => pure (stmt none)
  | stmt (some child), f => (fun b => stmt (some b)) <$> f child (by simp [toList])
  | seq pairing children, f =>
    seq pairing <$> children.attach.mapM fun ⟨child, h⟩ => f child (by simpa [toList] using h)

def map (f : α → β) : Field α → Field β
  | one child => one (f child)
  | opt child => opt (child.map f)
  | stmt child => stmt (child.map f)
  | seq pairing children => seq pairing (children.map f)

/-- Whether the two slots are of one form and hold equally many children. -/
def fits : Field α → Field β → Bool
  | one _, one _ => true
  | opt a, opt b => a.isSome == b.isSome
  | stmt a, stmt b => a.isSome == b.isSome
  | seq _ as, seq _ bs => as.length == bs.length
  | _, _ => false

/-- Every child with its place among all children of the node, the first of this slot being at
`start`. -/
def number (start : Nat) : Field α → Field (Nat × α)
  | one child => one (start, child)
  | opt child => opt (child.map (start, ·))
  | stmt child => stmt (child.map (start, ·))
  | seq pairing children => seq pairing ((children.zipIdx start).map fun (c, i) => (i, c))

/-- Numbers the children of several slots one after the other. -/
def numberAll (start : Nat) : List (Field α) → List (Field (Nat × α))
  | [] => []
  | field :: rest => field.number start :: numberAll (start + field.toList.length) rest

/-- Replacing children replaces them in the list of children. -/
@[simp]
theorem toList_map (f : α → β) (field : Field α) : (field.map f).toList = field.toList.map f := by
  cases field with
  | one child => rfl
  | opt child => cases child <;> rfl
  | stmt child => cases child <;> rfl
  | seq pairing children => rfl

/-- Numbering keeps the children. -/
@[simp]
theorem map_snd_toList_number (start : Nat) (field : Field α) :
    (field.number start).toList.map Prod.snd = field.toList := by
  cases field with
  | one child => rfl
  | opt child => cases child <;> rfl
  | stmt child => cases child <;> rfl
  | seq pairing children => simp [number, toList, Function.comp_def, List.zipIdx_map_fst]

/-- Numbering keeps the children of several slots. -/
theorem map_snd_numberAll (start : Nat) (fields : List (Field α)) :
    ((numberAll start fields).flatMap toList).map Prod.snd = fields.flatMap toList := by
  induction fields generalizing start with
  | nil => rfl
  | cons field rest ih => simp [numberAll, ih]

/-- A bound on the sizes of the children in the slot. -/
noncomputable def bulk : Field Node → Nat
  | one child => sizeOf child + 1
  | opt child => sizeOf child
  | stmt child => sizeOf child
  | seq _ children => sizeOf children

/-- A child is smaller than the bound of its slot. -/
theorem sizeOf_lt_bulk {field : Field Node} {c : Node} (h : c ∈ field.toList) :
    sizeOf c < field.bulk := by
  cases field with
  | one child =>
    rw [List.mem_singleton.1 h]
    exact Nat.lt_succ_self _
  | opt child =>
    cases Option.mem_toList.1 h
    simp [bulk]
  | stmt child =>
    cases Option.mem_toList.1 h
    simp [bulk]
  | seq pairing children => exact List.sizeOf_lt_of_mem h

end Field

/-- A node without its children: the kind and all attributes. -/
inductive Label where
  | program | block | expr | empty | ifElse | forLoop
  | forEach (overValues : Bool)
  | whileLoop | doWhile | returns | breaks | continues | throws | tryCatch
  | declaration (kind : DeclarationKind)
  | declarator
  | function (form : FunctionForm)
  | classDef (expression : Bool)
  | method (kind : MethodKind) (isStatic : Bool)
  | assign (op : AssignOp)
  | update (op : UpdateOp) (before : Bool)
  | binary (op : BinaryOp)
  | logical (op : LogicalOp)
  | unary (op : UnaryOp)
  | conditional | call | construct
  | member (computed : Bool)
  | sequence | array | object
  | property (kind : PropertyKind) (computed shorthand isMethod : Bool)
  | template (quasis : List String)
  | spread | withDefault
  | literal (value : Literal)
  | ident (name : String)
  | this | hole
  | wildcard (value : Wildcard)
deriving BEq, Repr

namespace Label

/-- The label without the mark of an abbreviated property: `a` and `a: a` have one shape. -/
def unabbreviated : Label → Label
  | property kind computed _ isMethod => property kind computed false isMethod
  | label => label

/-- The name of the kind, as tools that exchange syntax trees call it. -/
def kind : Label → String
  | program => "Program"
  | block => "BlockStatement"
  | expr => "ExpressionStatement"
  | empty => "EmptyStatement"
  | ifElse => "IfStatement"
  | forLoop => "ForStatement"
  | forEach false => "ForInStatement"
  | forEach true => "ForOfStatement"
  | whileLoop => "WhileStatement"
  | doWhile => "DoWhileStatement"
  | returns => "ReturnStatement"
  | breaks => "BreakStatement"
  | continues => "ContinueStatement"
  | throws => "ThrowStatement"
  | tryCatch => "TryStatement"
  | declaration _ => "VariableDeclaration"
  | declarator => "VariableDeclarator"
  | function .declaration => "FunctionDeclaration"
  | function .expression => "FunctionExpression"
  | function .arrow => "ArrowFunctionExpression"
  | classDef false => "ClassDeclaration"
  | classDef true => "ClassExpression"
  | method _ _ => "MethodDefinition"
  | assign _ => "AssignmentExpression"
  | update _ _ => "UpdateExpression"
  | binary _ => "BinaryExpression"
  | logical _ => "LogicalExpression"
  | unary _ => "UnaryExpression"
  | conditional => "ConditionalExpression"
  | call => "CallExpression"
  | construct => "NewExpression"
  | member _ => "MemberExpression"
  | sequence => "SequenceExpression"
  | array => "ArrayExpression"
  | object => "ObjectExpression"
  | property _ _ _ _ => "Property"
  | template _ => "TemplateLiteral"
  | spread => "SpreadElement"
  | withDefault => "AssignmentPattern"
  | literal _ => "Literal"
  | ident _ => "Identifier"
  | this => "ThisExpression"
  | hole => "Hole"
  | wildcard _ => "Placeholder"

/-- The node with this label and these fields. Fields that no node with the label has give the empty
statement. -/
def build : Label → List (Field Node) → Node
  | program, [.seq _ body] => .program body
  | block, [.seq _ body] => .block body
  | expr, [.one e] => .expr e
  | ifElse, [.one test, .stmt (some consequent), .stmt alternate] =>
    .ifElse test consequent alternate
  | forLoop, [.opt init, .opt test, .opt step, .stmt (some body)] =>
    .forLoop init test step body
  | forEach overValues, [.one left, .one right, .stmt (some body)] =>
    .forEach left right body overValues
  | whileLoop, [.one test, .stmt (some body)] => .whileLoop test body
  | doWhile, [.stmt (some body), .one test] => .doWhile body test
  | returns, [.opt argument] => .returns argument
  | breaks, [] => .breaks
  | continues, [] => .continues
  | throws, [.one argument] => .throws argument
  | tryCatch, [.one body, .opt param, .opt handler, .opt finalizer] =>
    .tryCatch body param handler finalizer
  | declaration kind, [.seq _ declarators] => .declaration kind declarators
  | declarator, [.one id, .opt init] => .declarator id init
  | function form, [.opt id, .seq _ params, .one body] => .function form id params body
  | classDef expression, [.opt id, .opt superclass, .seq _ members] =>
    .classDef id superclass members expression
  | method kind isStatic, [.one key, .one value] => .method key value kind isStatic
  | assign op, [.one left, .one right] => .assign op left right
  | update op before, [.one argument] => .update op before argument
  | binary op, [.one left, .one right] => .binary op left right
  | logical op, [.one left, .one right] => .logical op left right
  | unary op, [.one argument] => .unary op argument
  | conditional, [.one test, .one consequent, .one alternate] =>
    .conditional test consequent alternate
  | call, [.one callee, .seq _ arguments] => .call callee arguments
  | construct, [.one callee, .seq _ arguments] => .construct callee arguments
  | member computed, [.one owner, .one key] => .member owner key computed
  | sequence, [.seq _ items] => .sequence items
  | array, [.seq _ elements] => .array elements
  | object, [.seq _ members] => .object members
  | property kind computed shorthand isMethod, [.one key, .one value] =>
    .property key value kind computed shorthand isMethod
  | template quasis, [.seq _ expressions] => .template quasis expressions
  | spread, [.one argument] => .spread argument
  | withDefault, [.one left, .one right] => .withDefault left right
  | literal value, [] => .literal value
  | ident name, [] => .ident name
  | this, [] => .this
  | hole, [] => .hole
  | wildcard value, [] => .wildcard value
  | _, _ => .empty

end Label

namespace Node

/-- Everything about the node but its children. -/
def label : Node → Label
  | program _ => .program
  | block _ => .block
  | expr _ => .expr
  | empty => .empty
  | ifElse _ _ _ => .ifElse
  | forLoop _ _ _ _ => .forLoop
  | forEach _ _ _ overValues => .forEach overValues
  | whileLoop _ _ => .whileLoop
  | doWhile _ _ => .doWhile
  | returns _ => .returns
  | breaks => .breaks
  | continues => .continues
  | throws _ => .throws
  | tryCatch _ _ _ _ => .tryCatch
  | declaration kind _ => .declaration kind
  | declarator _ _ => .declarator
  | function form _ _ _ => .function form
  | classDef _ _ _ expression => .classDef expression
  | method _ _ kind isStatic => .method kind isStatic
  | assign op _ _ => .assign op
  | update op before _ => .update op before
  | binary op _ _ => .binary op
  | logical op _ _ => .logical op
  | unary op _ => .unary op
  | conditional _ _ _ => .conditional
  | call _ _ => .call
  | construct _ _ => .construct
  | member _ _ computed => .member computed
  | sequence _ => .sequence
  | array _ => .array
  | object _ => .object
  | property _ _ kind computed shorthand isMethod => .property kind computed shorthand isMethod
  | template quasis _ => .template quasis
  | spread _ => .spread
  | withDefault _ _ => .withDefault
  | literal value => .literal value
  | ident name => .ident name
  | this => .this
  | hole => .hole
  | wildcard value => .wildcard value

/-- The slots for children, in the order of the text. -/
def fields : Node → List (Field Node)
  | program body | block body => [.seq .statements body]
  | expr e => [.one e]
  | empty | breaks | continues | literal _ | ident _ | this | hole | wildcard _ => []
  | ifElse test consequent alternate => [.one test, .stmt (some consequent), .stmt alternate]
  | forLoop init test step body => [.opt init, .opt test, .opt step, .stmt (some body)]
  | forEach left right body _ => [.one left, .one right, .stmt (some body)]
  | whileLoop test body => [.one test, .stmt (some body)]
  | doWhile body test => [.stmt (some body), .one test]
  | returns argument => [.opt argument]
  | throws argument => [.one argument]
  | tryCatch body param handler finalizer => [.one body, .opt param, .opt handler, .opt finalizer]
  | declaration _ declarators => [.seq .ordered declarators]
  | declarator id init => [.one id, .opt init]
  | function _ id params body => [.opt id, .seq .fixed params, .one body]
  | classDef id superclass members _ => [.opt id, .opt superclass, .seq .ordered members]
  | method key value _ _ => [.one key, .one value]
  | assign _ left right | binary _ left right | logical _ left right | withDefault left right =>
    [.one left, .one right]
  | update _ _ argument | unary _ argument => [.one argument]
  | conditional test consequent alternate => [.one test, .one consequent, .one alternate]
  | call callee arguments | construct callee arguments => [.one callee, .seq .fixed arguments]
  | member owner key _ => [.one owner, .one key]
  | sequence items | array items => [.seq .fixed items]
  | object members => [.seq .ordered members]
  | property key value _ _ _ _ => [.one key, .one value]
  | template _ expressions => [.seq .fixed expressions]
  | spread argument => [.one argument]

/-- The direct children, in the order of the text. -/
def children (n : Node) : List Node := n.fields.flatMap Field.toList

def kind (n : Node) : String := n.label.kind

/-- Whether the nodes are of one kind and agree in all attributes, whatever their children. -/
def sameShape (a b : Node) : Bool := a.label.unabbreviated == b.label.unabbreviated

/-- Label and fields determine the node. -/
theorem build_label_fields (n : Node) : n.label.build n.fields = n := by
  cases n <;> rfl

/-- Children are smaller than the node, so recursion may go down to them. -/
theorem sizeOf_lt_of_mem_children {n c : Node} (h : c ∈ n.children) : sizeOf c < sizeOf n := by
  obtain ⟨field, hf, hc⟩ := List.mem_flatMap.1 h
  have hs := field.sizeOf_lt_bulk hc
  cases n <;> simp only [fields, List.mem_cons, List.not_mem_nil, or_false] at hf <;>
    rcases hf with rfl | rfl | rfl | rfl <;> simp [Field.bulk] at hs ⊢ <;> omega

end Node

end CodeShape
