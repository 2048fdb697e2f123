import CodeShape.Grammar.Cursor
import CodeShape.Node.Basic

/-!
The grammar of expressions. The rules of a level are written over those of the next deeper level,
which they use only after taking a token; so the recursion of the grammar is one over levels.

`noIn` holds in the head of a `for` loop, where the word `in` ends an expression instead of being an
operator.
-/
namespace CodeShape

open CodeShape.Parser

/-- The rules that other rules come back to. -/
structure Grammar where
  statement : (noIn : Bool) → Parser Node
  assignment : (noIn : Bool) → Parser Node
  /-- An expression of operators of at least the given power. -/
  binary : (noIn : Bool) → (power : Nat) → Parser Node
  unary : Parser Node
  /-- An operand with the calls and member accesses after it. -/
  call : Parser Node
  /-- What follows the word `new`, up to its arguments. -/
  constructed : Parser Node

namespace Grammar

def logicalPower : LogicalOp → Nat
  | .nullish => 1
  | .or => 2
  | .and => 3

/-- The power of other operators between two operands. -/
def binaryPower : BinaryOp → Nat
  | .bitOr => 4
  | .bitXor => 5
  | .bitAnd => 6
  | .eq | .notEq | .strictEq | .strictNotEq => 7
  | .lt | .gt | .le | .ge | .isIn | .instanceOf => 8
  | .shiftLeft | .shiftRight | .shiftRightZero => 9
  | .add | .sub => 10
  | .mul | .div | .rem => 11
  | .exp => 12

/-- An operator between two operands: its power and the node that it makes of them. -/
def operator? (noIn : Bool) : Lexeme → Option (Nat × (Node → Node → Node))
  | .punct (.binary op) => some (binaryPower op, .binary op)
  | .punct (.logical op) => some (logicalPower op, .logical op)
  | .name "instanceof" => some (binaryPower .instanceOf, .binary .instanceOf)
  | .name "in" => if noIn then none else some (binaryPower .isIn, .binary .isIn)
  | _ => none

def unaryOperator? : Lexeme → Option UnaryOp
  | .punct (.binary .sub) => some .neg
  | .punct (.binary .add) => some .plus
  | .punct .not => some .not
  | .punct .bitNot => some .bitNot
  | .name "typeof" => some .typeOf
  | .name "void" => some .void
  | .name "delete" => some .delete
  | _ => none

def assignOperator? : Lexeme → Option AssignOp
  | .punct (.assign op) => some op
  | _ => none

def updateOperator? : Lexeme → Option UpdateOp
  | .punct (.update op) => some op
  | _ => none

/-- What can be assigned to. -/
def isTarget : Node → Bool
  | .ident _ | .member _ _ _ => true
  | _ => false

/-- What would be taken apart by an assignment in the full language. -/
def isDestructuring : Node → Bool
  | .array _ | .object _ => true
  | _ => false

/-- Whether the brackets that open here, `depth` of them being open already, are followed by an
arrow once all are closed. -/
def arrowAfter (depth : Nat) : List Token → Bool
  | [] => false
  | token :: rest =>
    match token.word with
    | .punct .openParen | .punct .openBracket | .punct .openBrace => arrowAfter (depth + 1) rest
    | .punct .closeParen | .punct .closeBracket | .punct .closeBrace =>
      if depth = 1 then
        match rest with
        | ⟨.punct .arrow, _, _⟩ :: _ => true
        | _ => false
      else arrowAfter (depth - 1) rest
    | _ => arrowAfter depth rest

/-- One expression, or several divided by commas. -/
def expressionOf (assignment : Parser Node) : Parser Node := do
  match ← commaSeparated assignment with
  | [e] => return e
  | items => return .sequence items

/-- An element of a list, which may be spread. -/
def spreadable (assignment : Parser Node) : Parser Node := do
  if ← eat .ellipsis then return .spread (← assignment) else assignment

variable (g : Grammar)

def block (noIn : Bool) : Parser Node := do
  expect .openBrace
  return .block (← enclosed .closeBrace do
    if ← atEnd then expected Punct.closeBrace.text else return [← g.statement noIn])

def arguments : Parser (List Node) := do
  expect .openParen
  listed .closeParen (spreadable (g.assignment false))

def parameter : Parser Node := do
  if ← seesAny [.openBracket, .openBrace] then unsupported .destructuring
  else if ← eat .ellipsis then return .spread (.ident (← identifier))
  else
    let name := Node.ident (← identifier)
    if ← eat (.assign .plain) then return .withDefault name (← g.assignment false)
    else return name

def parameters : Parser (List Node) := do
  expect .openParen
  listed .closeParen g.parameter

def functionRest (form : FunctionForm) (id : Option String) : Parser Node := do
  let params ← g.parameters
  let body ← g.block false
  return .function form (id.map .ident) params body

/-- A function with its keyword. Only a declaration needs a name. -/
def function (form : FunctionForm) : Parser Node := do
  unless ← eatName "function" do expected "function"
  if ← sees (.binary .mul) then unsupported .generators
  let named ← seesWord
  let id ← if form = .declaration || named then some <$> identifier else pure none
  g.functionRest form id

/-- The name of a member, and whether it is computed. -/
def memberKey : Parser (Node × Bool) := do
  match ← next? with
  | some (.punct .openBracket) =>
    advance
    let key ← g.assignment false
    expect .closeBracket
    return (key, true)
  | some (.number value raw) =>
    advance
    return (.literal ⟨.number value, raw⟩, false)
  | some (.string value raw) =>
    advance
    return (.literal ⟨.string value, raw⟩, false)
  | some (.name _) => return (.ident (← propertyName), false)
  | _ => expected "a property name"

/-- Whether the next word is the given modifier of a member, and not the member's own name. -/
def seesModifier (word : String) : Parser Bool := do
  let ends ← match ← ahead? 1 with
    | some (.punct p) =>
      pure ([.openParen, .colon, .comma, .closeBrace, .assign .plain, .semicolon].contains p)
    | _ => pure false
  return (← seesName word) && !ends

/-- Takes the next word if it is the given modifier. -/
def eatModifier (word : String) : Parser Bool := do
  if ← seesModifier word then
    advance
    return true
  else return false

/-- The kind of a member, told by the word `get` or `set` in front of its name. -/
def memberKind {κ : Type} (get set other : κ) : Parser κ := do
  if ← eatModifier "get" then return get
  else if ← eatModifier "set" then return set
  else return other

/-- A member of an object literal. -/
def property : Parser Node := do
  if ← eat .ellipsis then return .spread (← g.assignment false)
  let kind : PropertyKind ← memberKind .get .set .init
  let (key, computed) ← g.memberKey
  if ← sees .openParen then
    let value ← g.functionRest .expression none
    return .property key value kind computed false (kind = .init)
  else if kind ≠ .init then expected "a parameter list"
  else if ← eat .colon then
    return .property key (← g.assignment false) kind computed false false
  else if key.ident?.isSome && !computed then
    if ← sees (.assign .plain) then unsupported .destructuring
    return .property key key kind computed true false
  else expected ":"

def object : Parser Node := do
  expect .openBrace
  return .object (← listed .closeBrace g.property)

/-- An array literal. A comma where an element could be leaves one out. -/
def array : Parser Node := do
  expect .openBracket
  return .array (← enclosed .closeBracket do
    if ← eat .comma then return [.hole]
    else
      let element ← spreadable (g.assignment false)
      unless ← sees .closeBracket do expect .comma
      return [element])

def method : Parser Node := do
  let isStatic ← eatModifier "static"
  let kind : MethodKind ← memberKind .get .set .method
  if ← sees (.binary .mul) then unsupported .generators
  let (key, _) ← g.memberKey
  unless ← sees .openParen do unsupported .classFields
  let kind :=
    if key.ident? = some "constructor" && !isStatic && kind = .method then .constructor else kind
  let value ← g.functionRest .expression none
  return .method key value kind isStatic

/-- A class with its keyword. Only a declaration needs a name. -/
def classDef (expression : Bool) : Parser Node := do
  unless ← eatName "class" do expected "class"
  let named := (← seesWord) && !(← seesName "extends")
  let id ←
    if named then some <$> identifier
    else if expression then pure none
    else expected "a class name"
  let superclass ← if ← eatName "extends" then some <$> g.call else pure none
  expect .openBrace
  let members ← enclosed .closeBrace do
    if ← eat .semicolon then return [] else return [← g.method]
  return .classDef (id.map .ident) superclass members expression

/-- A name or a keyword at the start of an operand. -/
def wordOperand (text : String) : Parser Node := do
  match text with
  | "this" =>
    advance
    return .this
  | "true" | "false" =>
    advance
    return .literal ⟨.bool (text == "true"), text⟩
  | "null" =>
    advance
    return .literal ⟨.null, text⟩
  | "function" => g.function .expression
  | "class" => g.classDef true
  | "super" => unsupported .superReferences
  | "import" => unsupported .modules
  | _ => return .ident (← identifier)

/-- An operand without anything after it. -/
def primary : Parser Node := do
  match ← next? with
  | some (.number value raw) =>
    advance
    return .literal ⟨.number value, raw⟩
  | some (.string value raw) =>
    advance
    return .literal ⟨.string value, raw⟩
  | some (.template quasis parts) =>
    advance
    let expressions ← parts.mapM fun part =>
      inside part (expressionOf (g.assignment false)) "the end of the substitution"
    return .template quasis expressions
  | some (.punct .openParen) =>
    advance
    let e ← expressionOf (g.assignment false)
    expect .closeParen
    return e
  | some (.punct .openBracket) => g.array
  | some (.punct .openBrace) => g.object
  | some (.punct (.binary .div)) | some (.punct (.assign .div)) => unsupported .regularExpressions
  | some (.name text) => g.wordOperand text
  | _ => expected "an expression"

def memberAccess (owner : Node) : Parser Node := do
  if ← eat .dot then return .member owner (.ident (← propertyName)) false
  else
    expect .openBracket
    let key ← expressionOf (g.assignment false)
    expect .closeBracket
    return .member owner key true

/-- A `new` expression, or an operand. -/
def constructOrPrimary : Parser Node := do
  if ← eatName "new" then
    let callee ← g.constructed
    let args ← if ← sees .openParen then g.arguments else pure []
    return .construct callee args
  else g.primary

/-- The object that a `new` expression constructs; the first arguments end it. -/
def constructedRule : Parser Node := do
  let start ← g.constructOrPrimary
  grow (fun e => do
    if ← seesAny [.dot, .openBracket] then return some (← g.memberAccess e) else return none) start

/-- An operand with the calls and member accesses after it. -/
def callRule : Parser Node := do
  let start ← g.constructOrPrimary
  grow (fun e => do
    match ← next? with
    | some (.punct .openParen) => return some (.call e (← g.arguments))
    | some (.punct .dot) | some (.punct .openBracket) => return some (← g.memberAccess e)
    | some (.template _ _) => unsupported .taggedTemplates
    | _ => return none) start

/-- An update after its operand, which has to stand on the same line. -/
def updateAfter (e : Node) : Parser Node := do
  match (← next?).bind updateOperator? with
  | none => return e
  | some op =>
    if ← onNewLine then return e
    else if !isTarget e then fail .invalidTarget
    else
      advance
      return .update op false e

/-- An operand with the operators in front of it and an update after it. -/
def unaryRule : Parser Node := do
  let start ← place
  let word ← next?
  if ← seesName "await" then unsupported .async
  match word.bind unaryOperator?, word.bind updateOperator? with
  | some op, _ =>
    advance
    return .unary op (← g.unary)
  | none, some op =>
    advance
    let argument ← g.unary
    if isTarget argument then return .update op true argument
    else throw ⟨.invalidTarget, start⟩
  | none, none => updateAfter (← g.callRule)

/-- Operands with operators of at least the given power between them. Operators of one power group
to the left, except for powers of numbers. -/
def binaryRule (noIn : Bool) (power : Nat) : Parser Node := do
  let first ← g.unaryRule
  grow (fun left => do
    match (← next?).bind (operator? noIn) with
    | none => return none
    | some (p, make) =>
      if p < power then return none
      else
        advance
        let right ← g.binary noIn (if p = binaryPower .exp then p else p + 1)
        return some (make left right)) first

/-- A choice between two expressions, or what it would choose by. -/
def conditional (noIn : Bool) : Parser Node := do
  let test ← g.binaryRule noIn 1
  if ← eat .question then
    let consequent ← g.assignment false
    expect .colon
    let alternate ← g.assignment noIn
    return .conditional test consequent alternate
  else return test

def arrow (noIn : Bool) : Parser Node := do
  let params ← if ← sees .openParen then g.parameters else pure [Node.ident (← identifier)]
  expect .arrow
  let body ← if ← sees .openBrace then g.block noIn else g.assignment false
  return .function .arrow none params body

def seesArrow : Parser Bool := do
  if ← sees .openParen then return arrowAfter 0 (← get).words
  else return (← seesWord) && (← signAhead 1 .arrow)

/-- An assignment, or any expression without commas. -/
def assignmentRule (noIn : Bool) : Parser Node := do
  if ← seesArrow then g.arrow noIn
  else if (← seesName "async") && ((← nameAhead 1 "function") || (← signAhead 1 .openParen)) then
    unsupported .async
  else if ← seesName "yield" then unsupported .generators
  else
    let start ← place
    let left ← g.conditional noIn
    match (← next?).bind assignOperator? with
    | none => return left
    | some op =>
      if isDestructuring left then unsupported .destructuring
      else if !isTarget left then throw ⟨.invalidTarget, start⟩
      else
        advance
        return .assign op left (← g.assignment noIn)

end Grammar

end CodeShape
