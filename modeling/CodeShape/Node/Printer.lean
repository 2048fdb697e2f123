import CodeShape.Node.Basic

/-!
The text of a tree. Parentheses stand where the grammar needs them and around every operand that is
an operation itself; layout is one statement after the other on a line.

The text is built from `bare` texts, in which a declaration lacks its semicolon. What stands around
a bare text depends on the place: a loop head takes it as it is, all other places add what they
need.
-/
namespace CodeShape.Node

def parenthesised (text : String) : String := "(" ++ text ++ ")"

def braced (text : String) : String := "\x7b" ++ text ++ "\x7d"

/-- A declaration, which ends with a semicolon unless it stands in a loop head. -/
def isDeclaration : Node → Bool
  | declaration _ _ => true
  | _ => false

/-- Expressions divided by commas, which a list would take apart. -/
def isSequence : Node → Bool
  | sequence _ => true
  | _ => false

/-- Operations, which are put in parentheses wherever they are operands. -/
def isOperation : Node → Bool
  | binary _ _ _ | logical _ _ _ | assign _ _ _ | conditional _ _ _ | sequence _ | unary _ _ => true
  | function .arrow _ _ _ => true
  | _ => false

/-- Expressions that would be taken for a declaration or a block at the start of a statement. -/
def opensStatement : Node → Bool
  | function .expression _ _ _ | object _ | classDef _ _ _ _ => true
  | _ => false

/-- Expressions that would be taken for a block, or cut short, as the body of an arrow. -/
def opensBody : Node → Bool
  | object _ | sequence _ => true
  | _ => false

/-- Functions of any form. -/
def isFunction : Node → Bool
  | function _ _ _ _ => true
  | _ => false

/-- Nodes after which a point would not be read as a member access. -/
def needsFence : Node → Bool
  | literal _ | function _ _ _ _ | object _ => true
  | _ => false

/-- Whether the node is an update, whose sign could run together with the one before it. -/
def isUpdate : Node → Bool
  | update _ _ _ => true
  | _ => false

def isWildcard : Node → Bool
  | wildcard _ => true
  | _ => false

/-- Whether the list ends with a left-out element, which needs a comma after it. -/
def endsWithHole (elements : List Node) : Bool :=
  match elements.getLast? with
  | some hole => true
  | _ => false

/-- A node by itself, from its bare text. -/
def whole (n : Node) (text : String) : String := if n.isDeclaration then text ++ ";" else text

def operand (n : Node) (text : String) : String :=
  if n.isOperation then parenthesised text else n.whole text

def item (n : Node) (text : String) : String :=
  if n.isSequence then parenthesised text else n.whole text

/-- A statement. A wildcard that stands for statements ends like one. -/
def statement (n : Node) (text : String) : String :=
  if n.isWildcard then text ++ ";" else n.whole text

/-- The texts of several nodes in one kind of place. -/
def placed (place : Node → String → String) (separator : String) (ns : List Node)
    (texts : List String) : String :=
  separator.intercalate (List.zipWith place ns texts)

/-- The pieces of a template with the expressions between them. -/
def interleaved : List String → List String → String
  | [], _ => ""
  | quasi :: quasis, [] => quasi ++ interleaved quasis []
  | quasi :: quasis, e :: es => quasi ++ "$" ++ braced e ++ interleaved quasis es

def methodWord : MethodKind → String
  | .get => "get "
  | .set => "set "
  | .method | .constructor => ""

def propertyWord : PropertyKind → String
  | .get => "get "
  | .set => "set "
  | .init => ""

mutual

/-- The text of a node, without the semicolon of a declaration. -/
def bare : Node → String
  | program body => placed statement "\n" body (bareAll body)
  | block body =>
    if body.isEmpty then braced ""
    else braced (" " ++ placed statement " " body (bareAll body) ++ " ")
  | expr e =>
    (if e.opensStatement then parenthesised (e.whole e.bare) else e.whole e.bare) ++ ";"
  | empty => ";"
  | ifElse test consequent alternate =>
    "if (" ++ test.whole test.bare ++ ") " ++ consequent.statement consequent.bare ++
      match alternate with
      | none => ""
      | some other => " else " ++ other.statement other.bare
  | forLoop init test step body =>
    "for (" ++ (match init with | none => "" | some n => n.bare) ++ "; " ++
      (match test with | none => "" | some n => n.whole n.bare) ++ "; " ++
      (match step with | none => "" | some n => n.whole n.bare) ++ ") " ++ body.statement body.bare
  | forEach left right body overValues =>
    "for (" ++ left.bare ++ (if overValues then " of " else " in ") ++ right.whole right.bare ++
      ") " ++ body.statement body.bare
  | whileLoop test body =>
    "while (" ++ test.whole test.bare ++ ") " ++ body.statement body.bare
  | doWhile body test =>
    "do " ++ body.statement body.bare ++ " while (" ++ test.whole test.bare ++ ");"
  | returns argument =>
    match argument with
    | none => "return;"
    | some n => "return " ++ n.whole n.bare ++ ";"
  | breaks => "break;"
  | continues => "continue;"
  | throws argument => "throw " ++ argument.whole argument.bare ++ ";"
  | tryCatch body param handler finalizer =>
    "try " ++ body.whole body.bare ++
      (match handler with
      | none => ""
      | some h =>
        " catch " ++
          (match param with | none => "" | some p => parenthesised (p.whole p.bare) ++ " ") ++
          h.whole h.bare) ++
      (match finalizer with | none => "" | some f => " finally " ++ f.whole f.bare)
  | declaration kind declarators =>
    kind.text ++ " " ++ placed item ", " declarators (bareAll declarators)
  | declarator id init =>
    id.whole id.bare ++ (match init with | none => "" | some n => " = " ++ n.item n.bare)
  | function .arrow _ params body =>
    parenthesised (placed item ", " params (bareAll params)) ++ " => " ++
      (if body.opensBody then parenthesised (body.whole body.bare) else body.whole body.bare)
  | function _ id params body =>
    "function " ++ (match id with | none => "" | some n => n.whole n.bare) ++
      parenthesised (placed item ", " params (bareAll params)) ++ " " ++ body.whole body.bare
  | classDef id superclass members _ =>
    "class" ++ (match id with | none => "" | some n => " " ++ n.whole n.bare) ++
      (match superclass with | none => "" | some n => " extends " ++ n.operand n.bare) ++ " " ++
      braced (" " ++ placed whole " " members (bareAll members) ++ " ")
  | method key value kind isStatic =>
    (if isStatic then "static " else "") ++ methodWord kind ++ key.whole key.bare ++
      match value with
      | function _ _ params body =>
        parenthesised (placed item ", " params (bareAll params)) ++ " " ++ body.whole body.bare
      | other => ": " ++ other.whole other.bare
  | assign op left right =>
    left.whole left.bare ++ " " ++ op.text ++ " " ++ right.whole right.bare
  | update op before argument =>
    if before then op.text ++ argument.operand argument.bare
    else argument.operand argument.bare ++ op.text
  | binary op left right =>
    left.operand left.bare ++ " " ++ op.text ++ " " ++ right.operand right.bare
  | logical op left right =>
    left.operand left.bare ++ " " ++ op.text ++ " " ++ right.operand right.bare
  | unary op argument =>
    if op.isWord then op.text ++ " " ++ argument.operand argument.bare
    else if argument.isUpdate then op.text ++ parenthesised (argument.whole argument.bare)
    else op.text ++ argument.operand argument.bare
  | conditional test consequent alternate =>
    test.operand test.bare ++ " ? " ++ consequent.item consequent.bare ++ " : " ++
      alternate.item alternate.bare
  | call callee arguments =>
    (if callee.isFunction then parenthesised (callee.whole callee.bare)
      else callee.operand callee.bare) ++
      parenthesised (placed item ", " arguments (bareAll arguments))
  | construct callee arguments =>
    "new " ++ callee.operand callee.bare ++
      parenthesised (placed item ", " arguments (bareAll arguments))
  | member owner key computed =>
    if computed then owner.operand owner.bare ++ "[" ++ key.whole key.bare ++ "]"
    else
      (if owner.needsFence then parenthesised (owner.whole owner.bare)
        else owner.operand owner.bare) ++ "." ++ key.whole key.bare
  | sequence items => placed whole ", " items (bareAll items)
  | array elements =>
    "[" ++ placed item ", " elements (bareAll elements) ++
      (if endsWithHole elements then "," else "") ++ "]"
  | object members => braced (placed whole ", " members (bareAll members))
  | property key value kind computed shorthand isMethod =>
    let name := if computed then "[" ++ key.whole key.bare ++ "]" else key.whole key.bare
    if kind = .init && shorthand then name
    else if kind = .init && !isMethod then name ++ ": " ++ value.item value.bare
    else
      propertyWord kind ++ name ++
        match value with
        | function _ _ params body =>
          parenthesised (placed item ", " params (bareAll params)) ++ " " ++ body.whole body.bare
        | other => ": " ++ other.whole other.bare
  | template quasis expressions =>
    "\x60" ++ interleaved quasis (List.zipWith whole expressions (bareAll expressions)) ++ "\x60"
  | spread argument => "..." ++ argument.item argument.bare
  | withDefault left right => left.whole left.bare ++ " = " ++ right.item right.bare
  | literal value => value.raw
  | ident name => name
  | this => "this"
  | hole => ""
  | wildcard value => value.render

/-- The bare texts of the nodes of a list. -/
def bareAll : List Node → List String
  | [] => []
  | n :: ns => n.bare :: bareAll ns

end

def render (n : Node) : String := n.whole n.bare

end CodeShape.Node
