import CodeShape.Node.Operator
import CodeShape.Number.Rounding
import CodeShape.Text.Quoted

/-!
The syntax tree that programs and patterns share. A pattern is a tree in which wildcards stand for
what may vary.
-/
namespace CodeShape

/-- What a literal stands for. -/
inductive LiteralValue where
  | string (value : String)
  | number (value : Number)
  | bool (value : Bool)
  | null
deriving BEq, DecidableEq, Repr

/-- A value together with the text it was written as. -/
structure Literal where
  value : LiteralValue
  raw : String
deriving DecidableEq, Repr

namespace Literal

/-- Literals are compared by value: the choice of quotes and of notation plays no part. -/
instance : BEq Literal where
  beq a b := a.value == b.value

/-- A text in double quotes. -/
def ofString (s : String) : Literal := ⟨.string s, Text.quotedString s⟩

/-- An integer in decimal. -/
def ofInt (n : Int) : Literal := ⟨.number (.ofInt n), toString n⟩

end Literal

/-- How much a wildcard stands for. -/
inductive Extent where
  /-- Exactly one node. -/
  | scalar
  /-- Any number of neighbours in a list. -/
  | glob
deriving DecidableEq, Repr

/-- A place in a pattern that any node, or any run of nodes, may take. What a named wildcard stands
for has to be the same wherever the name occurs. -/
structure Wildcard where
  name : Option String
  extent : Extent
deriving DecidableEq, Repr

namespace Wildcard

/-- The wildcard as patterns write it. -/
def render : Wildcard → String
  | ⟨none, .scalar⟩ => "_"
  | ⟨some name, .scalar⟩ => "$" ++ name
  | ⟨none, .glob⟩ => "glob_"
  | ⟨some name, .glob⟩ => "glob$" ++ name

end Wildcard

/-- One construct of the language, with its parts. The type does not say which kinds of node may
stand in which place: trees that no text has are trees too. -/
inductive Node where
  | program (body : List Node)
  | block (body : List Node)
  /-- An expression used as a statement. -/
  | expr (expression : Node)
  /-- A semicolon by itself. -/
  | empty
  | ifElse (test consequent : Node) (alternate : Option Node)
  | forLoop (init test step : Option Node) (body : Node)
  /-- A loop over the keys of an object or, if `overValues`, over the values of a collection. -/
  | forEach (left right body : Node) (overValues : Bool)
  | whileLoop (test body : Node)
  | doWhile (body test : Node)
  | returns (argument : Option Node)
  | breaks
  | continues
  | throws (argument : Node)
  | tryCatch (body : Node) (param handler finalizer : Option Node)
  | declaration (kind : DeclarationKind) (declarators : List Node)
  | declarator (id : Node) (init : Option Node)
  /-- The body is a block, or the expression of an arrow. -/
  | function (form : FunctionForm) (id : Option Node) (params : List Node) (body : Node)
  | classDef (id superclass : Option Node) (members : List Node) (expression : Bool)
  | method (key value : Node) (kind : MethodKind) (isStatic : Bool)
  | assign (op : AssignOp) (left right : Node)
  | update (op : UpdateOp) (before : Bool) (argument : Node)
  | binary (op : BinaryOp) (left right : Node)
  | logical (op : LogicalOp) (left right : Node)
  | unary (op : UnaryOp) (argument : Node)
  | conditional (test consequent alternate : Node)
  | call (callee : Node) (arguments : List Node)
  | construct (callee : Node) (arguments : List Node)
  | member (owner key : Node) (computed : Bool)
  /-- Expressions divided by commas. -/
  | sequence (items : List Node)
  | array (elements : List Node)
  | object (members : List Node)
  | property (key value : Node) (kind : PropertyKind) (computed shorthand isMethod : Bool)
  /-- A template has one more piece of text than it has expressions between them. -/
  | template (quasis : List String) (expressions : List Node)
  | spread (argument : Node)
  /-- A parameter with the value it takes if none is given. -/
  | withDefault (left right : Node)
  | literal (value : Literal)
  | ident (name : String)
  | this
  /-- An element left out of an array. -/
  | hole
  | wildcard (value : Wildcard)
deriving Inhabited, Repr

namespace Node

def int (n : Int) : Node := .literal (.ofInt n)

def string (s : String) : Node := .literal (.ofString s)

def ident? : Node → Option String
  | .ident name => some name
  | _ => none

/-- The value, if the node is a numeric literal. -/
def number? : Node → Option Number
  | .literal ⟨.number value, _⟩ => some value
  | _ => none

/-- The value, if the node is a text literal. -/
def string? : Node → Option String
  | .literal ⟨.string value, _⟩ => some value
  | _ => none

/-- The wildcard, if the node is one that stands for a run of nodes. -/
def glob? : Node → Option Wildcard
  | .wildcard ⟨name, .glob⟩ => some ⟨name, .glob⟩
  | _ => none

end Node

end CodeShape
