/-!
Operators and the small attributes that tell nodes of one kind apart, each with the text it is
written as.
-/
namespace CodeShape

/-- Arithmetic, bitwise, equality and relational operators. -/
inductive BinaryOp where
  | add | sub | mul | div | rem | exp
  | shiftLeft | shiftRight | shiftRightZero
  | bitAnd | bitOr | bitXor
  | eq | notEq | strictEq | strictNotEq
  | lt | le | gt | ge
  | isIn | instanceOf
deriving DecidableEq, Repr

namespace BinaryOp

def text : BinaryOp → String
  | add => "+" | sub => "-" | mul => "*" | div => "/" | rem => "%" | exp => "**"
  | shiftLeft => "<<" | shiftRight => ">>" | shiftRightZero => ">>>"
  | bitAnd => "&" | bitOr => "|" | bitXor => "^"
  | eq => "==" | notEq => "!=" | strictEq => "===" | strictNotEq => "!=="
  | lt => "<" | le => "<=" | gt => ">" | ge => ">="
  | isIn => "in" | instanceOf => "instanceof"

def all : List BinaryOp :=
  [add, sub, mul, div, rem, exp, shiftLeft, shiftRight, shiftRightZero, bitAnd, bitOr, bitXor,
   eq, notEq, strictEq, strictNotEq, lt, le, gt, ge, isIn, instanceOf]

def commutative : BinaryOp → Bool
  | add | mul | bitAnd | bitOr | bitXor | eq | notEq | strictEq | strictNotEq => true
  | _ => false

/-- The relational operator that says the same of swapped operands. -/
def converse? : BinaryOp → Option BinaryOp
  | lt => some gt
  | gt => some lt
  | le => some ge
  | ge => some le
  | _ => none

end BinaryOp

/-- Plain assignment, and the assignments that apply an operator first. -/
inductive AssignOp where
  | plain
  | add | sub | mul | div | rem | exp
  | shiftLeft | shiftRight | shiftRightZero
  | bitAnd | bitOr | bitXor
deriving DecidableEq, Repr

namespace AssignOp

def text : AssignOp → String
  | plain => "="
  | add => "+=" | sub => "-=" | mul => "*=" | div => "/=" | rem => "%=" | exp => "**="
  | shiftLeft => "<<=" | shiftRight => ">>=" | shiftRightZero => ">>>="
  | bitAnd => "&=" | bitOr => "|=" | bitXor => "^="

def all : List AssignOp :=
  [plain, add, sub, mul, div, rem, exp, shiftLeft, shiftRight, shiftRightZero,
   bitAnd, bitOr, bitXor]

/-- The operator that a compound assignment applies. -/
def binary? : AssignOp → Option BinaryOp
  | plain => none
  | add => some .add | sub => some .sub | mul => some .mul | div => some .div
  | rem => some .rem | exp => some .exp
  | shiftLeft => some .shiftLeft | shiftRight => some .shiftRight
  | shiftRightZero => some .shiftRightZero
  | bitAnd => some .bitAnd | bitOr => some .bitOr | bitXor => some .bitXor

/-- The compound assignment that applies the given operator. -/
def compound? : BinaryOp → Option AssignOp
  | .add => some add | .sub => some sub | .mul => some mul | .div => some div
  | .rem => some rem | .exp => some exp
  | .shiftLeft => some shiftLeft | .shiftRight => some shiftRight
  | .shiftRightZero => some shiftRightZero
  | .bitAnd => some bitAnd | .bitOr => some bitOr | .bitXor => some bitXor
  | _ => none

end AssignOp

/-- Operators that may leave their right operand unevaluated. -/
inductive LogicalOp where
  | and | or | nullish
deriving DecidableEq, Repr

namespace LogicalOp

def text : LogicalOp → String
  | and => "&&" | or => "||" | nullish => "??"

def all : List LogicalOp := [and, or, nullish]

def commutative : LogicalOp → Bool
  | nullish => false
  | _ => true

end LogicalOp

/-- Operators in front of their operand, apart from the two updates. -/
inductive UnaryOp where
  | neg | plus | not | bitNot | typeOf | void | delete
deriving DecidableEq, Repr

namespace UnaryOp

def text : UnaryOp → String
  | neg => "-" | plus => "+" | not => "!" | bitNot => "~"
  | typeOf => "typeof" | void => "void" | delete => "delete"

def all : List UnaryOp := [neg, plus, not, bitNot, typeOf, void, delete]

/-- Whether the operator is a word, which needs a space before its operand. -/
def isWord : UnaryOp → Bool
  | typeOf | void | delete => true
  | _ => false

end UnaryOp

/-- Adding or taking away one. -/
inductive UpdateOp where
  | increment | decrement
deriving DecidableEq, Repr

namespace UpdateOp

def text : UpdateOp → String
  | increment => "++" | decrement => "--"

def all : List UpdateOp := [increment, decrement]

def compound : UpdateOp → AssignOp
  | increment => .add | decrement => .sub

end UpdateOp

/-- The keyword of a declaration. -/
inductive DeclarationKind where
  | var | let | const
deriving DecidableEq, Repr

namespace DeclarationKind

def text : DeclarationKind → String
  | var => "var" | .let => "let" | const => "const"

def all : List DeclarationKind := [.var, .let, .const]

end DeclarationKind

/-- How a function is written. -/
inductive FunctionForm where
  | declaration | expression | arrow
deriving DecidableEq, Repr

/-- The role of a member of a class. -/
inductive MethodKind where
  | constructor | method | get | set
deriving DecidableEq, Repr

/-- The role of a member of an object literal. -/
inductive PropertyKind where
  | init | get | set
deriving DecidableEq, Repr

end CodeShape
