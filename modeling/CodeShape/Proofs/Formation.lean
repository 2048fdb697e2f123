import CodeShape.Grammar.Expression
import CodeShape.Proofs.Lexemes

/-!
The trees that programs have. The type of trees leaves open what stands in which place; a tree is
formed for a place if it and its parts are of the kinds that the grammar has there, and every text
in it is one that the scanner gives.
-/
namespace CodeShape

open Unread

namespace Node

/-- A statement that an `else` after it would become a part of. -/
def dangles : Node → Bool
  | ifElse _ _ none => true
  | ifElse _ _ (some alternate) => alternate.dangles
  | forLoop _ _ _ body | forEach _ _ body _ | whileLoop _ body => body.dangles
  | _ => false

end Node

/-- A name that is no keyword. -/
structure IsIdentifier (text : String) : Prop where
  isName : IsName text
  notKeyword : keywords.contains text = false

/-- The kinds of places that a node stands in. -/
inductive Place where
  | statement
  /-- The body of a function, or a part of a `try` statement. -/
  | block
  | declaration
  | declarator
  /-- A name that is declared. -/
  | binding
  /-- The start of a loop head. -/
  | start
  | parameter
  /-- An expression. Only what follows `new` or `extends` is free to start with the word `await`. -/
  | expression (free : Bool)
  | arrowBody
  | argument
  | element
  /-- The name of a member. -/
  | key (computed : Bool)
  | property
  | method

/-- Whether declarations may stand in the place. -/
def Place.mayDeclare : Place → Bool
  | statement | declaration | start => true
  | _ => false

/-- The node is one that a program may have in the place. -/
inductive Formed : Place → Node → Prop where
  | block {body : List Node} (hBody : ∀ n ∈ body, Formed .statement n) :
      Formed .block (.block body)
  | blockStatement {n : Node} (h : Formed .block n) : Formed .statement n
  | expr {e : Node} (h : Formed (.expression false) e) : Formed .statement (.expr e)
  | empty : Formed .statement .empty
  | ifElse {test consequent : Node} {alternate : Option Node}
      (hTest : Formed (.expression false) test) (hConsequent : Formed .statement consequent)
      (hAlternate : ∀ n ∈ alternate, Formed .statement n)
      (hElse : alternate.isSome = true → consequent.dangles = false) :
      Formed .statement (.ifElse test consequent alternate)
  | forLoop {init test step : Option Node} {body : Node} (hInit : ∀ n ∈ init, Formed .start n)
      (hTest : ∀ n ∈ test, Formed (.expression false) n)
      (hStep : ∀ n ∈ step, Formed (.expression false) n) (hBody : Formed .statement body) :
      Formed .statement (.forLoop init test step body)
  | forEach {left right body : Node} {overValues : Bool} (hLeft : Formed .start left)
      (hRight : Formed (.expression false) right) (hBody : Formed .statement body) :
      Formed .statement (.forEach left right body overValues)
  | whileLoop {test body : Node} (hTest : Formed (.expression false) test)
      (hBody : Formed .statement body) : Formed .statement (.whileLoop test body)
  | doWhile {body test : Node} (hBody : Formed .statement body)
      (hTest : Formed (.expression false) test) : Formed .statement (.doWhile body test)
  | returns {argument : Option Node} (h : ∀ n ∈ argument, Formed (.expression false) n) :
      Formed .statement (.returns argument)
  | breaks : Formed .statement .breaks
  | continues : Formed .statement .continues
  | throws {argument : Node} (h : Formed (.expression false) argument) :
      Formed .statement (.throws argument)
  | tryCatch {body : Node} {param handler finalizer : Option Node} (hBody : Formed .block body)
      (hParam : ∀ n ∈ param, Formed .binding n) (hHandler : ∀ n ∈ handler, Formed .block n)
      (hFinalizer : ∀ n ∈ finalizer, Formed .block n)
      (hCatch : handler = none → param = none)
      (hSome : handler.isSome = true ∨ finalizer.isSome = true) :
      Formed .statement (.tryCatch body param handler finalizer)
  | declarationStatement {n : Node} (h : Formed .declaration n) : Formed .statement n
  | functionDeclaration {id body : Node} {params : List Node} (hId : Formed .binding id)
      (hParams : ∀ n ∈ params, Formed .parameter n) (hBody : Formed .block body) :
      Formed .statement (.function .declaration (some id) params body)
  | classDeclaration {id : Node} {superclass : Option Node} {members : List Node}
      (hId : Formed .binding id) (hSuperclass : ∀ n ∈ superclass, Formed (.expression true) n)
      (hMembers : ∀ n ∈ members, Formed .method n) :
      Formed .statement (.classDef (some id) superclass members false)
  | declaration {kind : DeclarationKind} {declarators : List Node} (hNonempty : declarators ≠ [])
      (hDeclarators : ∀ n ∈ declarators, Formed .declarator n) :
      Formed .declaration (.declaration kind declarators)
  | declarator {id : Node} {init : Option Node} (hId : Formed .binding id)
      (hInit : ∀ n ∈ init, Formed (.expression false) n) :
      Formed .declarator (.declarator id init)
  | binding {text : String} (h : IsIdentifier text) : Formed .binding (.ident text)
  | startDeclaration {n : Node} (h : Formed .declaration n) : Formed .start n
  | startExpression {n : Node} (h : Formed (.expression false) n) : Formed .start n
  | parameter {n : Node} (h : Formed .binding n) : Formed .parameter n
  | withDefault {left right : Node} (hLeft : Formed .binding left)
      (hRight : Formed (.expression false) right) : Formed .parameter (.withDefault left right)
  | restParameter {n : Node} (h : Formed .binding n) : Formed .parameter (.spread n)
  | ident {free : Bool} {text : String} (h : IsIdentifier text)
      (hFree : text = "await" → free = true) : Formed (.expression free) (.ident text)
  | this {free : Bool} : Formed (.expression free) .this
  | number {free : Bool} {value : Number} {raw : String} (h : IsNumeral value raw) :
      Formed (.expression free) (.literal ⟨.number value, raw⟩)
  | string {free : Bool} {value raw : String} (h : IsQuotation value raw) :
      Formed (.expression free) (.literal ⟨.string value, raw⟩)
  | bool {free : Bool} (b : Bool) :
      Formed (.expression free) (.literal ⟨.bool b, if b then "true" else "false"⟩)
  | null {free : Bool} : Formed (.expression free) (.literal ⟨.null, "null"⟩)
  | template {free : Bool} {quasis : List String} {expressions : List Node}
      (hLength : quasis.length = expressions.length + 1)
      (hQuasis : ∀ q ∈ quasis, isQuasi q.toList = true)
      (hExpressions : ∀ n ∈ expressions, Formed (.expression false) n) :
      Formed (.expression free) (.template quasis expressions)
  | array {free : Bool} {elements : List Node} (hElements : ∀ n ∈ elements, Formed .element n) :
      Formed (.expression free) (.array elements)
  | object {free : Bool} {members : List Node} (hMembers : ∀ n ∈ members, Formed .property n) :
      Formed (.expression free) (.object members)
  | function {free : Bool} {id : Option Node} {params : List Node} {body : Node}
      (hId : ∀ n ∈ id, Formed .binding n) (hParams : ∀ n ∈ params, Formed .parameter n)
      (hBody : Formed .block body) :
      Formed (.expression free) (.function .expression id params body)
  | arrow {free : Bool} {params : List Node} {body : Node}
      (hParams : ∀ n ∈ params, Formed .parameter n) (hBody : Formed .arrowBody body) :
      Formed (.expression free) (.function .arrow none params body)
  | arrowBlock {n : Node} (h : Formed .block n) : Formed .arrowBody n
  | arrowExpression {n : Node} (h : Formed (.expression false) n) : Formed .arrowBody n
  | classExpression {free : Bool} {id superclass : Option Node} {members : List Node}
      (hId : ∀ n ∈ id, Formed .binding n)
      (hSuperclass : ∀ n ∈ superclass, Formed (.expression true) n)
      (hMembers : ∀ n ∈ members, Formed .method n) :
      Formed (.expression free) (.classDef id superclass members true)
  | call {free : Bool} {callee : Node} {arguments : List Node}
      (hCallee : Formed (.expression free) callee)
      (hArguments : ∀ n ∈ arguments, Formed .argument n) :
      Formed (.expression free) (.call callee arguments)
  | construct {free : Bool} {callee : Node} {arguments : List Node}
      (hCallee : Formed (.expression true) callee)
      (hArguments : ∀ n ∈ arguments, Formed .argument n) :
      Formed (.expression free) (.construct callee arguments)
  | member {free : Bool} {owner : Node} {text : String} (hOwner : Formed (.expression free) owner)
      (h : IsName text) : Formed (.expression free) (.member owner (.ident text) false)
  | computedMember {free : Bool} {owner key : Node} (hOwner : Formed (.expression free) owner)
      (hKey : Formed (.expression false) key) : Formed (.expression free) (.member owner key true)
  | assign {free : Bool} {op : AssignOp} {left right : Node}
      (hTarget : Grammar.isTarget left = true) (hLeft : Formed (.expression false) left)
      (hRight : Formed (.expression false) right) :
      Formed (.expression free) (.assign op left right)
  | update {free : Bool} {op : UpdateOp} {before : Bool} {argument : Node}
      (hTarget : Grammar.isTarget argument = true)
      (hArgument : Formed (.expression false) argument) :
      Formed (.expression free) (.update op before argument)
  | binary {free : Bool} {op : BinaryOp} {left right : Node}
      (hLeft : Formed (.expression false) left) (hRight : Formed (.expression false) right) :
      Formed (.expression free) (.binary op left right)
  | logical {free : Bool} {op : LogicalOp} {left right : Node}
      (hLeft : Formed (.expression false) left) (hRight : Formed (.expression false) right) :
      Formed (.expression free) (.logical op left right)
  | unary {free : Bool} {op : UnaryOp} {argument : Node}
      (hArgument : Formed (.expression false) argument) :
      Formed (.expression free) (.unary op argument)
  | conditional {free : Bool} {test consequent alternate : Node}
      (hTest : Formed (.expression false) test)
      (hConsequent : Formed (.expression false) consequent)
      (hAlternate : Formed (.expression false) alternate) :
      Formed (.expression free) (.conditional test consequent alternate)
  | sequence {free : Bool} {items : List Node} (hLength : 2 ≤ items.length)
      (hItems : ∀ n ∈ items, Formed (.expression false) n) :
      Formed (.expression free) (.sequence items)
  | argument {n : Node} (h : Formed (.expression false) n) : Formed .argument n
  | spread {n : Node} (h : Formed (.expression false) n) : Formed .argument (.spread n)
  | element {n : Node} (h : Formed .argument n) : Formed .element n
  | hole : Formed .element .hole
  | nameKey {text : String} (h : IsName text) : Formed (.key false) (.ident text)
  | numberKey {value : Number} {raw : String} (h : IsNumeral value raw) :
      Formed (.key false) (.literal ⟨.number value, raw⟩)
  | stringKey {value raw : String} (h : IsQuotation value raw) :
      Formed (.key false) (.literal ⟨.string value, raw⟩)
  | computedKey {n : Node} (h : Formed (.expression false) n) : Formed (.key true) n
  | spreadProperty {n : Node} (h : Formed (.expression false) n) : Formed .property (.spread n)
  | shorthand {text : String} (h : IsName text) :
      Formed .property (.property (.ident text) (.ident text) .init false true false)
  | property {key value : Node} {computed : Bool} (hKey : Formed (.key computed) key)
      (hValue : Formed (.expression false) value) :
      Formed .property (.property key value .init computed false false)
  | methodProperty {key body : Node} {kind : PropertyKind} {computed : Bool} {params : List Node}
      (hKey : Formed (.key computed) key) (hParams : ∀ n ∈ params, Formed .parameter n)
      (hBody : Formed .block body) :
      Formed .property (.property key (.function .expression none params body) kind computed false
        (kind = .init))
  | method {key body : Node} {kind : MethodKind} {isStatic computed : Bool} {params : List Node}
      (hKey : Formed (.key computed) key) (hParams : ∀ n ∈ params, Formed .parameter n)
      (hBody : Formed .block body)
      (hKind : kind = .get ∨ kind = .set ∨ kind =
        if key.ident? = some "constructor" && !isStatic then .constructor else .method) :
      Formed .method (.method key (.function .expression none params body) kind isStatic)

namespace Formed

/-- What may stand anywhere may stand where more is allowed. -/
theorem free {free : Bool} {n : Node} (h : Formed (.expression false) n) :
    Formed (.expression free) n := by
  generalize hPlace : Place.expression false = place at h
  induction h with
  | ident h hFree => cases hPlace; exact .ident h fun hAwait => absurd (hFree hAwait) nofun
  | call _ hArguments ih _ => exact .call (ih hPlace) hArguments
  | member _ h ih => exact .member (ih hPlace) h
  | computedMember _ hKey ih _ => exact .computedMember (ih hPlace) hKey
  | _ => cases hPlace <;> constructor <;> assumption

end Formed

end CodeShape
