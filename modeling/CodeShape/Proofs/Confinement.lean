import CodeShape.Proofs.Ambient
import CodeShape.Proofs.Relaxation

/-!
The restriction of a loop head is confined to the operators of the head. The grammar is written once
more with the restriction as a flag: it is set where the head starts, and cleared in brackets, in
function bodies and in the middle of a choice. This grammar follows the one that passes the
restriction on, so no rule leaves the flag other than it was, and what the flag does not reach is read
alike in the head of a loop and elsewhere. It reaches the block of an arrow function.
-/
namespace CodeShape

open CodeShape.Parser (sees seesAny seesName seesWord eat eatName advance expect expected unsupported
  identifier propertyName next? ahead? atEnd onNewLine place nameAhead signAhead)
open Ambient Grammar

/-- The rules that other rules come back to, with the restriction as a flag. -/
structure Flagged where
  statement : Ambient Node
  assignment : Ambient Node
  binary : (power : Nat) → Ambient Node
  unary : Ambient Node
  call : Ambient Node
  constructed : Ambient Node

namespace Flagged

def expressionOf (assignment : Ambient Node) : Ambient Node := do
  match ← commaSeparated assignment with
  | [e] => return e
  | items => return .sequence items

/-- An element of a list, which may be spread. -/
def spreadable (assignment : Ambient Node) : Ambient Node := do
  if ← eat .ellipsis then return .spread (← assignment) else assignment

variable (r : Flagged)

def expression : Ambient Node := expressionOf r.assignment

def block : Ambient Node := do
  expect .openBrace
  return .block (← enclosed .closeBrace do
    if ← atEnd then expected Punct.closeBrace.text else return [← r.statement])

def arguments : Ambient (List Node) := do
  expect .openParen
  under false (listed .closeParen (spreadable r.assignment))

def parameter : Ambient Node := do
  if ← seesAny [.openBracket, .openBrace] then unsupported .destructuring
  else if ← eat .ellipsis then return .spread (.ident (← identifier))
  else
    let name := Node.ident (← identifier)
    if ← eat (.assign .plain) then return .withDefault name (← under false r.assignment)
    else return name

def parameters : Ambient (List Node) := do
  expect .openParen
  listed .closeParen r.parameter

def functionRest (form : FunctionForm) (id : Option String) : Ambient Node := do
  let params ← r.parameters
  let body ← under false r.block
  return .function form (id.map .ident) params body

def function (form : FunctionForm) : Ambient Node := do
  unless ← eatName "function" do expected "function"
  if ← sees (.binary .mul) then unsupported .generators
  let named ← seesWord
  let id ← if form = .declaration || named then some <$> identifier else pure none
  r.functionRest form id

/-- The name of a member, and whether it is computed. -/
def memberKey : Ambient (Node × Bool) := do
  match ← next? with
  | some (.punct .openBracket) =>
    advance
    let key ← under false r.assignment
    expect .closeBracket
    return (key, true)
  | some (.number value raw) =>
    advance
    return (.literal ⟨.number value, raw⟩, false)
  | some (.string value raw) =>
    advance
    return (.literal ⟨.string value, raw⟩, false)
  | some (.name _) => return (.ident (← propertyName), false)
  | _ => expected "a property name"

/-- A member of an object literal. It is read where the flag has been cleared. -/
def property : Ambient Node := do
  if ← eat .ellipsis then return .spread (← r.assignment)
  let kind : PropertyKind ← memberKind .get .set .init
  let (key, computed) ← r.memberKey
  if ← sees .openParen then
    let value ← r.functionRest .expression none
    return .property key value kind computed false (kind = .init)
  else if kind ≠ .init then expected "a parameter list"
  else if ← eat .colon then
    return .property key (← r.assignment) kind computed false false
  else if key.ident?.isSome && !computed then
    if ← sees (.assign .plain) then unsupported .destructuring
    return .property key key kind computed true false
  else expected ":"

def object : Ambient Node := do
  expect .openBrace
  return .object (← under false (listed .closeBrace r.property))

def array : Ambient Node := do
  expect .openBracket
  return .array (← under false (enclosed .closeBracket do
    if ← eat .comma then return [.hole]
    else
      let element ← spreadable r.assignment
      unless ← sees .closeBracket do expect .comma
      return [element]))

def method : Ambient Node := do
  let isStatic ← eatModifier "static"
  let kind : MethodKind ← memberKind .get .set .method
  if ← sees (.binary .mul) then unsupported .generators
  let (key, _) ← r.memberKey
  unless ← sees .openParen do unsupported .classFields
  let kind :=
    if key.ident? = some "constructor" && !isStatic && kind = .method then .constructor else kind
  let value ← r.functionRest .expression none
  return .method key value kind isStatic

def classRest (expression : Bool) (id : Option String) : Ambient Node := do
  let superclass ← if ← eatName "extends" then some <$> r.call else pure none
  expect .openBrace
  let members ← enclosed .closeBrace do
    if ← eat .semicolon then return [] else return [← r.method]
  return .classDef (id.map .ident) superclass members expression

def classDef (expression : Bool) : Ambient Node := do
  unless ← eatName "class" do expected "class"
  let named := (← seesWord) && !(← seesName "extends")
  let id ←
    if named then some <$> identifier
    else if expression then pure none
    else expected "a class name"
  r.classRest expression id

/-- A name or a keyword at the start of an operand. -/
def wordOperand (text : String) : Ambient Node := do
  match text with
  | "this" =>
    advance
    return .this
  | "true" | "false" =>
    advance
    return .literal ⟨.bool (text == "true"), text⟩
  | "null" =>
    advance
    return .literal ⟨.null, text⟩
  | "function" => r.function .expression
  | "class" => r.classDef true
  | "super" => unsupported .superReferences
  | "import" => unsupported .modules
  | _ => return .ident (← identifier)

def primary : Ambient Node := do
  match ← next? with
  | some (.number value raw) =>
    advance
    return .literal ⟨.number value, raw⟩
  | some (.string value raw) =>
    advance
    return .literal ⟨.string value, raw⟩
  | some (.template quasis parts) =>
    advance
    let expressions ← parts.mapM fun part => inside part r.expression "the end of the substitution"
    return .template quasis expressions
  | some (.punct .openParen) =>
    advance
    let e ← under false r.expression
    expect .closeParen
    return e
  | some (.punct .openBracket) => r.array
  | some (.punct .openBrace) => r.object
  | some (.punct (.binary .div)) | some (.punct (.assign .div)) => unsupported .regularExpressions
  | some (.name text) => r.wordOperand text
  | _ => expected "an expression"

def memberAccess (owner : Node) : Ambient Node := do
  if ← eat .dot then return .member owner (.ident (← propertyName)) false
  else
    expect .openBracket
    let key ← under false r.expression
    expect .closeBracket
    return .member owner key true

def constructOrPrimary : Ambient Node := do
  if ← eatName "new" then
    let callee ← r.constructed
    let args ← if ← sees .openParen then r.arguments else pure []
    return .construct callee args
  else r.primary

def constructedRule : Ambient Node := do
  let start ← r.constructOrPrimary
  grow (fun e => do
    if ← seesAny [.dot, .openBracket] then return some (← r.memberAccess e) else return none) start

/-- An operand with the calls and member accesses after it. -/
def callRule : Ambient Node := do
  let start ← r.constructOrPrimary
  grow (fun e => do
    match ← next? with
    | some (.punct .openParen) => return some (.call e (← r.arguments))
    | some (.punct .dot) | some (.punct .openBracket) => return some (← r.memberAccess e)
    | some (.template _ _) => unsupported .taggedTemplates
    | _ => return none) start

/-- An operand with the operators in front of it and an update after it. -/
def unaryRule : Ambient Node := do
  let start ← place
  let word ← next?
  if ← seesName "await" then unsupported .async
  match word.bind unaryOperator?, word.bind updateOperator? with
  | some op, _ =>
    advance
    return .unary op (← r.unary)
  | none, some op =>
    advance
    let argument ← r.unary
    if isTarget argument then return .update op true argument
    else throw ⟨.invalidTarget, start⟩
  | none, none => updateAfter (← r.callRule)

/-- Operands with operators of at least the given power between them. The flag is looked at before
every operator. -/
def binaryRule (power : Nat) : Ambient Node := do
  let first ← r.unaryRule
  grow (fun left => do
    let noIn ← flag
    match (← next?).bind (operator? noIn) with
    | none => return none
    | some (p, make) =>
      if p < power then return none
      else
        advance
        let right ← r.binary (if p = binaryPower .exp then p else p + 1)
        return some (make left right)) first

/-- A choice between two expressions, or what it would choose by. -/
def conditional : Ambient Node := do
  let test ← r.binaryRule 1
  if ← eat .question then
    let consequent ← under false r.assignment
    expect .colon
    let alternate ← r.assignment
    return .conditional test consequent alternate
  else return test

/-- The parameters of an arrow function, up to the arrow. -/
def arrowHead : Ambient (List Node) := do
  let params ← if ← sees .openParen then r.parameters else pure [Node.ident (← identifier)]
  expect .arrow
  return params

/-- An arrow function. The flag is cleared in a body that is an expression. -/
def arrow : Ambient Node := do
  let params ← r.arrowHead
  let body ← if ← sees .openBrace then r.block else under false r.assignment
  return .function .arrow none params body

def assignmentRule : Ambient Node := do
  if ← seesArrow then r.arrow
  else if (← seesName "async") && ((← nameAhead 1 "function") || (← signAhead 1 .openParen)) then
    unsupported .async
  else if ← seesName "yield" then unsupported .generators
  else
    let start ← place
    let left ← r.conditional
    match (← next?).bind assignOperator? with
    | none => return left
    | some op =>
      if isDestructuring left then unsupported .destructuring
      else if !isTarget left then throw ⟨.invalidTarget, start⟩
      else
        advance
        return .assign op left (← r.assignment)

def declarator : Ambient Node := do
  if ← seesAny [.openBracket, .openBrace] then unsupported .destructuring
  else
    let id := Node.ident (← identifier)
    let init ← if ← eat (.assign .plain) then some <$> r.assignment else pure none
    return .declarator id init

def declaration (kind : DeclarationKind) : Ambient Node := do
  advance
  return .declaration kind (← commaSeparated r.declarator)

def condition : Ambient Node := do
  expect .openParen
  let test ← under false r.expression
  expect .closeParen
  return test

def ifElse : Ambient Node := do
  advance
  let test ← r.condition
  let consequent ← r.statement
  let alternate ← if ← eatName "else" then some <$> r.statement else pure none
  return .ifElse test consequent alternate

/-- The start of a loop head, where the flag is set. -/
def loopStart : Ambient (Option Node) := do
  match ← next? with
  | some (.punct .semicolon) => return none
  | word =>
    match word.bind declarationKind? with
    | some kind => some <$> under true (r.declaration kind)
    | none => some <$> under true r.expression

/-- The rest of a loop over keys or values. -/
def forEachRest (left : Node) (overValues : Bool) : Ambient Node := do
  advance
  let right ← if overValues then r.assignment else r.expression
  expect .closeParen
  let body ← r.statement
  return .forEach left right body overValues

def forLoopRest (init : Option Node) : Ambient Node := do
  expect .semicolon
  let test ← if ← sees .semicolon then pure none else some <$> r.expression
  expect .semicolon
  let step ← if ← sees .closeParen then pure none else some <$> r.expression
  expect .closeParen
  let body ← r.statement
  return .forLoop init test step body

def loop : Ambient Node := do
  advance
  if ← seesName "await" then unsupported .async
  expect .openParen
  let init ← r.loopStart
  let overValues ← seesName "of"
  match init with
  | some left =>
    if overValues || (← seesName "in") then r.forEachRest left overValues
    else r.forLoopRest init
  | none => r.forLoopRest init

/-- The parameter of a handler, if there is one. -/
def handlerParam : Ambient (Option Node) := do
  if ← eat .openParen then
    if ← seesAny [.openBracket, .openBrace] then unsupported .destructuring
    else
      let name ← identifier
      expect .closeParen
      return some (.ident name)
  else return none

def tryRest (body : Node) (param handler : Option Node) : Ambient Node := do
  let finalizer ← if ← eatName "finally" then some <$> r.block else pure none
  if handler.isNone && finalizer.isNone then expected "catch or finally"
  else return .tryCatch body param handler finalizer

/-- A block with a handler for errors, with a block to run in any case, or with both. -/
def tryCatch : Ambient Node := do
  advance
  let body ← r.block
  let (param, handler) ←
    if ← eatName "catch" then do
      let param ← handlerParam
      let handler ← r.block
      pure (param, some handler)
    else pure (none, none)
  r.tryRest body param handler

/-- A statement that leaves a loop or its current round. -/
def jump (n : Node) : Ambient Node := do
  advance
  if (← seesWord) && !(← onNewLine) then unsupported .labels
  else
    statementEnd
    return n

def expressionStatement : Ambient Node := do
  let e ← expressionOf r.assignmentRule
  statementEnd
  return .expr e

def wordStatement (word : String) : Ambient Node := do
  match word with
  | "function" => r.function .declaration
  | "class" => r.classDef false
  | "if" => r.ifElse
  | "for" => r.loop
  | "while" =>
    advance
    let test ← r.condition
    return .whileLoop test (← r.statement)
  | "do" =>
    advance
    let body ← r.statement
    unless ← eatName "while" do expected "while"
    let test ← r.condition
    discard (eat .semicolon)
    return .doWhile body test
  | "return" =>
    advance
    let argument ←
      if (← sees .semicolon) || (← mayEnd) then pure none else some <$> r.expression
    statementEnd
    return .returns argument
  | "break" => jump .breaks
  | "continue" => jump .continues
  | "throw" =>
    advance
    let argument ← r.expression
    statementEnd
    return .throws argument
  | "try" => r.tryCatch
  | "switch" => unsupported .switches
  | "import" | "export" => unsupported .modules
  | "with" => unsupported .withStatements
  | "debugger" => unsupported .debuggers
  | _ =>
    if ← signAhead 1 .colon then unsupported .labels else r.expressionStatement

def statementRule : Ambient Node := do
  match ← next? with
  | some (.punct .openBrace) => r.block
  | some (.punct .semicolon) =>
    advance
    return .empty
  | some (.name word) =>
    match declarationKind? (.name word) with
    | some kind =>
      let declaration ← r.declaration kind
      statementEnd
      return declaration
    | none => r.wordStatement word
  | _ => r.expressionStatement

def ground : Flagged where
  statement := expected (α := Node) "a statement"
  assignment := expected (α := Node) "an expression"
  binary _ := expected (α := Node) "an expression"
  unary := expected (α := Node) "an expression"
  call := expected (α := Node) "an expression"
  constructed := expected (α := Node) "an expression"

def lifted : Flagged where
  statement := r.statementRule
  assignment := r.assignmentRule
  binary := r.binaryRule
  unary := r.unaryRule
  call := r.callRule
  constructed := r.constructedRule

def level : Nat → Flagged
  | 0 => ground
  | n + 1 => (level n).lifted

end Flagged

namespace Grammar

/-- The parameters of an arrow function, up to the arrow. -/
def arrowHead (g : Grammar) : Parser (List Node) := do
  let params ← if ← sees .openParen then g.parameters else pure [Node.ident (← identifier)]
  expect .arrow
  return params

/-- The parameters of an arrow read on their own, before its body. -/
theorem arrow_eq (g : Grammar) (noIn : Bool) : g.arrow noIn = (do
    let params ← g.arrowHead
    let body ← if ← sees .openBrace then g.block noIn else g.assignment false
    return .function .arrow none params body) := by
  unfold arrow arrowHead
  rw [bind_assoc]
  refine bind_congr fun paren => ?_
  cases paren <;> simp

end Grammar

namespace Flagged

/-- The rules follow those of a grammar that is told the restriction. The rules for operands do so
with any flag. -/
structure Models (r : Flagged) (g : Grammar) : Prop where
  statement (noIn : Bool) : Follows (· = noIn) r.statement (g.statement noIn)
  assignment (noIn : Bool) : Follows (· = noIn) r.assignment (g.assignment noIn)
  binary (noIn : Bool) (power : Nat) : Follows (· = noIn) (r.binary power) (g.binary noIn power)
  unary (flags : Bool → Prop) : Follows flags r.unary g.unary
  call (flags : Bool → Prop) : Follows flags r.call g.call
  constructed (flags : Bool → Prop) : Follows flags r.constructed g.constructed

section Lists

variable {flags : Bool → Prop} {a : Ambient Node} {p : Parser Node}

/-- Expressions put together with commas follow the flag as each of them does. -/
theorem follows_expressionOf (h : Follows flags a p) :
    Follows flags (expressionOf a) (Grammar.expressionOf p) := by
  refine h.commaSeparated.bind fun items => ?_
  rcases items with _ | ⟨e, _ | ⟨e', items⟩⟩ <;> exact .pure _

/-- A spread follows the flag as what is spread does. -/
theorem follows_spreadable (h : Follows flags a p) :
    Follows flags (spreadable a) (Grammar.spreadable p) := .branch h.done h

end Lists

namespace Models

variable {r : Flagged} {g : Grammar} {flags : Bool → Prop} (h : r.Models g)

include h

/-- An expression is read under the flag as it stands. -/
theorem expression (noIn : Bool) : Follows (· = noIn) r.expression (g.expression noIn) :=
  follows_expressionOf (h.assignment noIn)

/-- A block reads its statements under the flag as it stands, and leaves it so. -/
theorem block (noIn : Bool) : Follows (· = noIn) r.block (g.block noIn) :=
  .step fun _ => .done (.enclosed (.branch (.lift _) (h.statement noIn).done))

theorem arguments : Follows flags r.arguments g.arguments :=
  .step fun _ => .under (.listed (follows_spreadable (h.assignment false)))

/-- The default of a parameter is read with the flag put down. -/
theorem parameter : Follows flags r.parameter g.parameter := by
  refine .branch (.lift _) (.branch (.step fun _ => .pure _) (.step fun name => ?_))
  exact .branch (.done (.under (h.assignment false))) (.pure _)

theorem parameters : Follows flags r.parameters g.parameters :=
  .step fun _ => .listed h.parameter

/-- A function reads its body with the flag put down, whatever it was. -/
theorem functionRest (form : FunctionForm) (id : Option String) :
    Follows flags (r.functionRest form id) (g.functionRest form id) :=
  h.parameters.bind fun _ => .done (.under (h.block false))

theorem function (form : FunctionForm) : Follows flags (r.function form) (g.function form) := by
  have hRest : ∀ id, Follows flags (r.functionRest form id) (g.functionRest form id) :=
    h.functionRest form
  exact .require fun _ => .refuse fun _ => .step fun named =>
    .whichever (.map _ (.lift _)) (.pure none) hRest

/-- A computed key is read with the flag put down. -/
theorem memberKey : Follows flags r.memberKey g.memberKey := by
  refine .step fun word => ?_
  rcases word with _ | w
  · exact .lift _
  · cases w with
    | punct sign =>
        cases sign with
        | openBracket =>
            exact .step fun _ => .bind (.under (h.assignment false)) fun _ => .step fun _ => .pure _
        | _ => exact .lift _
    | template => exact .lift _
    | _ => exact .step fun _ => .pure _

/-- A member of an object is read where the flag is clear. With the flag set it would be read as by
some other rule. -/
theorem property (noIn : Bool) :
    ∃ p, Follows (· = noIn) r.property p ∧ (noIn = false → p = g.property) := by
  refine ⟨_, .branch (h.assignment noIn).done (.step fun kind => h.memberKey.bind fun key =>
    .branch (h.functionRest .expression none).done (.ite (fun _ => .lift _) fun _ =>
      .branch (h.assignment noIn).done (.ite (fun _ => .refuse fun _ => .pure _) fun _ => .lift _))), ?_⟩
  rintro rfl
  rfl

/-- What stands in braces is read with the flag put down. -/
theorem object : Follows flags r.object g.object := by
  obtain ⟨p, hProperty, hSame⟩ := h.property false
  obtain rfl := hSame rfl
  exact .step fun _ => .done (.under (.listed hProperty))

/-- What stands in brackets is read with the flag put down. -/
theorem array : Follows flags r.array g.array := by
  refine .step fun _ => .done (.under (.enclosed (.branch (.pure _) ?_)))
  refine (follows_spreadable (h.assignment false)).bind fun _ => ?_
  exact .require fun _ => .pure _

theorem method : Follows flags r.method g.method := by
  refine .step fun isStatic => .step fun kind => .refuse fun _ => h.memberKey.bind fun key => ?_
  obtain ⟨key, computed⟩ := key
  exact .require fun _ => (h.functionRest .expression none).done

theorem classRest (expression : Bool) (id : Option String) :
    Follows flags (r.classRest expression id) (g.classRest expression id) := by
  refine .either (.map _ (h.call flags)) (.pure none) fun superclass => .step fun _ => ?_
  exact .done (.enclosed (.branch (.pure []) h.method.done))

/-- A class reads its members as functions are read, with the flag put down. -/
theorem classDef (expression : Bool) :
    Follows flags (r.classDef expression) (g.classDef expression) := by
  refine .require fun _ => .step fun isWord => .step fun isExtends => ?_
  refine .ite (fun _ => .bind (.map _ (.lift _)) fun _ => h.classRest expression _) fun _ => ?_
  exact .whichever (.pure none) (.lift _) fun _ => h.classRest expression _

theorem wordOperand (text : String) :
    Follows flags (r.wordOperand text) (g.wordOperand text) := by
  unfold Flagged.wordOperand
  split
  · exact .step fun _ => .pure _
  · exact .step fun _ => .pure _
  · exact .step fun _ => .pure _
  · exact .step fun _ => .pure _
  · exact h.function .expression
  · exact h.classDef true
  · exact .lift _
  · exact .lift _
  · rw [Grammar.wordOperand_other (by simp_all)]
    exact .step fun _ => .pure _

/-- An operand in parentheses or in a template is read with the flag put down. -/
theorem primary : Follows flags r.primary g.primary := by
  refine .step fun word => ?_
  rcases word with _ | w
  · exact .lift _
  · cases w with
    | number | string => exact .step fun _ => .pure _
    | template =>
        exact .step fun _ => .done (.mapM (fun part => .inside (h.expression false) part _) _)
    | name text => exact h.wordOperand text
    | punct sign =>
        cases sign with
        | openParen =>
            exact .step fun _ => .bind (.under (h.expression false)) fun _ => .step fun _ => .pure _
        | openBracket => exact h.array
        | openBrace => exact h.object
        | binary op => cases op <;> exact .lift _
        | assign op => cases op <;> exact .lift _
        | _ => exact .lift _

/-- A key in brackets is read with the flag put down. -/
theorem memberAccess (owner : Node) :
    Follows flags (r.memberAccess owner) (g.memberAccess owner) := by
  refine .branch (.step fun _ => .pure _) (.step fun _ => ?_)
  exact .bind (.under (h.expression false)) fun _ => .step fun _ => .pure _

theorem constructOrPrimary : Follows flags r.constructOrPrimary g.constructOrPrimary := by
  refine .branch ((h.constructed flags).bind fun callee => ?_) h.primary
  exact .either h.arguments (.pure []) fun _ => .pure _

theorem constructedRule : Follows flags r.constructedRule g.constructedRule :=
  h.constructOrPrimary.bind fun start => .grow (fun e => .branch (h.memberAccess e).done (.pure _)) start

/-- Operands are read alike under any flag. -/
theorem callRule : Follows flags r.callRule g.callRule := by
  refine h.constructOrPrimary.bind fun start => .grow (fun e => .step fun word => ?_) start
  rcases word with _ | w
  · exact .pure none
  · cases w with
    | punct sign =>
        cases sign with
        | openParen => exact h.arguments.done
        | dot | openBracket => exact (h.memberAccess e).done
        | _ => exact .pure none
    | template => exact .lift _
    | _ => exact .pure none

/-- Operands are read alike under any flag, so this is where the flag stops to matter. -/
theorem unaryRule : Follows flags r.unaryRule g.unaryRule := by
  refine .step fun start => .step fun word => .refuse fun _ => ?_
  dsimp only
  generalize word.bind unaryOperator? = op, word.bind updateOperator? = update
  cases op with
  | some op => exact .step fun _ => (h.unary flags).done
  | none =>
      cases update with
      | some op =>
          refine .step fun _ => (h.unary flags).bind fun argument => ?_
          exact .ite (fun _ => .pure _) fun _ => .throw _
      | none => exact h.callRule.bind fun _ => .lift _

/-- The flag is asked once for each operator, and is as it was when the climb started. -/
theorem binaryRule (noIn : Bool) (power : Nat) :
    Follows (· = noIn) (r.binaryRule power) (g.binaryRule noIn power) := by
  refine h.unaryRule.bind fun first => .grow (fun left => ?_) first
  refine .flag (.step fun word => ?_)
  generalize word.bind (operator? noIn) = operator
  rcases operator with _ | ⟨p, make⟩
  · exact .pure none
  · exact .ite (fun _ => .pure none) fun _ => .step fun _ => (h.binary noIn _).done

/-- The flag is put down for the middle of a conditional and put back after it. -/
theorem conditional (noIn : Bool) : Follows (· = noIn) r.conditional (g.conditional noIn) := by
  refine (h.binaryRule noIn 1).bind fun test => .branch ?_ (.pure test)
  exact .bind (.under (h.assignment false)) fun _ => .step fun _ => (h.assignment noIn).done

/-- What comes before the arrow is read alike with any flag. -/
theorem arrowHead : Follows flags r.arrowHead g.arrowHead := by
  refine .branch (h.parameters.bind fun _ => .step fun _ => .pure _) (.step fun _ => ?_)
  exact .bind (.pure _) fun _ => .step fun _ => .pure _

/-- The body of an arrow is read under the flag if it is in braces, and with the flag put down if it
is not. -/
theorem arrow (noIn : Bool) : Follows (· = noIn) r.arrow (g.arrow noIn) := by
  rw [Grammar.arrow_eq]
  refine h.arrowHead.bind fun params => ?_
  exact .either (h.block noIn) (.under (h.assignment false)) fun _ => .pure _

/-- The right side is read under the flag that the left side has left as it was. -/
theorem assignmentRule (noIn : Bool) :
    Follows (· = noIn) r.assignmentRule (g.assignmentRule noIn) := by
  refine .branch (h.arrow noIn) (.step fun _ => .step fun _ => .step fun _ => ?_)
  refine .ite (fun _ => .lift _) fun _ => .branch (.lift _) (.step fun start => ?_)
  refine (h.conditional noIn).bind fun left => .step fun word => ?_
  generalize word.bind assignOperator? = op
  cases op with
  | none => exact .pure left
  | some op =>
      refine .ite (fun _ => .lift _) fun _ => .ite (fun _ => .throw _) fun _ => ?_
      exact .step fun _ => (h.assignment noIn).done

/-- An initializer is read under the flag as it stands. -/
theorem declarator (noIn : Bool) : Follows (· = noIn) r.declarator (g.declarator noIn) := by
  refine .branch (.lift _) (.step fun name => ?_)
  exact .either (.map _ (h.assignment noIn)) (.pure none) fun _ => .pure _

theorem declaration (noIn : Bool) (kind : DeclarationKind) :
    Follows (· = noIn) (r.declaration kind) (g.declaration noIn kind) :=
  .step fun _ => .done (.commaSeparated (h.declarator noIn))

/-- What stands in parentheses is read with the flag put down. -/
theorem condition : Follows flags r.condition g.condition :=
  .step fun _ => .bind (.under (h.expression false)) fun _ => .step fun _ => .pure _

/-- The branches are read under the flag as it stands. -/
theorem ifElse (noIn : Bool) : Follows (· = noIn) r.ifElse (g.ifElse noIn) := by
  refine .step fun _ => h.condition.bind fun test => (h.statement noIn).bind fun consequent => ?_
  exact .either (.map _ (h.statement noIn)) (.pure none) fun _ => .pure _

/-- The start of a loop head is read alike with any flag. -/
theorem loopStart : Follows flags r.loopStart g.loopStart := by
  have hStart : ∀ kind : Option DeclarationKind, Follows flags
      (match kind with
        | some kind => some <$> under true (r.declaration kind)
        | none => some <$> under true r.expression)
      (match kind with
        | some kind => some <$> g.declaration true kind
        | none => some <$> g.expression true) := by
    intro kind
    cases kind with
    | some kind => exact .map _ (.under (h.declaration true kind))
    | none => exact .map _ (.under (h.expression true))
  refine .step fun word => ?_
  rcases word with _ | w
  · exact hStart none
  · cases w with
    | punct sign => cases sign <;> first | exact .pure none | exact hStart none
    | name text => exact hStart (declarationKind? (.name text))
    | _ => exact hStart none

/-- After the start of the head the flag is put back to what the whole loop has. -/
theorem forEachRest (noIn : Bool) (left : Node) (overValues : Bool) :
    Follows (· = noIn) (r.forEachRest left overValues) (g.forEachRest noIn left overValues) := by
  refine .step fun _ => .whichever (h.assignment noIn) (h.expression noIn) fun right => ?_
  exact .step fun _ => (h.statement noIn).done

/-- After the start of the head the flag is put back to what the whole loop has. -/
theorem forLoopRest (noIn : Bool) (init : Option Node) :
    Follows (· = noIn) (r.forLoopRest init) (g.forLoopRest noIn init) := by
  have hPart : Follows (· = noIn) (some <$> r.expression) (some <$> g.expression noIn) :=
    .map _ (h.expression noIn)
  refine .step fun _ => .either (.pure none) hPart fun test => .step fun _ => ?_
  exact .either (.pure none) hPart fun step => .step fun _ => (h.statement noIn).done

/-- The start of the head is the one part that is read with the flag raised. -/
theorem loop (noIn : Bool) : Follows (· = noIn) r.loop (g.loop noIn) := by
  refine .step fun _ => .refuse fun _ => .step fun _ => h.loopStart.bind fun init => ?_
  refine .step fun overValues => ?_
  cases init with
  | none => exact h.forLoopRest noIn none
  | some left =>
      refine .step fun _ => .ite (fun _ => h.forEachRest noIn left overValues) fun _ => ?_
      exact h.forLoopRest noIn (some left)

omit h in
theorem handlerParam : Follows flags Flagged.handlerParam Grammar.handlerParam := by
  refine .branch (.branch (.lift _) (.step fun name => ?_)) (.pure none)
  exact .step fun _ => .pure _

/-- The blocks of a `try` are read under the flag as it stands. -/
theorem tryCatch (noIn : Bool) : Follows (· = noIn) r.tryCatch (g.tryCatch noIn) := by
  have hRest : ∀ body param handler, Follows (· = noIn)
      (r.tryRest body param handler) (g.tryRest noIn body param handler) := by
    intro body param handler
    refine .either (.map _ (h.block noIn)) (.pure none) fun finalizer => ?_
    exact .ite (fun _ => .lift _) fun _ => .pure _
  refine .step fun _ => (h.block noIn).bind fun body => .branch ?_ ?_
  · refine handlerParam.bind fun param => (h.block noIn).bind fun handler => ?_
    exact .bind (.pure (param, some handler)) fun parts => hRest body parts.1 parts.2
  · exact .bind (.pure (none, none)) fun parts => hRest body parts.1 parts.2

omit h in
theorem jump (n : Node) : Follows flags (Flagged.jump n) (Grammar.jump n) := by
  refine .step fun _ => .step fun _ => .step fun _ => .ite (fun _ => .lift _) fun _ => ?_
  exact .step fun _ => .pure n

/-- An expression statement is read under the flag as it stands. -/
theorem expressionStatement (noIn : Bool) :
    Follows (· = noIn) r.expressionStatement (g.expressionStatement noIn) :=
  (follows_expressionOf (h.assignmentRule noIn)).bind fun _ => .step fun _ => .pure _

/-- Every statement with a keyword follows the flag as its parts do. -/
theorem wordStatement (noIn : Bool) (word : String) :
    Follows (· = noIn) (r.wordStatement word) (g.wordStatement noIn word) := by
  unfold Flagged.wordStatement
  split
  · exact h.function .declaration
  · exact h.classDef false
  · exact h.ifElse noIn
  · exact h.loop noIn
  · exact .step fun _ => h.condition.bind fun _ => (h.statement noIn).done
  · refine .step fun _ => (h.statement noIn).bind fun body => .require fun _ => ?_
    exact h.condition.bind fun test => .bind (.discard (.lift _)) fun _ => .pure _
  · refine .step fun _ => .step fun _ => .step fun _ => ?_
    exact .whichever (.pure none) (.map _ (h.expression noIn)) fun _ => .step fun _ => .pure _
  · exact jump _
  · exact jump _
  · exact .step fun _ => (h.expression noIn).bind fun _ => .step fun _ => .pure _
  · exact h.tryCatch noIn
  · exact .lift _
  · exact .lift _
  · exact .lift _
  · exact .lift _
  · exact .lift _
  · rw [Grammar.wordStatement_other (by simp_all)]
    exact .branch (.lift _) (h.expressionStatement noIn)

/-- Every statement follows the flag. -/
theorem statementRule (noIn : Bool) :
    Follows (· = noIn) r.statementRule (g.statementRule noIn) := by
  have hWord : ∀ (word : String) (kind : Option DeclarationKind), Follows (· = noIn)
      (match kind with
        | some kind => do
          let declaration ← r.declaration kind
          statementEnd
          return declaration
        | none => r.wordStatement word)
      (match kind with
        | some kind => do
          let declaration ← g.declaration noIn kind
          statementEnd
          return declaration
        | none => g.wordStatement noIn word) := by
    intro word kind
    cases kind with
    | some kind => exact (h.declaration noIn kind).bind fun _ => .step fun _ => .pure _
    | none => exact h.wordStatement noIn word
  refine .step fun word => ?_
  rcases word with _ | w
  · exact h.expressionStatement noIn
  · cases w with
    | name word => exact hWord word (declarationKind? (.name word))
    | punct sign =>
        cases sign with
        | openBrace => exact h.block noIn
        | semicolon => exact .step fun _ => .pure _
        | _ => exact h.expressionStatement noIn
    | _ => exact h.expressionStatement noIn

end Models

/-- The lowest level fails under either flag. -/
theorem models_ground : ground.Models Grammar.ground where
  statement _ := .lift _
  assignment _ := .lift _
  binary _ _ := .lift _
  unary _ := .lift _
  call _ := .lift _
  constructed _ := .lift _

/-- Rules built over rules that follow the flag do so too. -/
theorem Models.lifted {r : Flagged} {g : Grammar} (h : r.Models g) : r.lifted.Models g.lifted where
  statement := h.statementRule
  assignment := h.assignmentRule
  binary := h.binaryRule
  unary _ := h.unaryRule
  call _ := h.callRule
  constructed _ := h.constructedRule

/-- The rules of every level follow those that are told the restriction. -/
theorem models_level (n : Nat) : (level n).Models (Grammar.level n) := by
  induction n with
  | zero => exact models_ground
  | succ n ih => exact ih.lifted

/-- Every rule gives the flag back as it was, whether it succeeds or fails. -/
structure Restoring (r : Flagged) : Prop where
  expression : Restores r.expression
  block : Restores r.block
  arguments : Restores r.arguments
  parameter : Restores r.parameter
  parameters : Restores r.parameters
  functionRest (form : FunctionForm) (id : Option String) : Restores (r.functionRest form id)
  function (form : FunctionForm) : Restores (r.function form)
  memberKey : Restores r.memberKey
  property : Restores r.property
  object : Restores r.object
  array : Restores r.array
  method : Restores r.method
  classDef (expression : Bool) : Restores (r.classDef expression)
  wordOperand (text : String) : Restores (r.wordOperand text)
  primary : Restores r.primary
  memberAccess (owner : Node) : Restores (r.memberAccess owner)
  constructedRule : Restores r.constructedRule
  callRule : Restores r.callRule
  unaryRule : Restores r.unaryRule
  binaryRule (power : Nat) : Restores (r.binaryRule power)
  conditional : Restores r.conditional
  arrow : Restores r.arrow
  assignmentRule : Restores r.assignmentRule
  declaration (kind : DeclarationKind) : Restores (r.declaration kind)
  condition : Restores r.condition
  ifElse : Restores r.ifElse
  loopStart : Restores r.loopStart
  loop : Restores r.loop
  tryCatch : Restores r.tryCatch
  wordStatement (word : String) : Restores (r.wordStatement word)
  statementRule : Restores r.statementRule

namespace Models

variable {r : Flagged} {g : Grammar} (h : r.Models g)

include h

/-- Every rule leaves the flag as it found it. -/
theorem restoring : r.Restoring where
  expression := restores_of_follows fun noIn => ⟨_, h.expression noIn⟩
  block := restores_of_follows fun noIn => ⟨_, h.block noIn⟩
  arguments := restores_of_follows fun _ => ⟨_, h.arguments⟩
  parameter := restores_of_follows fun _ => ⟨_, h.parameter⟩
  parameters := restores_of_follows fun _ => ⟨_, h.parameters⟩
  functionRest form id := restores_of_follows fun _ => ⟨_, h.functionRest form id⟩
  function form := restores_of_follows fun _ => ⟨_, h.function form⟩
  memberKey := restores_of_follows fun _ => ⟨_, h.memberKey⟩
  property := restores_of_follows fun noIn => (h.property noIn).imp fun _ hp => hp.1
  object := restores_of_follows fun _ => ⟨_, h.object⟩
  array := restores_of_follows fun _ => ⟨_, h.array⟩
  method := restores_of_follows fun _ => ⟨_, h.method⟩
  classDef expression := restores_of_follows fun _ => ⟨_, h.classDef expression⟩
  wordOperand text := restores_of_follows fun _ => ⟨_, h.wordOperand text⟩
  primary := restores_of_follows fun _ => ⟨_, h.primary⟩
  memberAccess owner := restores_of_follows fun _ => ⟨_, h.memberAccess owner⟩
  constructedRule := restores_of_follows fun _ => ⟨_, h.constructedRule⟩
  callRule := restores_of_follows fun _ => ⟨_, h.callRule⟩
  unaryRule := restores_of_follows fun _ => ⟨_, h.unaryRule⟩
  binaryRule power := restores_of_follows fun noIn => ⟨_, h.binaryRule noIn power⟩
  conditional := restores_of_follows fun noIn => ⟨_, h.conditional noIn⟩
  arrow := restores_of_follows fun noIn => ⟨_, h.arrow noIn⟩
  assignmentRule := restores_of_follows fun noIn => ⟨_, h.assignmentRule noIn⟩
  declaration kind := restores_of_follows fun noIn => ⟨_, h.declaration noIn kind⟩
  condition := restores_of_follows fun _ => ⟨_, h.condition⟩
  ifElse := restores_of_follows fun noIn => ⟨_, h.ifElse noIn⟩
  loopStart := restores_of_follows fun _ => ⟨_, h.loopStart⟩
  loop := restores_of_follows fun noIn => ⟨_, h.loop noIn⟩
  tryCatch := restores_of_follows fun noIn => ⟨_, h.tryCatch noIn⟩
  wordStatement word := restores_of_follows fun noIn => ⟨_, h.wordStatement noIn word⟩
  statementRule := restores_of_follows fun noIn => ⟨_, h.statementRule noIn⟩

omit h in
/-- A sign that is seen is the next word, and nothing has been taken. -/
theorem next?_of_sees {sign : Punct} {stream rest : TokenStream}
    (h : sees sign stream = .ok (true, rest)) : stream = rest ∧ rest.next? = some (.punct sign) := by
  rw [Parser.watches_sees] at h
  obtain ⟨hSign, rfl⟩ := Prod.mk.inj (Except.ok.inj h)
  refine ⟨rfl, ?_⟩
  rw [TokenStream.next?, List.head?_eq_getElem?]
  dsimp only at hSign
  cases hWord : stream.words[0]?.map Located.word with
  | none => simp [hWord] at hSign
  | some w =>
      cases w with
      | punct p => simpa [hWord, Lexeme.isSign] using hSign
      | _ => simp [hWord, Lexeme.isSign] at hSign

/-- Only a body that is a block lets the flag in. -/
theorem ignores_arrow {stream : TokenStream}
    (hBody : ∀ params rest, g.arrowHead stream = .ok (params, rest) →
      rest.next? = some (.punct .openBrace) → Ignores r.block rest) : Ignores r.arrow stream := by
  refine .bind h.arrowHead fun params rest hHead => ?_
  refine .bind (.lift (sees .openBrace)) fun brace rest' hSees => ?_
  cases brace with
  | false => exact ignores_of_follows (.done (.under (h.assignment false))) rest'
  | true =>
      obtain ⟨rfl, hBrace⟩ := next?_of_sees hSees
      exact (hBody params rest hHead hBrace).done

end Models

/-- A reading that succeeds with the flag set is the same with the flag clear. -/
theorem ignores_of_relaxes {α : Type} {a : Ambient α} {p q : Parser α} {stream : TokenStream}
    (hSet : Follows (· = true) a p) (hClear : Follows (· = false) a q) (h : Parser.Relaxes p q)
    {x : α} (hRun : (a ⟨stream, true⟩).1 = .ok x) (hNot : ¬ (a ⟨stream, true⟩).2.stream.AtIn) :
    Ignores a stream := by
  obtain ⟨result, rest, hTrue, hResult⟩ := hSet stream
  obtain ⟨result', rest', hFalse, hResult'⟩ := hClear stream
  unfold Ignores
  rw [hTrue true rfl] at hRun hNot ⊢
  rw [hFalse false rfl]
  obtain rfl : result = .ok x := hRun
  have hSame := hResult'.trans (h stream x rest hResult.symm hNot)
  cases result' with
  | error fault => cases hSame
  | ok y =>
      cases hSame
      exact ⟨rfl, rfl⟩

/-- The restriction of a loop head reaches the operators of the head and the blocks of arrow functions
in it. An operand is read alike in the head and elsewhere, and so is an arrow function whose body is
an expression, or a block that is itself read alike. An arrow function that can be read in the head is
read alike elsewhere, unless the word `in` follows it; so a block in the head may be refused, but it
is not taken for another. Every rule gives the flag back as it was, and reads what the rule that is
told the restriction reads. -/
theorem restriction_confined (n : Nat) :
    (∀ stream, Ignores (level n).unaryRule stream) ∧
    (∀ stream, (∀ params rest, (Grammar.level n).arrowHead stream = .ok (params, rest) →
        rest.next? = some (.punct .openBrace) → Ignores (level n).block rest) →
      Ignores (level n).arrow stream) ∧
    (∀ stream e, ((level n).arrow ⟨stream, true⟩).1 = .ok e →
      ¬ ((level n).arrow ⟨stream, true⟩).2.stream.AtIn → Ignores (level n).arrow stream) ∧
    (level n).Restoring ∧ (level n).Models (Grammar.level n) := by
  have hModels := models_level n
  refine ⟨fun stream => ignores_of_follows hModels.unaryRule stream, fun stream hBody => ?_,
    fun stream e hRun hNot => ?_, hModels.restoring, hModels⟩
  · exact hModels.ignores_arrow hBody
  · exact ignores_of_relaxes (hModels.arrow true) (hModels.arrow false) (relaxed_level n).arrow hRun hNot

/-- In the head of a loop, `x => a in b` is read to its end, and `x => { }` as elsewhere. -/
theorem restriction_confined_body : ∃ expression block : TokenStream,
    expression.words.map Located.word = [.name "x", .punct .arrow, .name "a", .name "in", .name "b"] ∧
    block.words.map Located.word = [.name "x", .punct .arrow, .punct .openBrace, .punct .closeBrace] ∧
    Ignores (level 9).arrow expression ∧ Ignores (level 9).arrow block ∧
    ((level 9).arrow ⟨expression, true⟩).2.stream.words.length = 0 := by
  let expression : TokenStream :=
    ⟨[.name "x", .punct .arrow, .name "a", .name "in", .name "b"].map (⟨·, ⟨0, 0⟩, false⟩), ⟨0, 0⟩⟩
  let block : TokenStream :=
    ⟨[.name "x", .punct .arrow, .punct .openBrace, .punct .closeBrace].map (⟨·, ⟨0, 0⟩, false⟩), ⟨0, 0⟩⟩
  obtain ⟨-, hExpression, hBlock, -⟩ := restriction_confined 9
  refine ⟨expression, block, rfl, rfl, hExpression expression fun params rest hHead hBrace => ?_,
    hBlock block (.function .arrow none [.ident "x"] (.block [])) rfl nofun, by decide +kernel⟩
  obtain ⟨-, rfl⟩ := Prod.mk.inj (Except.ok.inj hHead)
  cases hBrace

/-- The block of an arrow function is read with the flag as it is. So `() => { a in b; }` cannot stand
in the head of a loop, where a function of the other kind with the same block can. -/
theorem arrow_block_restricted :
    (∃ stream, ¬ Ignores (level 12).arrow stream) ∧
      (Node.parseProgram "for (f = () => \x7b a in b; \x7d; ; ) ;").toOption.isNone ∧
      (Node.parseProgram "for (f = function () \x7b a in b; \x7d; ; ) ;").toOption.isSome := by
  refine ⟨⟨⟨[.punct .openParen, .punct .closeParen, .punct .arrow, .punct .openBrace, .name "a",
    .name "in", .name "b", .punct .closeBrace].map (⟨·, ⟨0, 0⟩, false⟩), ⟨0, 0⟩⟩, ?_⟩, ?_⟩
  · intro hIgnores
    have hLength := congrArg (·.words.length) hIgnores.2
    revert hLength
    decide +kernel
  · decide +kernel

end Flagged

end CodeShape
