import CodeShape.Grammar.Expression
import CodeShape.Token.Scanner

/-!
The grammar of statements, and the trees of whole texts. A statement may end without a semicolon
before a closing brace, at the end of the text and at the end of a line.
-/
namespace CodeShape

open CodeShape.Parser

namespace Grammar

/-- Whether a statement may end here without a semicolon. -/
def mayEnd : Parser Bool := do
  return (← sees .closeBrace) || (← atEnd) || (← onNewLine)

def statementEnd : Parser Unit := do
  if ← eat .semicolon then return ()
  else if ← mayEnd then return ()
  else expected Punct.semicolon.text

def declarationKind? : Lexeme → Option DeclarationKind
  | .name "var" => some .var
  | .name "let" => some .let
  | .name "const" => some .const
  | _ => none

variable (g : Grammar)

def declarator (noIn : Bool) : Parser Node := do
  if ← seesAny [.openBracket, .openBrace] then unsupported .destructuring
  else
    let id := Node.ident (← identifier)
    let init ← if ← eat (.assign .plain) then some <$> g.assignment noIn else pure none
    return .declarator id init

/-- The variables of a declaration, after its keyword. -/
def declaration (noIn : Bool) (kind : DeclarationKind) : Parser Node := do
  advance
  return .declaration kind (← commaSeparated (g.declarator noIn))

/-- An expression, at the level of the rules that use it. -/
def expressionRule (noIn : Bool) : Parser Node := expressionOf (g.assignmentRule noIn)

/-- An expression after a token. -/
def expression (noIn : Bool) : Parser Node := expressionOf (g.assignment noIn)

def condition : Parser Node := do
  expect .openParen
  let test ← g.expression false
  expect .closeParen
  return test

def ifElse (noIn : Bool) : Parser Node := do
  advance
  let test ← g.condition
  let consequent ← g.statement noIn
  let alternate ← if ← eatName "else" then some <$> g.statement noIn else pure none
  return .ifElse test consequent alternate

/-- The start of a loop head: nothing, a declaration or an expression. -/
def loopStart : Parser (Option Node) := do
  match ← next? with
  | some (.punct .semicolon) => return none
  | word =>
    match word.bind declarationKind? with
    | some kind => some <$> g.declaration true kind
    | none => some <$> g.expression true

/-- The rest of a loop over keys or values. -/
def forEachRest (noIn : Bool) (left : Node) (overValues : Bool) : Parser Node := do
  advance
  let right ← if overValues then g.assignment noIn else g.expression noIn
  expect .closeParen
  let body ← g.statement noIn
  return .forEach left right body overValues

/-- The rest of a counting loop. -/
def forLoopRest (noIn : Bool) (init : Option Node) : Parser Node := do
  expect .semicolon
  let test ← if ← sees .semicolon then pure none else some <$> g.expression noIn
  expect .semicolon
  let step ← if ← sees .closeParen then pure none else some <$> g.expression noIn
  expect .closeParen
  let body ← g.statement noIn
  return .forLoop init test step body

def loop (noIn : Bool) : Parser Node := do
  advance
  if ← seesName "await" then unsupported .async
  expect .openParen
  let init ← g.loopStart
  let overValues ← seesName "of"
  match init with
  | some left =>
    if overValues || (← seesName "in") then g.forEachRest noIn left overValues
    else g.forLoopRest noIn init
  | none => g.forLoopRest noIn init

/-- The parameter of a handler, with its parentheses, if there is one. -/
def handlerParam : Parser (Option Node) := do
  if ← eat .openParen then
    if ← seesAny [.openBracket, .openBrace] then unsupported .destructuring
    else
      let name ← identifier
      expect .closeParen
      return some (.ident name)
  else return none

/-- A block with a handler for errors, with a block to run in any case, or with both. -/
def tryCatch (noIn : Bool) : Parser Node := do
  advance
  let body ← g.block noIn
  let (param, handler) ←
    if ← eatName "catch" then do
      let param ← handlerParam
      let handler ← g.block noIn
      pure (param, some handler)
    else pure (none, none)
  let finalizer ← if ← eatName "finally" then some <$> g.block noIn else pure none
  if handler.isNone && finalizer.isNone then expected "catch or finally"
  else return .tryCatch body param handler finalizer

/-- A statement that leaves a loop or its current round. -/
def jump (n : Node) : Parser Node := do
  advance
  if (← seesWord) && !(← onNewLine) then unsupported .labels
  else
    statementEnd
    return n

def expressionStatement (noIn : Bool) : Parser Node := do
  let e ← g.expressionRule noIn
  statementEnd
  return .expr e

/-- A statement that starts with a word. -/
def wordStatement (noIn : Bool) (word : String) : Parser Node := do
  match word with
  | "function" => g.function .declaration
  | "class" => g.classDef false
  | "if" => g.ifElse noIn
  | "for" => g.loop noIn
  | "while" =>
    advance
    let test ← g.condition
    return .whileLoop test (← g.statement noIn)
  | "do" =>
    advance
    let body ← g.statement noIn
    unless ← eatName "while" do expected "while"
    let test ← g.condition
    discard (eat .semicolon)
    return .doWhile body test
  | "return" =>
    advance
    let argument ←
      if (← sees .semicolon) || (← mayEnd) then pure none else some <$> g.expression noIn
    statementEnd
    return .returns argument
  | "break" => jump .breaks
  | "continue" => jump .continues
  | "throw" =>
    advance
    let argument ← g.expression noIn
    statementEnd
    return .throws argument
  | "try" => g.tryCatch noIn
  | "switch" => unsupported .switches
  | "import" | "export" => unsupported .modules
  | "with" => unsupported .withStatements
  | "debugger" => unsupported .debuggers
  | _ =>
    if ← signAhead 1 .colon then unsupported .labels else g.expressionStatement noIn

def statementRule (noIn : Bool) : Parser Node := do
  match ← next? with
  | some (.punct .openBrace) => g.block noIn
  | some (.punct .semicolon) =>
    advance
    return .empty
  | some (.name word) =>
    match declarationKind? (.name word) with
    | some kind =>
      let declaration ← g.declaration noIn kind
      statementEnd
      return declaration
    | none => g.wordStatement noIn word
  | _ => g.expressionStatement noIn

/-- Rules that take nothing. -/
def ground : Grammar where
  statement _ := expected "a statement"
  assignment _ := expected "an expression"
  binary _ _ := expected "an expression"
  unary := expected "an expression"
  call := expected "an expression"
  constructed := expected "an expression"

/-- The rules of the level above. -/
def lifted : Grammar where
  statement := g.statementRule
  assignment := g.assignmentRule
  binary := g.binaryRule
  unary := g.unaryRule
  call := g.callRule
  constructed := g.constructedRule

/-- The rules of a level. Each level below the first is entered after taking a token, so a level
above the number of tokens never gets down to the ground. -/
def level : Nat → Grammar
  | 0 => ground
  | n + 1 => (level n).lifted

end Grammar

mutual

/-- The number of tokens that a token is made of: templates count what is in them. -/
def Lexeme.weight : Lexeme → Nat
  | .template _ parts => Lexeme.partsWeight parts + 1
  | _ => 1

/-- The number of tokens in the expressions of a template. -/
def Lexeme.partsWeight : List (Words Lexeme) → Nat
  | [] => 0
  | ⟨words, _⟩ :: parts => Lexeme.wordsWeight words + Lexeme.partsWeight parts

/-- The number of tokens in a list. -/
def Lexeme.wordsWeight : List (Located Lexeme) → Nat
  | [] => 0
  | ⟨word, _, _⟩ :: words => word.weight + Lexeme.wordsWeight words

end

/-- The rules for a stream, at a level that it cannot exhaust. -/
def TokenStream.grammar (stream : TokenStream) : Grammar :=
  Grammar.level (Lexeme.wordsWeight stream.words + 1)

namespace Node

/-- The program that a text holds. -/
def parseProgram (text : String) : Except Fault Node := do
  let stream ← TokenStream.ofText text
  let g := stream.grammar
  let statements : Parser (List Node) := many do
    if ← atEnd then return none else return some (← g.statement false)
  let (body, _) ← statements.run stream
  return .program body

/-- The single expression that a text holds. A semicolon may follow it. -/
def parseExpression (text : String) : Except Fault Node := do
  let stream ← TokenStream.ofText text
  let single : Parser Node := do
    let e ← stream.grammar.assignment false
    discard (eat .semicolon)
    if ← atEnd then return e else expected endOfInput
  let (e, _) ← single.run stream
  return e

end Node

end CodeShape
