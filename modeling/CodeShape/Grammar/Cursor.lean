import CodeShape.Fault
import CodeShape.Token.Basic

/-!
Reading a token stream from the front. A parser takes some tokens off the stream or points at the
token that it cannot take.
-/
namespace CodeShape

/-- Reads something off the front of a token stream. -/
abbrev Parser (α : Type) := StateT TokenStream (Except Fault) α

namespace Parser

variable {α : Type}

/-- The word `n` places ahead. There is none past the end. -/
def ahead? (n : Nat) : Parser (Option Lexeme) :=
  return (← get).words[n]?.map Located.word

def next? : Parser (Option Lexeme) := ahead? 0

def atEnd : Parser Bool := return (← get).words.isEmpty

/-- Whether the next word stands on a new line. The end of the stream counts as one. -/
def onNewLine : Parser Bool := return (← get).words.head?.all Located.afterLineEnd

/-- The place of the next word, or of the end. -/
def place : Parser Text.Span := do
  let stream ← get
  return (stream.words.head?.map Located.span).getD stream.stop

/-- Takes the next word, if there is one. -/
def advance : Parser Unit := modify fun stream => ⟨stream.words.tail, stream.stop⟩

/-- Whether the word `n` places ahead is the sign. -/
def signAhead (n : Nat) (sign : Punct) : Parser Bool := do
  match ← ahead? n with
  | some (.punct p) => return p == sign
  | _ => return false

/-- Whether the word `n` places ahead is the name. -/
def nameAhead (n : Nat) (name : String) : Parser Bool := do
  match ← ahead? n with
  | some (.name text) => return text == name
  | _ => return false

def sees (sign : Punct) : Parser Bool := signAhead 0 sign

/-- Whether the next word is one of the signs. -/
def seesAny (signs : List Punct) : Parser Bool := do
  match ← next? with
  | some (.punct p) => return signs.contains p
  | _ => return false

def seesName (name : String) : Parser Bool := nameAhead 0 name

/-- Whether the next word is a name or a keyword. -/
def seesWord : Parser Bool := do
  match ← next? with
  | some (.name _) => return true
  | _ => return false

/-- Takes the next word if it is the sign, and tells whether it was. -/
def eat (sign : Punct) : Parser Bool := do
  if ← sees sign then
    advance
    return true
  else return false

/-- Takes the next word if it is the name, and tells whether it was. -/
def eatName (name : String) : Parser Bool := do
  if ← seesName name then
    advance
    return true
  else return false

def fail (cause : Cause) : Parser α := do throw ⟨cause, ← place⟩

/-- Fails since the next word is not what was wanted. -/
def expected (wanted : String) : Parser α := do
  let found := ((← next?).map Lexeme.render).getD endOfInput
  fail (.expected wanted found)

/-- Fails since the next word starts something that is left out of the language. -/
def unsupported (feature : Feature) : Parser α := fail (.unsupported feature)

/-- Takes the sign, which has to come next. -/
def expect (sign : Punct) : Parser Unit := do
  if ← eat sign then return () else expected sign.text

def identifier : Parser String := do
  match ← next? with
  | some (.name text) =>
    if keywords.contains text then expected "an identifier"
    else
      advance
      return text
  | _ => expected "an identifier"

/-- Takes the name of a property, which may be a keyword. -/
def propertyName : Parser String := do
  match ← next? with
  | some (.name text) =>
    advance
    return text
  | _ => expected "a property name"

/-- Repeats a step until it gives nothing, at most `limit` times. -/
def collect (step : Parser (Option α)) : (limit : Nat) → Parser (List α)
  | 0 => return []
  | limit + 1 => do
    match ← step with
    | none => return []
    | some a => return a :: (← collect step limit)

/-- Repeats a step until it gives nothing. The step has to take a word whenever it gives
something. -/
def many (step : Parser (Option α)) : Parser (List α) := do
  collect step ((← get).words.length + 1)

/-- Extends a value until a step has nothing to add, at most `limit` times. -/
def extend (step : α → Parser (Option α)) (a : α) : (limit : Nat) → Parser α
  | 0 => return a
  | limit + 1 => do
    match ← step a with
    | none => return a
    | some b => extend step b limit

/-- Extends a value until a step has nothing to add. The step has to take a word whenever it adds
something. -/
def grow (step : α → Parser (Option α)) (a : α) : Parser α := do
  extend step a ((← get).words.length + 1)

/-- Items up to a closing sign, which is taken. An item may give several values or none. -/
def enclosed (close : Punct) (item : Parser (List α)) : Parser (List α) :=
  List.flatten <$> many do
    if ← eat close then return none else return some (← item)

/-- Items divided by commas up to a closing sign, which is taken. A comma may follow the last
item. -/
def listed (close : Punct) (item : Parser α) : Parser (List α) :=
  enclosed close do
    let a ← item
    unless ← sees close do expect .comma
    return [a]

/-- One item, and more of them after commas. -/
def commaSeparated (item : Parser α) : Parser (List α) := do
  let first ← item
  return first :: (← many do
    if ← eat .comma then return some (← item) else return none)

/-- Reads another stream to its end. -/
def inside (stream : TokenStream) (p : Parser α) (wanted : String) : Parser α := do
  let p : Parser α := do
    let a ← p
    if ← atEnd then return a else expected wanted
  match p.run stream with
  | .ok (a, _) => return a
  | .error fault => throw fault

end Parser

end CodeShape
