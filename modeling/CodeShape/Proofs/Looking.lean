import CodeShape.Grammar.Statement

/-!
What a parser sees that only looks at the stream, and the pieces that the longer rules of the grammar
are made of.
-/
namespace CodeShape

namespace Lexeme

def isSign (sign : Punct) : Lexeme → Bool
  | .punct p => p == sign
  | _ => false

def isOneOf (signs : List Punct) : Lexeme → Bool
  | .punct p => signs.contains p
  | _ => false

def isName (name : String) : Lexeme → Bool
  | .name text => text == name
  | _ => false

/-- Whether the word is a name or a keyword. -/
def isWord : Lexeme → Bool
  | .name _ => true
  | _ => false

end Lexeme

namespace Parser

variable {α : Type}

/-- The parser only looks at the stream. -/
def Watches (p : Parser α) (view : TokenStream → α) : Prop :=
  ∀ stream, p stream = .ok (view stream, stream)

/-- A word ahead is looked at where it stands. -/
theorem bind_ahead? (n : Nat) (f : Option Lexeme → Parser α) (stream : TokenStream) :
    (ahead? n >>= f) stream = f (stream.words[n]?.map Located.word) stream := rfl

/-- Looking for a sign ahead leaves the stream as it is. -/
theorem signAhead_run (n : Nat) (sign : Punct) (stream : TokenStream) :
    signAhead n sign stream =
      .ok ((stream.words[n]?.map Located.word).any (Lexeme.isSign sign), stream) := by
  rw [signAhead, bind_ahead?]
  rcases stream.words[n]?.map Located.word with _ | w
  · rfl
  · cases w <;> rfl

/-- Looking for a name ahead leaves the stream as it is. -/
theorem nameAhead_run (n : Nat) (name : String) (stream : TokenStream) :
    nameAhead n name stream =
      .ok ((stream.words[n]?.map Located.word).any (Lexeme.isName name), stream) := by
  rw [nameAhead, bind_ahead?]
  rcases stream.words[n]?.map Located.word with _ | w
  · rfl
  · cases w <;> rfl

theorem seesAny_run (signs : List Punct) (stream : TokenStream) :
    seesAny signs stream =
      .ok ((stream.words[0]?.map Located.word).any (Lexeme.isOneOf signs), stream) := by
  rw [seesAny, next?, bind_ahead?]
  rcases stream.words[0]?.map Located.word with _ | w
  · rfl
  · cases w <;> rfl

theorem seesWord_run (stream : TokenStream) :
    seesWord stream = .ok ((stream.words[0]?.map Located.word).any Lexeme.isWord, stream) := by
  rw [seesWord, next?, bind_ahead?]
  rcases stream.words[0]?.map Located.word with _ | w
  · rfl
  · cases w <;> rfl

theorem watches_sees (sign : Punct) :
    Watches (sees sign) fun s => (s.words[0]?.map Located.word).any (Lexeme.isSign sign) :=
  signAhead_run 0 sign

theorem watches_seesName (name : String) :
    Watches (seesName name) fun s => (s.words[0]?.map Located.word).any (Lexeme.isName name) :=
  nameAhead_run 0 name

theorem watches_get : Watches get fun s => s := fun _ => rfl

theorem watches_atEnd : Watches atEnd fun s => s.words.isEmpty := fun _ => rfl

/-- Whether the next word is on a new line is told without taking it. The end counts as one. -/
theorem watches_onNewLine : Watches onNewLine fun s => s.words.head?.all Located.afterLineEnd :=
  fun _ => rfl

theorem watches_place :
    Watches place fun s => (s.words.head?.map Located.span).getD s.stop := fun _ => rfl

end Parser

namespace Grammar

open CodeShape.Parser

/-- A modifier is told by the word and the sign after it. -/
theorem watches_seesModifier (word : String) :
    Watches (seesModifier word) fun s => (s.words[0]?.map Located.word).any (Lexeme.isName word) &&
      !(s.words[1]?.map Located.word).any (Lexeme.isOneOf
        [.openParen, .colon, .comma, .closeBrace, .assign .plain, .semicolon]) := by
  intro s
  unfold seesModifier
  rw [bind_ahead?]
  have hName : ∀ ends : Bool, (do return (← seesName word) && !ends : Parser Bool) s =
      .ok ((s.words[0]?.map Located.word).any (Lexeme.isName word) && !ends, s) := by
    intro ends
    change (seesName word s >>= _) = _
    rw [watches_seesName]
    rfl
  dsimp only
  rcases s.words[1]?.map Located.word with _ | w
  · exact hName false
  · cases w with
    | punct sign => exact hName _
    | _ => exact hName false

/-- Whether a statement may end is told without taking a word. -/
theorem watches_mayEnd :
    Watches mayEnd fun s => (s.words[0]?.map Located.word).any (Lexeme.isSign .closeBrace) ||
      s.words.isEmpty || s.words.head?.all Located.afterLineEnd := by
  intro s
  change (sees .closeBrace s >>= _) = _
  rw [watches_sees]
  rfl

def classRest (g : Grammar) (expression : Bool) (id : Option String) : Parser Node := do
  let superclass ← if ← eatName "extends" then some <$> g.call else pure none
  expect .openBrace
  let members ← enclosed .closeBrace do
    if ← eat .semicolon then return [] else return [← g.method]
  return .classDef (id.map .ident) superclass members expression

def tryRest (g : Grammar) (noIn : Bool) (body : Node) (param handler : Option Node) :
    Parser Node := do
  let finalizer ← if ← eatName "finally" then some <$> g.block noIn else pure none
  if handler.isNone && finalizer.isNone then expected "catch or finally"
  else return .tryCatch body param handler finalizer

/-- A word that is no keyword of an operand is a name. -/
theorem wordOperand_other {g : Grammar} {text : String}
    (h : text ∉ ["this", "true", "false", "null", "function", "class", "super", "import"]) :
    g.wordOperand text = (do return .ident (← identifier)) := by
  unfold wordOperand
  split
  all_goals first | rfl | simp at h

/-- A word that is no keyword of a statement starts an expression. -/
theorem wordStatement_other {g : Grammar} {noIn : Bool} {word : String}
    (h : word ∉ ["function", "class", "if", "for", "while", "do", "return", "break", "continue",
      "throw", "try", "switch", "import", "export", "with", "debugger"]) :
    g.wordStatement noIn word =
      (do if ← signAhead 1 .colon then unsupported .labels else g.expressionStatement noIn) := by
  unfold wordStatement
  split
  all_goals first | rfl | simp at h

end Grammar

end CodeShape
