import CodeShape.Text.Position
import CodeShape.Text.Quoted

/-! What can be wrong with a text, and where. -/
namespace CodeShape

/-- Constructs that are valid in the language and deliberately left out. -/
inductive Feature where
  | labels | switches | modules | withStatements | debuggers | destructuring | async | generators
  | taggedTemplates | regularExpressions | superReferences | classFields
deriving DecidableEq, Repr

def Feature.text : Feature → String
  | labels => "labels"
  | switches => "switch statements"
  | modules => "modules"
  | withStatements => "with statements"
  | debuggers => "debugger statements"
  | destructuring => "destructuring patterns"
  | async => "async functions"
  | generators => "generators"
  | taggedTemplates => "tagged templates"
  | regularExpressions => "regular expression literals"
  | superReferences => "super references"
  | classFields => "class fields"

/-- Why a text is no program. -/
inductive Cause where
  /-- A character that starts no token. -/
  | unexpectedChar (c : Char)
  | unterminatedString
  | unterminatedTemplate
  | unterminatedComment
  /-- A text that starts like a number and is none. -/
  | invalidNumber (raw : String)
  | invalidEscape
  /-- Something else would have been acceptable. -/
  | expected (wanted found : String)
  | unsupported (feature : Feature)
  /-- An assignment or update of something that is neither a name nor a member. -/
  | invalidTarget
deriving DecidableEq, Repr

namespace Cause

def description : Cause → String
  | unexpectedChar _ => "Unexpected character"
  | unterminatedString => "Unterminated string literal"
  | unterminatedTemplate => "Unterminated template literal"
  | unterminatedComment => "Unterminated comment"
  | invalidNumber _ => "Invalid numeric literal"
  | invalidEscape => "Invalid escape sequence"
  | expected _ _ => "Unexpected token"
  | unsupported _ => "Unsupported syntax"
  | invalidTarget => "Invalid assignment target"

/-- The fault with its particulars, if it has any. -/
def message : Cause → String
  | unexpectedChar c => Text.quotedChar c ++ " cannot appear here"
  | invalidNumber raw => raw ++ " is not a valid number"
  | expected wanted found => "Expected " ++ wanted ++ ", found " ++ found
  | unsupported feature => feature.text ++ " are not supported"
  | cause => cause.description

end Cause

/-- A cause and the text that it points at. -/
structure Fault where
  cause : Cause
  span : Text.Span
deriving DecidableEq, Repr

end CodeShape
