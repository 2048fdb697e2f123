import CodeShape.Capture
import CodeShape.Text.Blank

/-!
Conditions on what named wildcards stand for. A condition reads some variables and is asked as soon
as all of them have a value.
-/
namespace CodeShape

/-- The answer of a condition. -/
inductive Verdict where
  | pass
  | fail
  /-- Rejected for a reason that the user should see if nothing is found. -/
  | failure (message : String)
deriving DecidableEq, Repr

/-- A condition on the values of some variables, which it takes in the order of the list. -/
structure Constraint where
  vars : List String
  test : List Capture → Verdict

/-- One question to a condition, and its answer. -/
structure Inquiry where
  values : List Capture
  verdict : Verdict
deriving Repr

namespace Inquiry

def render (q : Inquiry) : String :=
  let answer := match q.verdict with
    | .pass => "pass"
    | .fail => "fail"
    | .failure _ => "failure"
  " | ".intercalate (q.values.map Capture.render) ++ " -> " ++ answer

def reason? (q : Inquiry) : Option String :=
  match q.verdict with
  | .failure message => some message
  | _ => none

end Inquiry

namespace Constraint

/-- A variable's name without the sign that patterns write in front of it. -/
def plainName (name : String) : String :=
  match name.toList with
  | '$' :: rest => String.ofList rest
  | cs => String.ofList cs

/-- A condition on the listed variables, whose names may have the sign in front. -/
def on (names : List String) (test : List Capture → Verdict) : Constraint :=
  ⟨names.map plainName, test⟩

def trimmed (cs : List Char) : List Char :=
  ((cs.dropWhile Text.isBlank).reverse.dropWhile Text.isBlank).reverse

/-- The parts of a text between commas, without white space around them, and without empty parts. -/
def commaParts (text : String) : List String :=
  let step (parts : List Char × List (List Char)) (c : Char) :=
    if c == ',' then ([], parts.2 ++ [parts.1]) else (parts.1 ++ [c], parts.2)
  let (last, parts) := text.toList.foldl step ([], [])
  ((parts ++ [last]).map trimmed).filter (!·.isEmpty) |>.map String.ofList

/-- A condition on the variables of a list written with commas. -/
def keyed (key : String) (test : List Capture → Verdict) : Constraint := on (commaParts key) test

/-- Asks the condition, if all of its variables have a value. -/
def evaluate? (c : Constraint) (value? : String → Option Capture) : Option Inquiry := do
  let values ← c.vars.mapM value?
  return ⟨values, c.test values⟩

def describe (c : Constraint) : String :=
  "Constraint \x7b vars: [" ++ ", ".intercalate (c.vars.map Text.quotedString) ++ "], .. \x7d"

/-- Asks the conditions that read a variable and have a value for all of their variables, up to the
first that rejects. The questions asked, and that rejection or else a pass. -/
def check (value? : String → Option Capture) (name : String) :
    List Constraint → List Inquiry × Verdict
  | [] => ([], .pass)
  | c :: rest =>
    if !c.vars.contains name then check value? name rest
    else
      match c.evaluate? value? with
      | none => check value? name rest
      | some q =>
        if q.verdict = .pass then
          let (asked, verdict) := check value? name rest
          (q :: asked, verdict)
        else ([q], q.verdict)

end Constraint

end CodeShape
