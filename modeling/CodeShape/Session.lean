import CodeShape.Finder
import CodeShape.Injection

/-!
A series of matches and injections that share their conditions and what was found last. A step that
fails changes nothing.
-/
namespace CodeShape

/-- What the steps of a series share. -/
structure Session where
  conditions : Conditions
  bindings : Bindings
  /-- The tree made by the last injection. -/
  last : Node

namespace Session

/-- Nothing asked for and nothing found. -/
def start : Session := ⟨⟨[], none, false⟩, .empty, .empty⟩

def addConstraint (s : Session) (c : Constraint) : Session :=
  { s with conditions.constraints := s.conditions.constraints ++ [c] }

def setConstraints (s : Session) (cs : List Constraint) : Session :=
  { s with conditions.constraints := cs }

/-- Sets whether statements take the first place where they fit. -/
def setOrderMatters (s : Session) (value : Bool) : Session :=
  { s with conditions.orderMatters := value }

def setRules (s : Session) (rules : Rules) : Session :=
  { s with conditions.rules := some rules }

/-- Keeps what a match found. -/
def keep (s : Session) : Outcome → Session
  | .matched bindings => { s with bindings := bindings }
  | .failed _ => s

def bind (s : Session) (name : String) (value : Capture) : Session :=
  { s with bindings := s.bindings.insert name value }

def unbind (s : Session) (name : String) : Session :=
  { s with bindings := s.bindings.erase name }

/-- Adds a nameless value after the others. -/
def addAnonymous (s : Session) (value : Capture) : Session :=
  { s with bindings.anonymous := s.bindings.anonymous ++ [value] }

def inject (s : Session) (pattern : PatternSource) : Except Misuse (Node × Session) := do
  let n ← Pattern.injectInto pattern s.bindings
  return (n, { s with last := n })

/-- Fills the root of what was found with what was found in it. -/
def restore (s : Session) : Except Misuse (Node × Session) :=
  s.inject (.tree (.program [s.bindings.root]))

end Session

end CodeShape
