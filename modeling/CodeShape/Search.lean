/-!
Searching with backtracking. A search is the stream of its solutions, in the order in which they are
tried, with the events that happen on the way. What comes after a solution is computed only if that
solution is turned down.
-/
namespace CodeShape

/-- A stream of solutions and events. -/
inductive Search (ε α : Type) where
  | done
  | found (solution : α) (rest : Unit → Search ε α)
  | event (e : ε) (rest : Unit → Search ε α)

namespace Search

variable {ε α β : Type}

def one (a : α) : Search ε α := found a fun _ => done

def orElse : Search ε α → (Unit → Search ε α) → Search ε α
  | done, t => t ()
  | found a rest, t => found a fun _ => (rest ()).orElse t
  | event e rest, t => event e fun _ => (rest ()).orElse t

/-- Goes on with every solution in turn. -/
def andThen : Search ε α → (α → Search ε β) → Search ε β
  | done, _ => done
  | found a rest, f => (f a).orElse fun _ => (rest ()).andThen f
  | event e rest, f => event e fun _ => (rest ()).andThen f

/-- The searches of all elements of a list in turn. -/
def firstOf (f : α → Search ε β) : List α → Search ε β
  | [] => done
  | a :: as => (f a).orElse fun _ => firstOf f as

/-- The search with some events before it. -/
def after (events : List ε) (s : Search ε α) : Search ε α :=
  events.foldr (fun e s => event e fun _ => s) s

/-- Whether there is a solution, as the one solution of a search with the events up to it. -/
def succeeds : Search ε α → Search ε Bool
  | done => one false
  | found _ _ => one true
  | event e rest => event e fun _ => (rest ()).succeeds

/-- The search of the first element whose probe has a solution, and of no other element. The events
of the probes come first. -/
def committed {γ : Type} (probe : α → Search ε γ) (run : α → Search ε β) : List α → Search ε β
  | [] => done
  | a :: as =>
    (probe a).succeeds.andThen fun found => if found then run a else committed probe run as

def solutions : Search ε α → List α
  | done => []
  | found a rest => a :: (rest ()).solutions
  | event _ rest => (rest ()).solutions

/-- The first solution, and the events before it in order. Without a solution, all events. -/
def first : Search ε α → Option α × List ε
  | done => (none, [])
  | found a _ => (some a, [])
  | event e rest =>
    let (a, events) := (rest ()).first
    (a, e :: events)

end Search

end CodeShape
