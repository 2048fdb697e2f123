import CodeShape.Search

/-! Solutions of composed searches. Lazy streams are only a way to compute lists: putting searches
one after the other concatenates their solutions, and going on from each solution is a flat map.
Events between solutions play no part in this. -/
namespace CodeShape.Search

variable {ε α β γ : Type}

/-- Run a search with something that takes or turns down each solution. The search stops at the
first one that is taken; turning one down makes it compute the next. The events are those before the
stop. -/
def stopAt (accept : α → Bool) : Search ε α → Option α × List ε
  | done => (none, [])
  | found a rest => if accept a then (some a, []) else (rest ()).stopAt accept
  | event e rest =>
    let (a, events) := (rest ()).stopAt accept
    (a, e :: events)

/-- A search stops at the first acceptable member of its list of solutions. -/
theorem stopAt_fst (accept : α → Bool) (s : Search ε α) :
    (s.stopAt accept).1 = s.solutions.find? accept := by
  induction s with
  | done => rfl
  | found a rest ih =>
      by_cases hAccept : accept a
      · simp [stopAt, solutions, hAccept]
      · simpa [stopAt, solutions, hAccept] using ih ()
  | event e rest ih => exact ih ()

/-- Taking the first solution is accepting any. -/
theorem first_fst (s : Search ε α) : s.first.1 = s.solutions.head? := by
  induction s with
  | done => rfl
  | found a rest ih => rfl
  | event e rest ih => exact ih ()

@[simp]
theorem solutions_done : (done : Search ε α).solutions = [] := rfl

@[simp]
theorem solutions_one (a : α) : (one a : Search ε α).solutions = [a] := rfl

/-- An alternative adds its solutions after those of the first search. -/
@[simp]
theorem solutions_orElse (s : Search ε α) (t : Unit → Search ε α) :
    (s.orElse t).solutions = s.solutions ++ (t ()).solutions := by
  induction s with
  | done => rfl
  | found a rest ih => simp [orElse, solutions, ih]
  | event e rest ih => simpa [orElse, solutions] using ih ()

/-- A search after another has its solutions grouped by the solution it starts from. -/
@[simp]
theorem solutions_andThen (s : Search ε α) (f : α → Search ε β) :
    (s.andThen f).solutions = s.solutions.flatMap fun a => (f a).solutions := by
  induction s with
  | done => rfl
  | found a rest ih => simp [andThen, solutions, ih]
  | event e rest ih => simpa [andThen, solutions] using ih ()

/-- The solutions over some items are grouped by item. -/
@[simp]
theorem solutions_firstOf (f : α → Search ε β) (items : List α) :
    (firstOf f items).solutions = items.flatMap fun a => (f a).solutions := by
  induction items with
  | nil => rfl
  | cons a items ih => simp [firstOf, ih]

/-- Inquiries change no solution. -/
@[simp]
theorem solutions_after (events : List ε) (s : Search ε α) :
    (after events s).solutions = s.solutions := by
  induction events with
  | nil => rfl
  | cons e events ih => simpa [after, solutions] using ih

/-- A probe has one solution: whether there is any. -/
theorem solutions_succeeds (s : Search ε α) :
    s.succeeds.solutions = [!s.solutions.isEmpty] := by
  induction s with
  | done => rfl
  | found a rest ih => rfl
  | event e rest ih => simpa [succeeds, solutions] using ih ()

/-- A committed search has the solutions of one element, the first whose probe finds anything, and
those of no other. -/
theorem solutions_committed (probe : α → Search ε γ) (run : α → Search ε β) (items : List α) :
    (committed probe run items).solutions =
      ((items.find? fun a => !(probe a).solutions.isEmpty).map fun a =>
        (run a).solutions).getD [] := by
  induction items with
  | nil => rfl
  | cons a items ih =>
      rw [committed, solutions_andThen, solutions_succeeds, List.find?_cons]
      cases hProbe : !(probe a).solutions.isEmpty with
      | true => simp
      | false => simpa using ih

/-- Searches that agree on every element of a list agree in turn. -/
theorem firstOf_congr {f g : α → Search ε β} {items : List α}
    (h : ∀ a ∈ items, f a = g a) : firstOf f items = firstOf g items := by
  induction items with
  | nil => rfl
  | cons a items ih =>
      rw [firstOf, firstOf, h a (by simp), ih fun x hx => h x (by simp [hx])]

/-- Committed searches agree if probes and runs agree on every element. -/
theorem committed_congr {probe probe' : α → Search ε γ} {run run' : α → Search ε β}
    {items : List α} (hProbe : ∀ a ∈ items, probe a = probe' a)
    (hRun : ∀ a ∈ items, run a = run' a) :
    committed probe run items = committed probe' run' items := by
  induction items with
  | nil => rfl
  | cons a items ih =>
      have hRest := ih (fun x hx => hProbe x (by simp [hx])) (fun x hx => hRun x (by simp [hx]))
      simp only [committed, hProbe a (by simp), hRun a (by simp), hRest]

end CodeShape.Search
