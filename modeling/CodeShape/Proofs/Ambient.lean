import CodeShape.Grammar.Statement

/-!
Parsers with the restriction of a loop head as a flag in their state. The flag is set for the start of
the head, cleared for what stands in brackets, and each time set back to what it was. A parser of this
kind follows one that is told the restriction if it gives the same value, the same fault and the same
rest for a flag that says the same, and the flag itself back.
-/
namespace CodeShape

open CodeShape.Parser

/-- Where a parser stands: before some tokens, and in the head of a loop or not. -/
structure Cursor where
  stream : TokenStream
  noIn : Bool

/-- Reads something at a cursor. The cursor stays where it is if the reading fails. -/
abbrev Ambient (α : Type) := ExceptT Fault (StateM Cursor) α

namespace Ambient

variable {α β : Type}

/-- A parser that does not look at the flag. -/
def lift (p : Parser α) : Ambient α := fun c =>
  match p c.stream with
  | .ok (a, rest) => (.ok a, ⟨rest, c.noIn⟩)
  | .error fault => (.error fault, c)

instance : MonadLift Parser Ambient := ⟨lift⟩

def flag : Ambient Bool := fun c => (.ok c.noIn, c)

/-- Reads with the flag as given, and sets it back. -/
def under (noIn : Bool) (a : Ambient α) : Ambient α := fun c =>
  let (result, c') := a ⟨c.stream, noIn⟩
  (result, ⟨c'.stream, c.noIn⟩)

/-- Reads another stream. -/
def within (stream : TokenStream) (a : Ambient α) : Ambient α := fun c =>
  ((a ⟨stream, false⟩).1, c)

/-- After a part that ends well the next runs from where that stopped. -/
theorem run_bind_ok {a : Ambient α} {f : α → Ambient β} {c c' : Cursor} {x : α}
    (h : a c = (.ok x, c')) : (a >>= f) c = f x c' := by
  change (match a c with | (result, c') => ExceptT.bindCont f result c') = _
  rw [h]
  rfl

/-- After a fault nothing runs. -/
theorem run_bind_error {a : Ambient α} {f : α → Ambient β} {c c' : Cursor} {fault : Fault}
    (h : a c = (.error fault, c')) : (a >>= f) c = (.error fault, c') := by
  change (match a c with | (result, c') => ExceptT.bindCont f result c') = _
  rw [h]
  rfl

/-- From each stream and with each of the flags, the parser gives one result, leaves one rest and
gives the flag back. The result and the rest are those of the other parser. -/
def Follows (flags : Bool → Prop) (a : Ambient α) (p : Parser α) : Prop :=
  ∀ stream, ∃ result rest, (∀ b, flags b → a ⟨stream, b⟩ = (result, ⟨rest, b⟩)) ∧
    result.map (·, rest) = p stream

namespace Follows

variable {flags : Bool → Prop} {a : Ambient α} {p : Parser α}

/-- A parser that is lifted follows itself and leaves the flag alone. -/
theorem lift (p : Parser α) : Follows flags (liftM p : Ambient α) p := by
  intro stream
  cases hRun : p stream with
  | ok r =>
      refine ⟨.ok r.1, r.2, fun b _ => ?_, rfl⟩
      change (match p stream with
        | .ok (a, rest) => (Except.ok a, (⟨rest, b⟩ : Cursor))
        | .error fault => (.error fault, ⟨stream, b⟩)) = _
      rw [hRun]
  | error fault =>
      refine ⟨.error fault, stream, fun b _ => ?_, rfl⟩
      change (match p stream with
        | .ok (a, rest) => (Except.ok a, (⟨rest, b⟩ : Cursor))
        | .error fault => (.error fault, ⟨stream, b⟩)) = _
      rw [hRun]

theorem pure (x : α) : Follows flags (pure x) (pure x) :=
  fun stream => ⟨.ok x, stream, fun _ _ => rfl, rfl⟩

theorem throw (fault : Fault) : Follows flags (throw fault : Ambient α) (throw fault) :=
  fun stream => ⟨.error fault, stream, fun _ _ => rfl, rfl⟩

/-- Parts in sequence follow the flag if each does: it is as before when the second starts. -/
theorem bind {f : α → Ambient β} {q : α → Parser β} (h : Follows flags a p)
    (hf : ∀ x, Follows flags (f x) (q x)) : Follows flags (a >>= f) (p >>= q) := by
  intro stream
  obtain ⟨result, rest, hRun, hResult⟩ := h stream
  cases result with
  | error fault =>
      refine ⟨.error fault, rest, fun b hb => run_bind_error (hRun b hb), ?_⟩
      change _ = p stream >>= fun r => q r.1 r.2
      rw [← hResult]
      rfl
  | ok x =>
      obtain ⟨result', rest', hRun', hResult'⟩ := hf x rest
      refine ⟨result', rest', fun b hb => (run_bind_ok (hRun b hb)).trans (hRun' b hb), ?_⟩
      change _ = p stream >>= fun r => q r.1 r.2
      rw [← hResult]
      exact hResult'

theorem map (f : α → β) (h : Follows flags a p) : Follows flags (f <$> a) (f <$> p) := by
  rw [map_eq_pure_bind, map_eq_pure_bind]
  exact h.bind fun x => .pure (f x)

/-- Both branches of a test may use its outcome. -/
theorem ite {c : Prop} [Decidable c] {a' : Ambient α} {p' : Parser α} (h : c → Follows flags a p)
    (h' : ¬ c → Follows flags a' p') :
    Follows flags (if c then a else a') (if c then p else p') := by
  split
  · next hc => exact h hc
  · next hc => exact h' hc

/-- A parser that does not look at the flag, and what comes after it. -/
theorem step {q : Parser β} {f : β → Ambient α} {f' : β → Parser α}
    (h : ∀ x, Follows flags (f x) (f' x)) : Follows flags (liftM q >>= f) (q >>= f') :=
  .bind (.lift q) h

theorem done {f : α → β} (h : Follows flags a p) :
    Follows flags (a >>= fun x => Pure.pure (f x)) (p >>= fun x => Pure.pure (f x)) :=
  h.bind fun x => .pure (f x)

/-- A test that does not look at the flag. -/
theorem branch {q : Parser Bool} {a' : Ambient α} {p' : Parser α} (h : Follows flags a p)
    (h' : Follows flags a' p') :
    Follows flags (do if ← q then a else a') (do if ← q then p else p') :=
  .step fun _ => .ite (fun _ => h) fun _ => h'

theorem discard (h : Follows flags a p) : Follows flags (discard a) (discard p) := h.map _

/-- A value that is read in one of two ways. -/
theorem whichever {c : Prop} [Decidable c] {a' : Ambient α} {p' : Parser α} {f : α → Ambient β}
    {f' : α → Parser β} (h : Follows flags a p) (h' : Follows flags a' p')
    (hf : ∀ x, Follows flags (f x) (f' x)) :
    Follows flags (if c then a >>= f else a' >>= f) (if c then p >>= f' else p' >>= f') :=
  .ite (fun _ => h.bind hf) fun _ => h'.bind hf

/-- A test that decides how a value is read. -/
theorem either {q : Parser Bool} {a' : Ambient α} {p' : Parser α} {f : α → Ambient β}
    {f' : α → Parser β} (h : Follows flags a p) (h' : Follows flags a' p')
    (hf : ∀ x, Follows flags (f x) (f' x)) :
    Follows flags (do if ← q then a >>= f else a' >>= f)
      (do if ← q then p >>= f' else p' >>= f') :=
  .step fun _ => .whichever h h' hf

/-- A test that stops the reading if it holds. -/
theorem refuse {q : Parser Bool} {fault : Parser Unit} {f : Unit → Ambient α}
    {f' : Unit → Parser α} (h : ∀ x, Follows flags (f x) (f' x)) :
    Follows flags (do if ← q then liftM fault >>= f else f ())
      (do if ← q then fault >>= f' else f' ()) :=
  .branch (.step h) (h ())

/-- A test that stops the reading if it does not hold. -/
theorem require {q : Parser Bool} {fault : Parser Unit} {f : Unit → Ambient α}
    {f' : Unit → Parser α} (h : ∀ x, Follows flags (f x) (f' x)) :
    Follows flags (do if ← q then f () else liftM fault >>= f)
      (do if ← q then f' () else fault >>= f') :=
  .branch (h ()) (.step h)

/-- With the flag as given, it does not matter how it was. -/
theorem under {noIn : Bool} (h : Follows (· = noIn) a p) : Follows flags (under noIn a) p := by
  intro stream
  obtain ⟨result, rest, hRun, hResult⟩ := h stream
  refine ⟨result, rest, fun b _ => ?_, hResult⟩
  change ((a ⟨stream, noIn⟩).1, (⟨(a ⟨stream, noIn⟩).2.stream, b⟩ : Cursor)) = _
  rw [hRun noIn rfl]

/-- Looking at the flag gives what it is known to be. -/
theorem flag {noIn : Bool} {f : Bool → Ambient α} (h : Follows (· = noIn) (f noIn) p) :
    Follows (· = noIn) (flag >>= f) p := by
  intro stream
  obtain ⟨result, rest, hRun, hResult⟩ := h stream
  refine ⟨result, rest, ?_, hResult⟩
  rintro b rfl
  exact hRun b rfl

end Follows

section Loops

/-- Repeats a step until it gives nothing, at most `limit` times. -/
def collect (step : Ambient (Option α)) : (limit : Nat) → Ambient (List α)
  | 0 => return []
  | limit + 1 => do
    match ← step with
    | none => return []
    | some a => return a :: (← collect step limit)

def many (step : Ambient (Option α)) : Ambient (List α) := do
  collect step ((← (get : Parser TokenStream)).words.length + 1)

/-- Extends a value until a step has nothing to add, at most `limit` times. -/
def extend (step : α → Ambient (Option α)) (a : α) : (limit : Nat) → Ambient α
  | 0 => return a
  | limit + 1 => do
    match ← step a with
    | none => return a
    | some b => extend step b limit

/-- Extends a value until a step has nothing to add. -/
def grow (step : α → Ambient (Option α)) (a : α) : Ambient α := do
  extend step a ((← (get : Parser TokenStream)).words.length + 1)

def enclosed (close : Punct) (item : Ambient (List α)) : Ambient (List α) :=
  List.flatten <$> many do
    if ← eat close then return none else return some (← item)

/-- Items divided by commas up to a closing sign. -/
def listed (close : Punct) (item : Ambient α) : Ambient (List α) :=
  enclosed close do
    let a ← item
    unless ← sees close do expect .comma
    return [a]

def commaSeparated (item : Ambient α) : Ambient (List α) := do
  let first ← item
  return first :: (← many do
    if ← eat .comma then return some (← item) else return none)

def inside (stream : TokenStream) (a : Ambient α) (wanted : String) : Ambient α :=
  within stream do
    let x ← a
    if ← atEnd then return x else expected wanted

end Loops

namespace Follows

variable {flags : Bool → Prop} {close : Punct}

/-- A repetition follows the flag as its step does, within any limit. -/
theorem collect {step : Ambient (Option α)} {step' : Parser (Option α)}
    (h : Follows flags step step') (limit : Nat) :
    Follows flags (collect step limit) (Parser.collect step' limit) := by
  induction limit with
  | zero => exact .pure []
  | succ limit ih =>
      refine h.bind fun x => ?_
      cases x with
      | none => exact .pure []
      | some a => exact ih.bind fun as => .pure (a :: as)

theorem many {step : Ambient (Option α)} {step' : Parser (Option α)}
    (h : Follows flags step step') : Follows flags (many step) (Parser.many step') :=
  .step fun _ => h.collect _

/-- An extension follows the flag as its step does, within any limit. -/
theorem extend {step : α → Ambient (Option α)} {step' : α → Parser (Option α)}
    (h : ∀ a, Follows flags (step a) (step' a)) (a : α) (limit : Nat) :
    Follows flags (extend step a limit) (Parser.extend step' a limit) := by
  induction limit generalizing a with
  | zero => exact .pure a
  | succ limit ih =>
      refine (h a).bind fun x => ?_
      cases x with
      | none => exact .pure a
      | some b => exact ih b

theorem grow {step : α → Ambient (Option α)} {step' : α → Parser (Option α)}
    (h : ∀ a, Follows flags (step a) (step' a)) (a : α) :
    Follows flags (grow step a) (Parser.grow step' a) :=
  .step fun _ => extend h a _

theorem enclosed {item : Ambient (List α)} {item' : Parser (List α)}
    (h : Follows flags item item') :
    Follows flags (enclosed close item) (Parser.enclosed close item') :=
  .map _ (.many (.branch (.pure none) h.done))

theorem listed {item : Ambient α} {item' : Parser α} (h : Follows flags item item') :
    Follows flags (listed close item) (Parser.listed close item') :=
  .enclosed (h.bind fun a => .branch (.pure [a]) (.step fun _ => .pure [a]))

theorem commaSeparated {item : Ambient α} {item' : Parser α} (h : Follows flags item item') :
    Follows flags (commaSeparated item) (Parser.commaSeparated item') :=
  h.bind fun _ => .done (.many (.branch h.done (.pure none)))

/-- An expression of a template is read with the flag put down. -/
theorem inside {a : Ambient α} {p : Parser α} (h : Follows (· = false) a p) (stream : TokenStream)
    (wanted : String) : Follows flags (inside stream a wanted) (Parser.inside stream p wanted) := by
  have hInner : Follows (· = false) (do
      let x ← a
      if ← atEnd then return x else expected wanted) (do
      let x ← p
      if ← atEnd then return x else expected wanted) :=
    h.bind fun x => .branch (.pure x) (.lift _)
  obtain ⟨result, rest, hRun, hResult⟩ := hInner stream
  intro outer
  refine ⟨result, outer, fun b _ => ?_, ?_⟩
  · change (((do
      let x ← a
      if ← atEnd then return x else expected wanted : Ambient α) ⟨stream, false⟩).1,
        (⟨outer, b⟩ : Cursor)) = _
    rw [hRun false rfl]
  · rw [Parser.inside]
    dsimp only [StateT.run]
    rw [← hResult]
    cases result <;> rfl

theorem mapM {γ : Type} {f : γ → Ambient α} {f' : γ → Parser α}
    (h : ∀ x, Follows flags (f x) (f' x)) (xs : List γ) : Follows flags (xs.mapM f) (xs.mapM f') := by
  induction xs with
  | nil => exact .pure []
  | cons x xs ih =>
      rw [List.mapM_cons, List.mapM_cons]
      exact (h x).bind fun _ => ih.bind fun _ => .pure _

end Follows

/-- The flag is given back as it was, whether the reading succeeds or fails. -/
def Restores (a : Ambient α) : Prop := ∀ c, (a c).2.noIn = c.noIn

/-- The reading gives one result and leaves one rest, whether the flag is set or clear. -/
def Ignores (a : Ambient α) (stream : TokenStream) : Prop :=
  (a ⟨stream, true⟩).1 = (a ⟨stream, false⟩).1 ∧
    (a ⟨stream, true⟩).2.stream = (a ⟨stream, false⟩).2.stream

section Flags

variable {a : Ambient α} {p : Parser α} {stream : TokenStream}

/-- What follows the flag under either of its values puts it back. -/
theorem restores_of_follows (h : ∀ noIn, ∃ p, Follows (· = noIn) a p) : Restores a := by
  rintro ⟨stream, noIn⟩
  obtain ⟨p, hp⟩ := h noIn
  obtain ⟨result, rest, hRun, -⟩ := hp stream
  rw [hRun noIn rfl]

/-- What follows one parser under both values does not depend on the flag. -/
theorem ignores_of_follows (h : Follows (fun _ => True) a p) (stream : TokenStream) :
    Ignores a stream := by
  obtain ⟨result, rest, hRun, -⟩ := h stream
  unfold Ignores
  rw [hRun true trivial, hRun false trivial]
  exact ⟨rfl, rfl⟩

theorem Ignores.done {f : α → β} (h : Ignores a stream) :
    Ignores (a >>= fun x => pure (f x)) stream := by
  obtain ⟨hResult, hRest⟩ := h
  have hRun : ∀ noIn, (a >>= fun x => pure (f x)) ⟨stream, noIn⟩ =
      ((a ⟨stream, noIn⟩).1.map f, (a ⟨stream, noIn⟩).2) := by
    intro noIn
    rcases hFirst : a ⟨stream, noIn⟩ with ⟨_ | x, c⟩
    · exact run_bind_error hFirst
    · exact run_bind_ok hFirst
  unfold Ignores
  rw [hRun, hRun, hResult]
  exact ⟨rfl, hRest⟩

/-- After a part that is read alike with any flag, the rest decides. -/
theorem Ignores.bind {f : α → Ambient β} (h : Follows (fun _ => True) a p)
    (hf : ∀ x rest, p stream = .ok (x, rest) → Ignores (f x) rest) : Ignores (a >>= f) stream := by
  obtain ⟨result, rest, hRun, hResult⟩ := h stream
  unfold Ignores
  cases result with
  | error fault =>
      rw [run_bind_error (hRun true trivial), run_bind_error (hRun false trivial)]
      exact ⟨rfl, rfl⟩
  | ok x =>
      rw [run_bind_ok (hRun true trivial), run_bind_ok (hRun false trivial)]
      exact hf x rest hResult.symm

end Flags

end Ambient

end CodeShape
