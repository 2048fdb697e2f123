import CodeShape.Proofs.Ensuring

/-!
Two parsers that go forward together. What a parser leaves of a stream is the last words of it, up
to the same end. Two parsers that differ only in what they do far down are compared on streams of a
limited weight: on such a stream they run alike, and where they end well, words have been taken as
promised. A part that is entered after a word has been taken may be compared with a lower limit.
-/
namespace CodeShape

namespace Lexeme

theorem wordsWeight_append (ts us : List Token) :
    wordsWeight (ts ++ us) = wordsWeight ts + wordsWeight us := by
  induction ts with
  | nil => simp [wordsWeight]
  | cons t ts ih =>
      rw [List.cons_append, wordsWeight, wordsWeight, ih]
      omega

/-- The words of a template are lighter than the template. -/
theorem wordsWeight_lt_of_mem {quasis : List String} {parts : List TokenStream} {part : TokenStream}
    (h : part ∈ parts) : wordsWeight part.words < (template quasis parts).weight := by
  have hParts : wordsWeight part.words ≤ partsWeight parts := by
    induction parts with
    | nil => cases h
    | cons first parts ih =>
        rw [partsWeight]
        rcases List.mem_cons.1 h with rfl | hRest
        · omega
        · have := ih hRest
          omega
  rw [weight]
  omega

end Lexeme

namespace TokenStream

/-- The number of tokens in a stream, those in templates included. -/
def weight (s : TokenStream) : Nat := Lexeme.wordsWeight s.words

/-- What is left of a stream after taking some words, at least one if it is `moved`. The end stays
where it is. -/
structure Leaves (start : TokenStream) (moved : Bool) (rest : TokenStream) : Prop where
  stop : rest.stop = start.stop
  words : ∃ taken, start.words = taken ++ rest.words ∧ (moved = true → taken ≠ [])

namespace Leaves

variable {start s rest : TokenStream} {moved : Bool}

theorem refl (s : TokenStream) : s.Leaves false s := ⟨rfl, [], rfl, nofun⟩

/-- That a word has been taken may be forgotten. -/
theorem mono {m : Bool} (h : start.Leaves moved s) (hm : m = true → moved = true) :
    start.Leaves m s := by
  obtain ⟨hStop, taken, hWords, hTaken⟩ := h
  exact ⟨hStop, taken, hWords, fun h => hTaken (hm h)⟩

/-- What is left of a rest is left of the whole. -/
theorem trans {m : Bool} (h : start.Leaves m s) (h' : s.Leaves moved rest) :
    start.Leaves moved rest := by
  obtain ⟨hStop, taken, hWords, -⟩ := h
  obtain ⟨hStop', taken', hWords', hTaken'⟩ := h'
  refine ⟨hStop'.trans hStop, taken ++ taken', ?_, fun hMoved hNil => ?_⟩
  · rw [hWords, hWords', List.append_assoc]
  · exact hTaken' hMoved (List.append_eq_nil_iff.1 hNil).2

/-- Taking the next word. -/
theorem tail (h : start.Leaves moved s) (hFull : s.words ≠ []) :
    start.Leaves true ⟨s.words.tail, s.stop⟩ := by
  obtain ⟨t, ts, hWords⟩ := List.exists_cons_of_ne_nil hFull
  refine h.trans ⟨rfl, [t], ?_, fun _ => nofun⟩
  rw [hWords]
  rfl

/-- What is left is not heavier. -/
theorem weight_le (h : start.Leaves moved s) : s.weight ≤ start.weight := by
  obtain ⟨-, taken, hWords, -⟩ := h
  rw [weight, weight, hWords, Lexeme.wordsWeight_append]
  omega

/-- Every word weighs something. -/
theorem weight_lt (h : start.Leaves true s) : s.weight < start.weight := by
  obtain ⟨-, taken, hWords, hTaken⟩ := h
  obtain ⟨t, ts, rfl⟩ := List.exists_cons_of_ne_nil (hTaken rfl)
  have hWeight := t.word.weight_pos
  rw [weight, weight, hWords, List.cons_append, Lexeme.wordsWeight, Lexeme.wordsWeight_append]
  omega

/-- Where a word has been taken, fewer words are left. -/
theorem length_lt (h : start.Leaves true s) : s.words.length < start.words.length := by
  obtain ⟨-, taken, hWords, hTaken⟩ := h
  have hLength := List.length_pos_of_ne_nil (hTaken rfl)
  rw [hWords, List.length_append]
  omega

end Leaves

end TokenStream

namespace Parser

variable {α β : Type}

/-- Two parsers run alike on what is left of a stream that is lighter than the limit. If it is
`moved`, a word has been taken before, and if it is `full`, one is left. `post` tells of each value
whether a word has been taken when it is given. -/
def Advances (limit : Nat) (moved full : Bool) (p q : Parser α) (post : α → Bool) : Prop :=
  ∀ start s : TokenStream, start.weight < limit → start.Leaves moved s →
    (full = true → s.words ≠ []) →
      p s = q s ∧ ∀ a rest, p s = .ok (a, rest) → start.Leaves (post a) rest

/-- Two parsers run alike on streams that are lighter than the limit, and take a word. -/
abbrev Takes (limit : Nat) (p q : Parser α) : Prop := Advances limit false false p q fun _ => true

namespace Advances

variable {limit : Nat} {m full : Bool} {p q : Parser α} {f f' : α → Parser β} {post : α → Bool}
variable {after : β → Bool}

/-- What goes forward goes so under weaker conditions, with less said of its value. -/
theorem mono {m' full' : Bool} {post' : α → Bool} (h : Advances limit m full p q post)
    (hm : m = true → m' = true) (hFull : full = true → full' = true)
    (hPost : ∀ a, post' a = true → post a = true) : Advances limit m' full' p q post' := by
  intro start s hLight hLeaves hWords
  obtain ⟨hSame, hOk⟩ := h start s hLight (hLeaves.mono hm) fun h => hWords (hFull h)
  exact ⟨hSame, fun a rest hRun => (hOk a rest hRun).mono (hPost a)⟩

/-- On a stream of its own, a run starts where the stream does. -/
theorem from_start (h : Advances limit false false p q post) {s : TokenStream}
    (hLight : s.weight < limit) :
    p s = q s ∧ ∀ a rest, p s = .ok (a, rest) → s.Leaves (post a) rest :=
  h s s hLight (.refl s) nofun

/-- Parsers that run alike on any light stream do so where more is known. -/
theorem anywhere (h : Takes limit p q) : Advances limit m full p q fun _ => true :=
  h.mono nofun nofun fun _ h => h

/-- After a word has been taken, a lower limit is enough. -/
theorem deeper (h : Takes limit p q) : Advances (limit + 1) true full p q fun _ => true := by
  intro start s hLight hLeaves _
  have hLighter := hLeaves.weight_lt
  obtain ⟨hSame, hOk⟩ := h.from_start (s := s) (by omega)
  exact ⟨hSame, fun a rest hRun => hLeaves.trans (hOk a rest hRun)⟩

/-- To return a value takes nothing, so what is said of it has to hold before. -/
theorem pure {a : α} (h : post a = true → m = true) :
    Advances limit m full (pure a) (pure a) post := by
  intro start s _ hLeaves _
  refine ⟨rfl, fun b rest hRun => ?_⟩
  cases hRun
  exact hLeaves.mono h

/-- Parsers in sequence. Once the first has taken a word the second runs with that known. -/
theorem bind (hp : Advances limit m full p q post)
    (hf : ∀ a, Advances limit (post a) false (f a) (f' a) after) :
    Advances limit m full (p >>= f) (q >>= f') after := by
  intro start s hLight hLeaves hWords
  obtain ⟨hSame, hOk⟩ := hp start s hLight hLeaves hWords
  change (p s >>= fun r => f r.1 r.2) = (q s >>= fun r => f' r.1 r.2) ∧
    ∀ b rest, (p s >>= fun r => f r.1 r.2) = .ok (b, rest) → _
  rw [← hSame]
  cases hRun : p s with
  | error fault => exact ⟨rfl, nofun⟩
  | ok r => exact hf r.1 start r.2 hLight (hOk r.1 r.2 hRun) nofun

/-- A value is made of what is read. -/
theorem done {g : α → β} (hp : Advances limit m full p q fun _ => true) :
    Advances limit m full (p >>= fun a => Pure.pure (g a)) (q >>= fun a => Pure.pure (g a)) after :=
  bind hp fun _ => pure fun _ => rfl

/-- A value that is made of another says no more than that did. -/
theorem map {g : α → β} (hp : Advances limit m full p q post)
    (h : ∀ a, after (g a) = true → post a = true) :
    Advances limit m full (g <$> p) (g <$> q) after :=
  bind hp fun a => pure (h a)

/-- What is made of a value is passed on with what the value says. -/
theorem mapped {γ : Type} {g : γ → α} {p q : Parser γ} {post : γ → Bool}
    (hp : Advances limit m full p q post)
    (hf : ∀ c, Advances limit (post c) false (f (g c)) (f' (g c)) after) :
    Advances limit m full (g <$> p >>= f) (g <$> q >>= f') after := by
  rw [bind_map_left, bind_map_left]
  exact bind hp hf

/-- A value that is given does not have to be read. -/
theorem given {a : α} (h : Advances limit m full (f a) (f' a) after) :
    Advances limit m full (Pure.pure a >>= f) (Pure.pure a >>= f') after := h

/-- Both branches of a test may use its outcome. -/
theorem ite {c : Prop} [Decidable c] {p' q' : Parser α} (h : c → Advances limit m full p q post)
    (h' : ¬ c → Advances limit m full p' q' post) :
    Advances limit m full (if c then p else p') (if c then q else q') post := by
  split
  · next hc => exact h hc
  · next hc => exact h' hc

/-- Looking at the stream changes nothing. -/
theorem watch {view : TokenStream → α} (hp : Watches p view)
    (hf : ∀ a, Advances limit m full (f a) (f' a) after) :
    Advances limit m full (p >>= f) (p >>= f') after := by
  intro start s hLight hLeaves hWords
  change (p s >>= fun r => f r.1 r.2) = (p s >>= fun r => f' r.1 r.2) ∧
    ∀ b rest, (p s >>= fun r => f r.1 r.2) = .ok (b, rest) → _
  rw [hp]
  exact hf (view s) start s hLight hLeaves hWords

end Advances

section Faults

variable {limit : Nat} {m full : Bool} {p : Parser α}

/-- What fails goes forward in every way. -/
theorem Fails.advances {post : α → Bool} (h : Fails p) : Advances limit m full p p post :=
  fun _ s _ _ _ => ⟨rfl, fun a rest hRun => absurd hRun (h s (a, rest))⟩

/-- What would come after a fault makes no difference. -/
theorem Fails.advances_bind {f f' : α → Parser β} {after : β → Bool} (h : Fails p) :
    Advances limit m full (p >>= f) (p >>= f') after := by
  intro start s _ _ _
  change (p s >>= fun r => f r.1 r.2) = (p s >>= fun r => f' r.1 r.2) ∧
    ∀ b rest, (p s >>= fun r => f r.1 r.2) = .ok (b, rest) → _
  cases hRun : p s with
  | error fault => exact ⟨rfl, nofun⟩
  | ok r => exact absurd hRun (h s r)

end Faults

section Primitives

variable {limit : Nat} {m full : Bool} {after : β → Bool}

namespace Advances

/-- A test of the next word. If the word passes it, the stream is not at its end. -/
theorem test {p : Parser Bool} {f f' : Bool → Parser β} {test : Lexeme → Bool}
    (hp : Watches p fun s => (s.words[0]?.map Located.word).any test)
    (hTrue : Advances limit m true (f true) (f' true) after)
    (hFalse : Advances limit m full (f false) (f' false) after) :
    Advances limit m full (p >>= f) (p >>= f') after := by
  intro start s hLight hLeaves hWords
  change (p s >>= fun r => f r.1 r.2) = (p s >>= fun r => f' r.1 r.2) ∧
    ∀ b rest, (p s >>= fun r => f r.1 r.2) = .ok (b, rest) → _
  rw [hp]
  cases hTest : (s.words[0]?.map Located.word).any test with
  | false =>
      simp only [hTest]
      exact hFalse start s hLight hLeaves hWords
  | true =>
      simp only [hTest]
      refine hTrue start s hLight hLeaves fun _ hNil => ?_
      simp [hNil] at hTest

/-- Where a sign is seen, a word is there to be taken. -/
theorem sees {f f' : Bool → Parser β} {sign : Punct}
    (hTrue : Advances limit m true (f true) (f' true) after)
    (hFalse : Advances limit m full (f false) (f' false) after) :
    Advances limit m full (Parser.sees sign >>= f) (Parser.sees sign >>= f') after :=
  test (watches_sees sign) hTrue hFalse

/-- Where a name is seen, a word is there to be taken. -/
theorem seesName {f f' : Bool → Parser β} {name : String}
    (hTrue : Advances limit m true (f true) (f' true) after)
    (hFalse : Advances limit m full (f false) (f' false) after) :
    Advances limit m full (Parser.seesName name >>= f) (Parser.seesName name >>= f') after :=
  test (watches_seesName name) hTrue hFalse

theorem seesAny {f f' : Bool → Parser β} {signs : List Punct}
    (hTrue : Advances limit m true (f true) (f' true) after)
    (hFalse : Advances limit m full (f false) (f' false) after) :
    Advances limit m full (Parser.seesAny signs >>= f) (Parser.seesAny signs >>= f') after :=
  test (seesAny_run signs) hTrue hFalse

/-- The next word, which is no heavier than the stream. -/
theorem next {f f' : Option Lexeme → Parser β}
    (hf : ∀ w : Option Lexeme, (∀ x ∈ w, x.weight < limit) →
      Advances limit m w.isSome (f w) (f' w) after) :
    Advances limit m full (next? >>= f) (next? >>= f') after := by
  intro start s hLight hLeaves _
  have hWeight := hLeaves.weight_le
  obtain ⟨words, stop⟩ := s
  cases words with
  | nil => exact hf none nofun start _ hLight hLeaves nofun
  | cons t ts =>
      refine hf (some t.word) ?_ start _ hLight hLeaves fun _ => nofun
      rintro x ⟨⟩
      rw [TokenStream.weight, Lexeme.wordsWeight] at hWeight
      omega

/-- To take the next word is to go forward, if there is one. -/
theorem advance : Advances limit m true Parser.advance Parser.advance fun _ => true := by
  intro start s _ hLeaves hWords
  refine ⟨rfl, fun a rest hRun => ?_⟩
  cases hRun
  exact hLeaves.tail (hWords rfl)

/-- Where a sign is taken the rest runs one word further on. -/
theorem eat {f f' : Bool → Parser β} {sign : Punct}
    (hTrue : Advances limit true false (f true) (f' true) after)
    (hFalse : Advances limit m full (f false) (f' false) after) :
    Advances limit m full (Parser.eat sign >>= f) (Parser.eat sign >>= f') after := by
  unfold Parser.eat
  rw [bind_assoc, bind_assoc]
  refine sees ?_ hFalse
  rw [if_pos rfl, bind_assoc, bind_assoc]
  exact bind advance fun _ => hTrue

/-- Where a name is taken the rest runs one word further on. -/
theorem eatName {f f' : Bool → Parser β} {name : String}
    (hTrue : Advances limit true false (f true) (f' true) after)
    (hFalse : Advances limit m full (f false) (f' false) after) :
    Advances limit m full (Parser.eatName name >>= f) (Parser.eatName name >>= f') after := by
  unfold Parser.eatName
  rw [bind_assoc, bind_assoc]
  refine seesName ?_ hFalse
  rw [if_pos rfl, bind_assoc, bind_assoc]
  exact bind advance fun _ => hTrue

/-- A sign that may be left out. -/
theorem eats {sign : Punct} :
    Advances limit m full (Parser.eat sign) (Parser.eat sign) fun taken => m || taken := by
  rw [← bind_pure (Parser.eat sign)]
  exact eat (pure fun _ => rfl) (pure (by simp))

/-- A sign that is demanded is taken, or the run fails. -/
theorem expect {sign : Punct} :
    Advances limit m full (Parser.expect sign) (Parser.expect sign) fun _ => true :=
  eat (pure fun _ => rfl) (fails_expected _).advances

/-- Unless the stream is at its end, it has a next word. -/
theorem atEnd {f f' : Bool → Parser β} (hTrue : Advances limit m full (f true) (f' true) after)
    (hFalse : Advances limit m true (f false) (f' false) after) :
    Advances limit m full (Parser.atEnd >>= f) (Parser.atEnd >>= f') after := by
  rintro start ⟨words, stop⟩ hLight hLeaves hWords
  cases words with
  | nil => exact hTrue start _ hLight hLeaves hWords
  | cons t ts => exact hFalse start _ hLight hLeaves fun _ => nofun

theorem identifier : Takes limit Parser.identifier Parser.identifier := by
  refine next fun w _ => ?_
  split
  · refine ite (fun _ => (fails_expected _).advances) fun _ => ?_
    exact bind advance fun _ => pure fun _ => rfl
  · exact (fails_expected _).advances

theorem propertyName : Takes limit Parser.propertyName Parser.propertyName := by
  refine next fun w _ => ?_
  split
  · exact bind advance fun _ => pure fun _ => rfl
  · exact (fails_expected _).advances

end Advances

end Primitives

section Loops

variable {limit : Nat} {m full : Bool}

/-- The next item, unless the closing sign comes. -/
def enclosedStep (close : Punct) (item : Parser (List α)) : Parser (Option (List α)) := do
  if ← eat close then return none else return some (← item)

/-- An item of a list, with the comma after it if it is not the last. -/
def listItem (close : Punct) (item : Parser α) : Parser (List α) := do
  let a ← item
  unless ← sees close do expect .comma
  return [a]

/-- The next item, if a comma comes before it. -/
def commaStep (item : Parser α) : Parser (Option α) := do
  if ← eat .comma then return some (← item) else return none

/-- Gives a value if the stream is at its end. -/
def endsWith (wanted : String) (a : α) : Parser α := do
  if ← atEnd then return a else expected wanted

/-- Another stream is read to its end, and this one stays as it is. -/
theorem inside_run (part : TokenStream) (p : Parser α) (wanted : String) (s : TokenStream) :
    inside part p wanted s = ((p >>= endsWith wanted) part).map fun r => (r.1, s) := by
  cases hRead : (do
      let a ← p
      if ← atEnd then return a else expected wanted : Parser α).run part with
  | error fault =>
      have hSame : (p >>= endsWith wanted) part = .error fault := hRead
      rw [inside, hSame]
      simp only [hRead]
      rfl
  | ok r =>
      have hSame : (p >>= endsWith wanted) part = .ok r := hRead
      rw [inside, hSame]
      simp only [hRead]
      rfl

namespace Advances

/-- A repetition whose steps run alike runs alike. Its rounds are the same in both. -/
theorem collect {step step' : Parser (Option α)}
    (h : Advances limit m false step step' fun _ => m) (rounds : Nat) :
    Advances limit m full (Parser.collect step rounds) (Parser.collect step' rounds)
      fun _ => m := by
  induction rounds generalizing full with
  | zero => exact pure fun h => h
  | succ rounds ih =>
      refine bind (h.mono id nofun fun _ => id) fun o => ?_
      cases o with
      | none => exact pure fun h => h
      | some a => exact bind ih fun _ => pure fun h => h

theorem many {step step' : Parser (Option α)} (h : Advances limit m false step step' fun _ => m) :
    Advances limit m full (Parser.many step) (Parser.many step') fun _ => m :=
  watch watches_get fun _ => collect h _

/-- An extension whose steps run alike runs alike. Its rounds are the same in both. -/
theorem extend {step step' : α → Parser (Option α)}
    (h : ∀ a, Advances limit m false (step a) (step' a) fun _ => m) (a : α) (rounds : Nat) :
    Advances limit m full (Parser.extend step a rounds) (Parser.extend step' a rounds)
      fun _ => m := by
  induction rounds generalizing a full with
  | zero => exact pure fun h => h
  | succ rounds ih =>
      refine bind ((h a).mono id nofun fun _ => id) fun o => ?_
      cases o with
      | none => exact pure fun h => h
      | some b => exact ih b

theorem grow {step step' : α → Parser (Option α)}
    (h : ∀ a, Advances limit m false (step a) (step' a) fun _ => m) (a : α) :
    Advances limit m full (Parser.grow step a) (Parser.grow step' a) fun _ => m :=
  watch watches_get fun _ => extend h a _

/-- One item of a list in brackets, or the bracket. -/
theorem enclosedStep {item item' : Parser (List α)} {close : Punct}
    (h : Advances limit m false item item' fun _ => true) :
    Advances limit m full (Parser.enclosedStep close item) (Parser.enclosedStep close item')
      fun o => m || o.isSome :=
  eat (pure fun _ => rfl) (bind (h.mono id nofun fun _ => id) fun _ => pure fun _ => rfl)

/-- A list in brackets ends with its bracket, so a word has been taken. -/
theorem enclosed {item item' : Parser (List α)} {close : Punct}
    (h : Advances limit true false item item' fun _ => true) :
    Advances limit true full (Parser.enclosed close item) (Parser.enclosed close item')
      fun _ => true :=
  map (many (enclosedStep h)) fun _ _ => rfl

/-- One item of a list and the comma after it. -/
theorem listItem {item item' : Parser α} {close : Punct}
    (h : Advances limit m false item item' fun _ => true) :
    Advances limit m false (Parser.listItem close item) (Parser.listItem close item')
      fun _ => true := by
  refine bind h fun a => sees (pure fun _ => rfl) ?_
  exact bind expect fun _ => pure fun _ => rfl

theorem listed {item item' : Parser α} {close : Punct}
    (h : Advances limit true false item item' fun _ => true) :
    Advances limit true full (Parser.listed close item) (Parser.listed close item')
      fun _ => true :=
  enclosed (listItem h)

/-- One item more after a comma, or none. -/
theorem commaStep {item item' : Parser α} (h : Takes limit item item') :
    Advances limit m full (Parser.commaStep item) (Parser.commaStep item')
      fun o => m || o.isSome :=
  eat (done h.anywhere) (pure (by simp))

/-- A list without brackets takes a word, as its first item does. -/
theorem commaSeparated {item item' : Parser α} (h : Takes limit item item') :
    Takes limit (Parser.commaSeparated item) (Parser.commaSeparated item') :=
  bind h fun _ => bind (many (commaStep h)) fun _ => pure fun _ => rfl

/-- An expression in a template is read from a stream of its own, which is lighter. -/
theorem inside {low : Nat} {p q : Parser α} {part : TokenStream} {wanted : String}
    (h : Takes low p q) (hPart : part.weight < low) :
    Advances limit m full (Parser.inside part p wanted) (Parser.inside part q wanted)
      fun _ => m := by
  intro start s _ hLeaves _
  have hSame : (p >>= endsWith wanted) part = (q >>= endsWith wanted) part := by
    change (p part >>= _) = (q part >>= _)
    rw [(h.from_start hPart).1]
  rw [inside_run, inside_run, hSame]
  refine ⟨rfl, fun a rest hRun => ?_⟩
  cases hRead : (q >>= endsWith wanted) part with
  | error fault =>
      rw [hRead] at hRun
      cases hRun
  | ok r =>
      rw [hRead] at hRun
      cases hRun
      exact hLeaves

/-- Streams inside of a template are lighter than the template, so the parsers that run alike on
lighter streams run alike on them. -/
theorem mapM_inside {low : Nat} {p q : Parser α} {wanted : String} (h : Takes low p q)
    {parts : List TokenStream} (hParts : ∀ part ∈ parts, part.weight < low) :
    Advances limit m full (parts.mapM fun part => Parser.inside part p wanted)
      (parts.mapM fun part => Parser.inside part q wanted) fun _ => m := by
  induction parts generalizing full with
  | nil =>
      rw [List.mapM_nil, List.mapM_nil]
      exact pure fun h => h
  | cons part parts ih =>
      rw [List.mapM_cons, List.mapM_cons]
      refine bind (inside h (hParts part (by simp))) fun a => ?_
      exact bind (ih fun part' h' => hParts part' (by simp [h'])) fun as => pure fun h => h

end Advances

end Loops

end Parser

end CodeShape
