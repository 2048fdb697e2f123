import CodeShape.Proofs.Scanning

/-!
What a successful parser ensures. A statement about a parser is one about every run that ends well
and starts from valid words: if the stream was as required, then the value and the stream that is
left are as promised. Statements about parts compose to statements about the whole.
-/
namespace CodeShape

/-- Every word to be read is one that the scanner gives. -/
def TokenStream.Valid (stream : TokenStream) : Prop := ∀ t ∈ stream.words, t.word.Valid

/-- The word that is read next. -/
def TokenStream.next? (stream : TokenStream) : Option Lexeme := stream.words.head?.map Located.word

namespace Parser

variable {α β : Type}

/-- From a stream as required, a successful run gives a value and leaves a stream as promised. -/
def Ensures (P : TokenStream → Prop) (p : Parser α) (Q : α → TokenStream → Prop) : Prop :=
  ∀ stream a rest, stream.Valid → P stream → p stream = .ok (a, rest) → rest.Valid ∧ Q a rest

/-- A successful run gives a value as promised, from whatever stream. -/
def Gives (p : Parser α) (Q : α → Prop) : Prop := Ensures (fun _ => True) p fun a _ => Q a

namespace Ensures

variable {P P' : TokenStream → Prop} {p : Parser α} {f : α → Parser β}
variable {Q : α → TokenStream → Prop} {R : β → TokenStream → Prop}

/-- What is ensured under some condition is so under a stronger one, and a weaker outcome too. -/
theorem mono {Q' : α → TokenStream → Prop} (h : Ensures P p Q) (hP : ∀ s, P' s → P s)
    (hQ : ∀ a s, Q a s → Q' a s) : Ensures P' p Q' := by
  intro stream a rest hValid hPre hRun
  obtain ⟨hRest, hPost⟩ := h stream a rest hValid (hP _ hPre) hRun
  exact ⟨hRest, hQ _ _ hPost⟩

theorem pure {a : α} (h : ∀ s, P s → Q a s) : Ensures P (pure a) Q := by
  intro stream a rest hValid hPre hRun
  cases hRun
  exact ⟨hValid, h _ hPre⟩

/-- Parsers in sequence: what the first says of its value and of the rest is there for the
second. -/
theorem bind (hp : Ensures P p Q) (hf : ∀ a, Ensures (Q a) (f a) R) : Ensures P (p >>= f) R := by
  intro stream b rest hValid hPre hRun
  obtain ⟨⟨a, middle⟩, hFirst, hThen⟩ := exists_of_bind_eq_ok (x := p stream) hRun
  obtain ⟨hMiddle, hPost⟩ := hp stream a middle hValid hPre hFirst
  exact hf a middle b rest hMiddle hPost hThen

/-- Both branches of a test may use its outcome. -/
theorem ite {c : Prop} [Decidable c] {q : Parser α} (hp : c → Ensures P p Q)
    (hq : ¬ c → Ensures P q Q) : Ensures P (if c then p else q) Q := by
  split
  · next h => exact hp h
  · next h => exact hq h

/-- What is promised of the first value is all that the rest needs. -/
theorem andThen {A : α → Prop} (hp : Ensures P p fun a _ => A a)
    (hf : ∀ a, A a → Ensures (fun _ => True) (f a) R) : Ensures P (p >>= f) R := by
  refine bind hp fun a => ?_
  intro stream b rest hValid hA hRun
  exact hf a hA stream b rest hValid trivial hRun

/-- What holds of every stream as required may be used. -/
theorem pull {F : Prop} (hP : ∀ s, P s → F) (h : F → Ensures P p Q) : Ensures P p Q :=
  fun stream a rest hValid hPre => h (hP _ hPre) stream a rest hValid hPre

theorem mapped {γ : Type} {g : γ → α} {p : Parser γ} {Q : γ → TokenStream → Prop}
    (hp : Ensures P p Q) (hf : ∀ c, Ensures (Q c) (f (g c)) R) : Ensures P (g <$> p >>= f) R := by
  rw [bind_map_left]
  exact bind hp hf

/-- Looking at the stream tells something about it. -/
theorem watch {view : TokenStream → α} (hp : Watches p view)
    (hf : ∀ a, Ensures (fun s => P s ∧ view s = a) (f a) R) : Ensures P (p >>= f) R := by
  refine bind (Q := fun a s => P s ∧ view s = a) ?_ hf
  intro stream a rest hValid hPre hRun
  rw [hp] at hRun
  cases hRun
  exact ⟨hValid, hPre, rfl⟩

/-- The next word is valid. -/
theorem next {f : Option Lexeme → Parser β}
    (hf : ∀ w : Option Lexeme, (∀ x ∈ w, x.Valid) → Ensures (fun s => P s ∧ s.next? = w) (f w) R) :
    Ensures P (next? >>= f) R := by
  refine bind (Q := fun w s => (P s ∧ s.next? = w) ∧ ∀ x ∈ w, x.Valid) ?_ fun w => ?_
  · intro stream w rest hValid hPre hRun
    cases hRun
    refine ⟨hValid, ⟨hPre, by simp [TokenStream.next?, List.head?_eq_getElem?]⟩, ?_⟩
    intro x hx
    obtain ⟨t, ht, rfl⟩ := Option.map_eq_some_iff.1 hx
    exact hValid t (List.mem_of_getElem? ht)
  · intro stream b rest hValid hPre hRun
    exact hf w hPre.2 stream b rest hValid hPre.1 hRun

end Ensures

/-- A parser that never ends well. -/
def Fails (p : Parser α) : Prop := ∀ stream r, p stream ≠ .ok r

/-- What never ends well ensures everything. -/
theorem Fails.ensures {p : Parser α} {P : TokenStream → Prop} {Q : α → TokenStream → Prop}
    (h : Fails p) : Ensures P p Q := fun stream a rest _ _ hRun => absurd hRun (h stream (a, rest))

/-- After a failure nothing runs. -/
theorem Fails.bind {p : Parser α} {f : α → Parser β} (h : Fails p) : Fails (p >>= f) := by
  intro stream r hRun
  obtain ⟨a, hFirst, -⟩ := exists_of_bind_eq_ok (x := p stream) hRun
  exact h stream a hFirst

theorem fails_throw (fault : Fault) : Fails (throw fault : Parser α) := fun _ _ h => by cases h

theorem fails_fail (cause : Cause) : Fails (fail cause : Parser α) := fun _ _ h => by cases h

theorem fails_expected (wanted : String) : Fails (expected wanted : Parser α) :=
  fun _ _ h => by cases h

theorem fails_unsupported (feature : Feature) : Fails (unsupported feature : Parser α) :=
  fun _ _ h => by cases h

namespace Gives

variable {p : Parser α} {f : α → Parser β} {Q : α → Prop} {R : β → Prop}

theorem ensures {P : TokenStream → Prop} (h : Gives p Q) : Ensures P p fun a _ => Q a :=
  Ensures.mono h (fun _ _ => trivial) fun _ _ hQ => hQ

theorem mono {Q' : α → Prop} (h : Gives p Q) (hQ : ∀ a, Q a → Q' a) : Gives p Q' :=
  Ensures.mono h (fun _ hs => hs) fun a _ => hQ a

theorem pure {a : α} (h : Q a) : Gives (Pure.pure a) Q := Ensures.pure fun _ _ => h

theorem bind (hp : Gives p Q) (hf : ∀ a, Q a → Gives (f a) R) : Gives (p >>= f) R :=
  Ensures.andThen hp hf

/-- The value of the first part plays no role. -/
theorem skip (hp : Gives p fun _ => True) (hf : ∀ a, Gives (f a) R) : Gives (p >>= f) R :=
  bind hp fun a _ => hf a

theorem map {g : α → β} (hp : Gives p Q) (hg : ∀ a, Q a → R (g a)) : Gives (g <$> p) R :=
  bind hp fun a ha => pure (hg a ha)

/-- A value that is given does not have to be read. -/
theorem given {a : α} (h : Gives (f a) R) : Gives (Pure.pure a >>= f) R := h

theorem mapped {γ : Type} {g : γ → α} {p : Parser γ} {Q : γ → Prop} (hp : Gives p Q)
    (hf : ∀ c, Q c → Gives (f (g c)) R) : Gives (g <$> p >>= f) R := by
  rw [bind_map_left]
  exact bind hp hf

theorem ite {c : Prop} [Decidable c] {q : Parser α} (hp : c → Gives p Q) (hq : ¬ c → Gives q Q) :
    Gives (if c then p else q) Q := Ensures.ite hp hq

theorem watch {view : TokenStream → α} (hp : Watches p view) (hf : ∀ a, Gives (f a) R) :
    Gives (p >>= f) R :=
  Ensures.watch hp fun a => (hf a).ensures

/-- A choice by the next word may use that the word is valid. -/
theorem next {f : Option Lexeme → Parser β}
    (hf : ∀ w : Option Lexeme, (∀ x ∈ w, x.Valid) → Gives (f w) R) : Gives (next? >>= f) R :=
  Ensures.next fun w hw => (hf w hw).ensures

end Gives

section Primitives

theorem keeps_advance : Gives advance fun _ => True := by
  intro stream a rest hValid _ hRun
  cases hRun
  exact ⟨fun t ht => hValid t (List.mem_of_mem_tail ht), trivial⟩

theorem keeps_eat (sign : Punct) : Gives (eat sign) fun _ => True :=
  .watch (watches_sees sign) fun _ =>
    .ite (fun _ => .skip keeps_advance fun _ => .pure trivial) fun _ => .pure trivial

/-- The next word is told by its name. -/
theorem isName_next? {name : String} {s : TokenStream} :
    (s.words[0]?.map Located.word).any (Lexeme.isName name) = true ↔
      s.next? = some (.name name) := by
  rw [← List.head?_eq_getElem?]
  change s.next?.any _ = true ↔ _
  rcases s.next? with _ | w
  · simp
  · cases w <;> simp [Lexeme.isName]

/-- A name that is taken came next; one that is not taken did not, and nothing has changed. -/
theorem ensures_eatName {P : TokenStream → Prop} (name : String) :
    Ensures P (eatName name) fun taken s =>
      (taken = true → ∃ s', P s' ∧ s'.next? = some (.name name)) ∧
        (taken = false → P s ∧ s.next? ≠ some (.name name)) := by
  refine .watch (watches_seesName name) fun b => .ite (fun hb => ?_) fun hb => ?_
  · refine .bind (Q := fun _ _ => ∃ s', P s' ∧ s'.next? = some (.name name)) ?_ fun _ =>
      .pure fun _ hs => ⟨fun _ => hs, nofun⟩
    intro stream a rest hValid hs hRun
    exact ⟨(keeps_advance stream a rest hValid trivial hRun).1, stream, hs.1,
      isName_next?.1 (hs.2.trans hb)⟩
  · exact .pure fun s hs => ⟨nofun, fun _ => ⟨hs.1, fun hNext => hb (hs.2.symm.trans
      (isName_next?.2 hNext))⟩⟩

theorem keeps_eatName (name : String) : Gives (eatName name) fun _ => True :=
  (ensures_eatName (P := fun _ => True) name).mono (fun _ hs => hs) fun _ _ _ => trivial

theorem keeps_expect (sign : Punct) : Gives (expect sign) fun _ => True :=
  .skip (keeps_eat sign) fun _ =>
    .ite (fun _ => .pure trivial) fun _ => (fails_expected _).ensures

end Primitives

section Loops

variable {P : α → Prop}

/-- What every step gives holds of every item of a repetition. -/
theorem gives_collect {step : Parser (Option α)} (h : Gives step fun o => ∀ a ∈ o, P a)
    (limit : Nat) : Gives (collect step limit) fun as => ∀ a ∈ as, P a := by
  induction limit with
  | zero => exact .pure nofun
  | succ limit ih =>
      refine .bind h fun o ho => ?_
      cases o with
      | none => exact .pure nofun
      | some a => exact .bind ih fun as has => .pure (List.forall_mem_cons.2 ⟨ho a rfl, has⟩)

/-- What every step gives holds of all items. -/
theorem gives_many {step : Parser (Option α)} (h : Gives step fun o => ∀ a ∈ o, P a) :
    Gives (many step) fun as => ∀ a ∈ as, P a :=
  .watch watches_get fun _ => gives_collect h _

/-- What every step keeps is an invariant of an extension. -/
theorem gives_extend {step : α → Parser (Option α)}
    (h : ∀ a, P a → Gives (step a) fun o => ∀ b ∈ o, P b) {a : α} (ha : P a) (limit : Nat) :
    Gives (extend step a limit) P := by
  induction limit generalizing a with
  | zero => exact .pure ha
  | succ limit ih =>
      refine .bind (h a ha) fun o ho => ?_
      cases o with
      | none => exact .pure ha
      | some b => exact ih (ho b rfl)

/-- What every step keeps holds in the end. -/
theorem gives_grow {step : α → Parser (Option α)}
    (h : ∀ a, P a → Gives (step a) fun o => ∀ b ∈ o, P b) {a : α} (ha : P a) :
    Gives (grow step a) P :=
  .watch watches_get fun _ => gives_extend h ha _

/-- What every item has holds of a list in brackets. -/
theorem gives_enclosed {item : Parser (List α)} {close : Punct}
    (h : Gives item fun as => ∀ a ∈ as, P a) :
    Gives (enclosed close item) fun as => ∀ a ∈ as, P a := by
  refine .map (Q := fun ass => ∀ as ∈ ass, ∀ a ∈ as, P a) (gives_many ?_) fun ass hass a ha => ?_
  · refine .skip (keeps_eat close) fun _ => .ite (fun _ => .pure nofun) fun _ => ?_
    exact .bind h fun as has => .pure (by rintro _ ⟨⟩; exact has)
  · obtain ⟨as, has, ha⟩ := List.mem_flatten.1 ha
    exact hass as has a ha

/-- What every item has holds of a list with commas. -/
theorem gives_listed {item : Parser α} {close : Punct} (h : Gives item P) :
    Gives (listed close item) fun as => ∀ a ∈ as, P a := by
  refine gives_enclosed (.bind h fun a ha => .watch (watches_sees close) fun _ => ?_)
  have hDone : Gives (Pure.pure [a] : Parser (List α)) fun as => ∀ b ∈ as, P b :=
    .pure (by simpa using ha)
  exact .ite (fun _ => hDone) fun _ => .skip (keeps_expect _) fun _ => hDone

/-- A list without brackets has an item. -/
theorem gives_commaSeparated {item : Parser α} (h : Gives item P) :
    Gives (commaSeparated item) fun as => as ≠ [] ∧ ∀ a ∈ as, P a := by
  refine .bind h fun a ha => .bind (gives_many (P := P) ?_) fun as has => .pure ⟨nofun, ?_⟩
  · refine .skip (keeps_eat _) fun _ => .ite (fun _ => ?_) fun _ => .pure nofun
    exact .bind h fun b hb => .pure (by rintro _ ⟨⟩; exact hb)
  · exact List.forall_mem_cons.2 ⟨ha, has⟩

/-- Parsers run in a row give as many values as they are. -/
theorem gives_mapM {γ : Type} {f : γ → Parser α} {xs : List γ} (h : ∀ x ∈ xs, Gives (f x) P) :
    Gives (xs.mapM f) fun as => as.length = xs.length ∧ ∀ a ∈ as, P a := by
  induction xs with
  | nil =>
      rw [List.mapM_nil]
      exact .pure ⟨rfl, nofun⟩
  | cons x xs ih =>
      rw [List.mapM_cons]
      refine .bind (h x List.mem_cons_self) fun a ha => ?_
      refine .bind (ih fun y hy => h y (List.mem_cons_of_mem _ hy)) fun as has => .pure ?_
      exact ⟨by simp [has.1], List.forall_mem_cons.2 ⟨ha, has.2⟩⟩

/-- An expression in a template is read from a stream of its own. -/
theorem gives_inside {p : Parser α} {part : TokenStream} {wanted : String} (h : Gives p P)
    (hPart : part.Valid) : Gives (inside part p wanted) P := by
  have hInner : Gives (do let a ← p; if ← atEnd then return a else expected wanted) P :=
    .bind h fun a ha => .watch watches_atEnd fun _ =>
      .ite (fun _ => .pure ha) fun _ => (fails_expected _).ensures
  intro stream a rest hValid _ hRun
  rw [inside] at hRun
  cases hRead : (do
      let a ← p
      if ← atEnd then return a else expected wanted : Parser α).run part with
  | error fault =>
      simp only [hRead] at hRun
      cases hRun
  | ok r =>
      simp only [hRead] at hRun
      cases hRun
      exact ⟨hValid, (hInner part r.1 r.2 hPart trivial hRead).2⟩

end Loops

end Parser

end CodeShape
