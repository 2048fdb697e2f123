import CodeShape.Proofs.Ensuring

/-!
Two runs side by side. The words of one stream come back in another, elsewhere, and there a brace on
a new line may follow them. A successful run on the first stream is carried over to the second: it
gives the same value, and the streams that are left are related as the two were. Where the first run
stands at the end, the second one stands at the brace.
-/
namespace CodeShape

/-- Words that differ in places only are the same, or templates with the same texts. -/
theorem Lexeme.same_of_plain_eq {w v : Lexeme} (h : w.plain = v.plain) :
    w = v ∧ w.isTemplate = false ∨
      ∃ quasis parts parts', w = .template quasis parts ∧ v = .template quasis parts' ∧
        plainParts parts = plainParts parts' := by
  cases w <;> cases v <;> simp_all [plain, isTemplate]

/-- The words of the first list come back in the second, which goes on with a brace on a new line if
it is `closed`. They are on new lines where they were before, except that the first one may differ
as long as no word has been taken. -/
inductive Echoes : (closed moved : Bool) → List Token → List Token → Prop where
  | nil {moved : Bool} : Echoes false moved [] []
  | close {moved : Bool} (span : Text.Span) :
      Echoes true moved [] [⟨.punct .closeBrace, span, true⟩]
  | cons {closed moved : Bool} {t t' : Token} {ts ts' : List Token}
      (hWord : t.word.plain = t'.word.plain)
      (hLine : moved = true → t.afterLineEnd = t'.afterLineEnd) (h : Echoes closed true ts ts') :
      Echoes closed moved (t :: ts) (t' :: ts')

namespace Echoes

variable {closed moved : Bool} {ts ts' : List Token}

/-- The line of the first word matters only once a word has been taken. -/
theorem mono {m : Bool} (h : Echoes closed moved ts ts') (hm : m = true → moved = true) :
    Echoes closed m ts ts' := by
  cases h with
  | nil => exact .nil
  | close span => exact .close span
  | cons hWord hLine h => exact .cons hWord (fun h => hLine (hm h)) h

/-- The second stream is longer by the brace, if it is closed. -/
theorem length_eq (h : Echoes closed moved ts ts') : ts'.length = ts.length + closed.toNat := by
  induction h with
  | nil => rfl
  | close => rfl
  | cons _ _ _ ih => rw [List.length_cons, List.length_cons, ih]; omega

/-- A test that does not see places. The brace must not pass it, unless the test is made of the next
word and there is one. -/
theorem test_eq (test : Lexeme → Bool) (hPlain : ∀ w : Lexeme, test w.plain = test w) {n : Nat}
    (hClose : test (.punct .closeBrace) = false ∨ n = 0 ∧ ts ≠ [])
    (h : Echoes closed moved ts ts') :
    (ts[n]?.map Located.word).any test = (ts'[n]?.map Located.word).any test := by
  induction h generalizing n with
  | nil => rfl
  | close span =>
      have hBrace := hClose.resolve_right fun h => h.2 rfl
      cases n <;> simp [hBrace]
  | cons hWord _ _ ih =>
      cases n with
      | zero => simpa using (hPlain _).symm.trans ((congrArg test hWord).trans (hPlain _))
      | succ n => simpa using ih (.inl (hClose.resolve_right nofun))

/-- Streams with the same words, places aside, echo each other without a brace. -/
theorem of_plainWords (h : Lexeme.plainWords ts = Lexeme.plainWords ts') :
    Echoes false moved ts ts' := by
  induction ts generalizing moved ts' with
  | nil =>
      cases ts' with
      | nil => exact .nil
      | cons => cases h
  | cons t ts ih =>
      cases ts' with
      | nil => cases h
      | cons t' ts' =>
          simp only [Lexeme.plainWords, List.cons.injEq, Located.mk.injEq] at h
          exact .cons h.1.1 (fun _ => h.1.2.2) (ih h.2)

end Echoes

/-- The streams are related, at most `bound` words are left of the first, less than that if one has
been taken, and some are left if it is said to be `full`. -/
structure Near (closed moved full : Bool) (bound : Nat) (s s' : TokenStream) : Prop where
  echoes : Echoes closed moved s.words s'.words
  length : s.words.length + moved.toNat ≤ bound
  nonempty : full = true → s.words ≠ []

/-- Streams stay near each other when less is asked of them. -/
theorem Near.mono {closed m m' full full' : Bool} {bound : Nat} {s s' : TokenStream}
    (h : Near closed m full bound s s') (hm : m' = true → m = true)
    (hFull : full' = true → full = true) : Near closed m' full' bound s s' where
  echoes := h.echoes.mono hm
  length := Nat.le_trans (Nat.add_le_add_left (by cases m' <;> simp_all) _) h.length
  nonempty := fun h' => h.nonempty (hFull h')

namespace Parser

variable {α β : Type}

/-- A successful run on a stream is carried over to every stream related to it. `post` tells of each
value whether words have been taken when it is given. -/
def Carries (moved full : Bool) (p q : Parser α) (post : α → Bool) : Prop :=
  ∀ closed bound s s' a r, Near closed moved full bound s s' → p s = .ok (a, r) →
    ∃ r', q s' = .ok (a, r') ∧ Near closed (post a) false bound r r'

/-- Successful runs are carried over and take a word. -/
abbrev Moves (p q : Parser α) : Prop := Carries false false p q fun _ => true

/-- The parser does not end well at the end of a stream. -/
def Barren (p : Parser α) : Prop := ∀ stop r, p ⟨[], stop⟩ ≠ .ok r

/-- A sequence is barren if its first part is. -/
theorem Barren.bind {p : Parser α} {f : α → Parser β} (h : Barren p) : Barren (p >>= f) := by
  intro stop r hRun
  obtain ⟨a, hFirst, -⟩ := exists_of_bind_eq_ok (x := p ⟨[], stop⟩) hRun
  exact h stop a hFirst

namespace Carries

variable {m full : Bool} {p q : Parser α} {f f' : α → Parser β} {post : α → Bool}
variable {after : β → Bool}

/-- What is carried over is so under stronger conditions, with less said of its value. -/
theorem mono {m' full' : Bool} {post' : α → Bool} (h : Carries m full p q post)
    (hm : m = true → m' = true) (hFull : full = true → full' = true)
    (hPost : ∀ a, post' a = true → post a = true) : Carries m' full' p q post' := by
  intro closed bound s s' a r hNear hRun
  obtain ⟨r', hRun', hAfter⟩ := h closed bound s s' a r (hNear.mono hm hFull) hRun
  exact ⟨r', hRun', hAfter.mono (hPost a) id⟩

/-- Runs that are carried over from any stream are carried over from one that is as said. -/
theorem anywhere (h : Moves p q) : Carries m full p q fun _ => true :=
  h.mono nofun nofun fun _ h => h

/-- To return a value moves nothing in either stream. -/
theorem pure {a : α} (h : post a = true → m = true) :
    Carries m full (pure a) (pure a) post := by
  intro closed bound s s' a r hNear hRun
  cases hRun
  exact ⟨s', rfl, hNear.mono h nofun⟩

/-- Parsers in sequence are carried over one after the other. -/
theorem bind (hp : Carries m full p q post) (hf : ∀ a, Carries (post a) false (f a) (f' a) after) :
    Carries m full (p >>= f) (q >>= f') after := by
  intro closed bound s s' b r hNear hRun
  obtain ⟨⟨a, t⟩, hFirst, hThen⟩ := exists_of_bind_eq_ok (x := p s) hRun
  obtain ⟨t', hFirst', hMiddle⟩ := hp closed bound s s' a t hNear hFirst
  obtain ⟨r', hThen', hAfter⟩ := hf a closed bound t t' b r hMiddle hThen
  refine ⟨r', ?_, hAfter⟩
  change (q s' >>= fun r => f' r.1 r.2) = _
  rw [hFirst']
  exact hThen'

/-- A value is made of what is read. -/
theorem done {g : α → β} (hp : Moves p q) :
    Carries m full (p >>= fun a => Pure.pure (g a)) (q >>= fun a => Pure.pure (g a)) after :=
  bind hp.anywhere fun _ => pure fun _ => rfl

theorem map {g : α → β} (hp : Carries m full p q post) (h : ∀ a, after (g a) = true → post a = true) :
    Carries m full (g <$> p) (g <$> q) after :=
  bind hp fun a => pure (h a)

theorem mapped {γ : Type} {g : γ → α} {p q : Parser γ} {post : γ → Bool}
    (hp : Carries m full p q post) (hf : ∀ c, Carries (post c) false (f (g c)) (f' (g c)) after) :
    Carries m full (g <$> p >>= f) (g <$> q >>= f') after := by
  rw [bind_map_left, bind_map_left]
  exact bind hp hf

/-- A value that is given does not have to be read. -/
theorem given {a : α} (h : Carries m full (f a) (f' a) after) :
    Carries m full (Pure.pure a >>= f) (Pure.pure a >>= f') after := h

/-- Both branches of a test may use its outcome, which is the same in both runs. -/
theorem ite {c : Prop} [Decidable c] {p' q' : Parser α} (h : c → Carries m full p q post)
    (h' : ¬ c → Carries m full p' q' post) :
    Carries m full (if c then p else p') (if c then q else q') post := by
  split
  · next hc => exact h hc
  · next hc => exact h' hc

/-- Both parsers only look at their streams, and see the same. -/
theorem watch {view : TokenStream → α} (hp : Watches p view) (hq : Watches q view)
    (hSame : ∀ closed bound s s', Near closed m full bound s s' → view s = view s')
    (hf : ∀ a, Carries m full (f a) (f' a) after) :
    Carries m full (p >>= f) (q >>= f') after := by
  intro closed bound s s' b r hNear hRun
  change (p s >>= fun r => f r.1 r.2) = _ at hRun
  rw [hp] at hRun
  obtain ⟨r', hRun', hAfter⟩ := hf _ closed bound s s' b r hNear hRun
  refine ⟨r', ?_, hAfter⟩
  change (q s' >>= fun r => f' r.1 r.2) = _
  rw [hq, ← hSame closed bound s s' hNear]
  exact hRun'

end Carries

/-- A run that fails has nothing to carry over. -/
theorem Fails.carries {m full : Bool} {p q : Parser α} {post : α → Bool} (h : Fails p) :
    Carries m full p q post :=
  fun _ _ s _ a r _ hRun => absurd hRun (h s (a, r))

section Primitives

variable {m full : Bool} {after : β → Bool}

namespace Carries

/-- A test of the word `n` places ahead. If the next word passes it, the stream is not at its end. The
brace must not pass it, unless the first run fails at its end. -/
theorem test {p : Parser Bool} {f f' : Bool → Parser β} (n : Nat) {test : Lexeme → Bool}
    (hp : Watches p fun s => (s.words[n]?.map Located.word).any test)
    (hPlain : ∀ w : Lexeme, test w.plain = test w)
    (hClose : test (.punct .closeBrace) = true → n = 0 ∧ Barren (f false))
    (hTrue : Carries m (n == 0 || full) (f true) (f' true) after)
    (hFalse : Carries m full (f false) (f' false) after) :
    Carries m full (p >>= f) (p >>= f') after := by
  intro closed bound s s' b r hNear hRun
  change (p s >>= fun r => f r.1 r.2) = _ at hRun
  change ∃ r', (p s' >>= fun r => f' r.1 r.2) = _ ∧ _
  rw [hp] at hRun ⊢
  have hSame : (s.words[n]?.map Located.word).any test = (s'.words[n]?.map Located.word).any test := by
    refine hNear.echoes.test_eq _ hPlain ?_
    by_cases hBrace : test (.punct .closeBrace) = true
    · obtain ⟨rfl, hBarren⟩ := hClose hBrace
      refine .inr ⟨rfl, fun hNil => ?_⟩
      obtain ⟨words, stop⟩ := s
      cases hNil
      exact absurd hRun (hBarren _ _)
    · exact .inl (by simpa using hBrace)
  dsimp only at hRun ⊢
  rw [← hSame]
  cases hTest : (s.words[n]?.map Located.word).any test with
  | false =>
      rw [hTest] at hRun
      exact hFalse closed bound s s' b r hNear hRun
  | true =>
      rw [hTest] at hRun
      refine hTrue closed bound s s' b r ⟨hNear.echoes, hNear.length, fun h => ?_⟩ hRun
      cases n with
      | zero =>
          intro hNil
          simp [hNil] at hTest
      | succ n => exact hNear.nonempty (by simpa using h)

/-- Whether a sign is seen is the same in both. Where it is the brace, the first run must not end
well without it. -/
theorem sees {f f' : Bool → Parser β} {sign : Punct}
    (hSign : sign = .closeBrace → Barren (f false))
    (hTrue : Carries m true (f true) (f' true) after)
    (hFalse : Carries m full (f false) (f' false) after) :
    Carries m full (Parser.sees sign >>= f) (Parser.sees sign >>= f') after :=
  test 0 (watches_sees sign) (Lexeme.plain_test _ fun _ _ _ _ => rfl)
    (fun h => ⟨rfl, hSign (eq_of_beq h).symm⟩) hTrue hFalse

/-- Whether a name is seen is the same in both streams. -/
theorem seesName {f f' : Bool → Parser β} {name : String}
    (hTrue : Carries m true (f true) (f' true) after)
    (hFalse : Carries m full (f false) (f' false) after) :
    Carries m full (Parser.seesName name >>= f) (Parser.seesName name >>= f') after :=
  test 0 (watches_seesName name) (Lexeme.plain_test _ fun _ _ _ _ => rfl) nofun hTrue hFalse

/-- Whatever the next word is, the runs go on alike. -/
theorem peekName {f f' : Bool → Parser β} {name : String}
    (hf : ∀ b, Carries m full (f b) (f' b) after) :
    Carries m full (Parser.seesName name >>= f) (Parser.seesName name >>= f') after :=
  seesName ((hf true).mono id (fun _ => rfl) fun _ => id) (hf false)

/-- Whether one of some signs is seen is the same in both, unless the brace is among them. -/
theorem seesAny {f f' : Bool → Parser β} {signs : List Punct}
    (hSigns : signs.contains .closeBrace = false)
    (hTrue : Carries m true (f true) (f' true) after)
    (hFalse : Carries m full (f false) (f' false) after) :
    Carries m full (Parser.seesAny signs >>= f) (Parser.seesAny signs >>= f') after :=
  test 0 (seesAny_run signs) (Lexeme.plain_test _ fun _ _ _ _ => rfl)
    (fun h => by rw [Lexeme.isOneOf, hSigns] at h; cases h) hTrue hFalse

/-- Whether a word is seen is the same in both streams. -/
theorem seesWord {f f' : Bool → Parser β} (hf : ∀ b, Carries m full (f b) (f' b) after) :
    Carries m full (Parser.seesWord >>= f) (Parser.seesWord >>= f') after :=
  test 0 seesWord_run (Lexeme.plain_test _ fun _ _ _ _ => rfl) nofun
    ((hf true).mono id (fun _ => rfl) fun _ => id) (hf false)

/-- One word further on the brace may come into sight, so it must not be the sign that is looked
for. -/
theorem signAhead {f f' : Bool → Parser β} {sign : Punct} (hSign : sign ≠ .closeBrace)
    (hf : ∀ b, Carries m full (f b) (f' b) after) :
    Carries m full (Parser.signAhead 1 sign >>= f) (Parser.signAhead 1 sign >>= f') after :=
  test 1 (signAhead_run 1 sign) (Lexeme.plain_test _ fun _ _ _ _ => rfl)
    (fun h => absurd (eq_of_beq h).symm hSign) (hf true) (hf false)

theorem nameAhead {f f' : Bool → Parser β} {name : String}
    (hf : ∀ b, Carries m full (f b) (f' b) after) :
    Carries m full (Parser.nameAhead 1 name >>= f) (Parser.nameAhead 1 name >>= f') after :=
  test 1 (nameAhead_run 1 name) (Lexeme.plain_test _ fun _ _ _ _ => rfl) nofun (hf true) (hf false)

/-- The next word. At the end of the first stream the second may have the brace. -/
theorem next {f f' : Option Lexeme → Parser β}
    (hEnd : ∀ w, w = none ∨ w = some (.punct .closeBrace) →
      Carries m full (f none) (f' w) after)
    (hWord : ∀ w, w.isTemplate = false → Carries m true (f (some w)) (f' (some w)) after)
    (hTemplate : ∀ quasis parts parts', Lexeme.plainParts parts = Lexeme.plainParts parts' →
      Carries m true (f (some (.template quasis parts))) (f' (some (.template quasis parts')))
        after) :
    Carries m full (next? >>= f) (next? >>= f') after := by
  intro closed bound s s' b r hNear hRun
  obtain ⟨words, stop⟩ := s
  obtain ⟨words', stop'⟩ := s'
  obtain ⟨hEchoes, hLength, hFull⟩ := id hNear
  cases hEchoes with
  | nil => exact hEnd none (.inl rfl) _ bound _ _ b r hNear hRun
  | close span => exact hEnd _ (.inr rfl) _ bound _ _ b r hNear hRun
  | @cons _ _ t t' ts ts' hPlain hLine h =>
      have hNear' : Near closed m true bound ⟨t :: ts, stop⟩ ⟨t' :: ts', stop'⟩ :=
        ⟨hNear.echoes, hLength, fun _ => nofun⟩
      change f (some t.word) _ = _ at hRun
      change ∃ r', f' (some t'.word) _ = _ ∧ _
      rcases Lexeme.same_of_plain_eq hPlain with ⟨hSame, hShape⟩ | ⟨quasis, parts, parts', h, h', hParts⟩
      · rw [← hSame]
        exact hWord _ hShape _ bound _ _ b r hNear' hRun
      · rw [h] at hRun
        rw [h']
        exact hTemplate _ _ _ hParts _ bound _ _ b r hNear' hRun

/-- A word is taken from both streams. -/
theorem advance : Carries m true Parser.advance Parser.advance fun _ => true := by
  intro closed bound s s' a r hNear hRun
  cases hRun
  obtain ⟨words, stop⟩ := s
  obtain ⟨words', stop'⟩ := s'
  obtain ⟨hEchoes, hLength, hFull⟩ := hNear
  cases hEchoes with
  | nil => exact absurd rfl (hFull rfl)
  | close span => exact absurd rfl (hFull rfl)
  | cons hPlain hLine h =>
      refine ⟨_, rfl, h, ?_, nofun⟩
      simp only [List.length_cons] at hLength
      simp only [List.tail_cons, Bool.toNat_true]
      omega

/-- A sign is taken from both streams or from neither. Where it is the brace, the first run must not
end well without it. -/
theorem eat {f f' : Bool → Parser β} {sign : Punct}
    (hSign : sign = .closeBrace → Barren (f false))
    (hTrue : Carries true false (f true) (f' true) after)
    (hFalse : Carries m full (f false) (f' false) after) :
    Carries m full (Parser.eat sign >>= f) (Parser.eat sign >>= f') after := by
  unfold Parser.eat
  rw [bind_assoc, bind_assoc]
  refine sees hSign ?_ hFalse
  rw [if_pos rfl, bind_assoc, bind_assoc]
  exact bind advance fun _ => hTrue

theorem eatName {f f' : Bool → Parser β} {name : String}
    (hTrue : Carries true false (f true) (f' true) after)
    (hFalse : Carries m full (f false) (f' false) after) :
    Carries m full (Parser.eatName name >>= f) (Parser.eatName name >>= f') after := by
  unfold Parser.eatName
  rw [bind_assoc, bind_assoc]
  refine seesName ?_ hFalse
  rw [if_pos rfl, bind_assoc, bind_assoc]
  exact bind advance fun _ => hTrue

/-- A sign that may be left out. -/
theorem eats {sign : Punct} (hSign : sign ≠ .closeBrace) :
    Carries true full (Parser.eat sign) (Parser.eat sign) fun _ => true := by
  rw [← bind_pure (Parser.eat sign)]
  exact eat (fun h => absurd h hSign) (pure fun _ => rfl) (pure fun _ => rfl)

/-- A sign that is demanded is taken from both streams. -/
theorem expect {sign : Punct} (hSign : sign ≠ .closeBrace) :
    Carries m full (Parser.expect sign) (Parser.expect sign) fun _ => true :=
  eat (fun h => absurd h hSign) (pure fun _ => rfl) (fails_expected _).carries

/-- Whether the next word is on a new line is the same once a word has been taken; the brace is on
one, as the end is taken to be. -/
theorem onNewLine {f f' : Bool → Parser β} (hf : ∀ b, Carries true full (f b) (f' b) after) :
    Carries true full (Parser.onNewLine >>= f) (Parser.onNewLine >>= f') after := by
  refine watch watches_onNewLine watches_onNewLine ?_ hf
  rintro closed bound ⟨words, stop⟩ ⟨words', stop'⟩ ⟨hEchoes, -, -⟩
  cases hEchoes with
  | nil => rfl
  | close span => rfl
  | cons hPlain hLine h => simpa using hLine rfl

/-- What is done at the end fails. -/
theorem atEnd {f f' : Bool → Parser β} (hEnd : Fails (f true))
    (hf : Carries m true (f false) (f' false) after) :
    Carries m full (Parser.atEnd >>= f) (Parser.atEnd >>= f') after := by
  rintro closed bound ⟨words, stop⟩ ⟨words', stop'⟩ b r ⟨hEchoes, hLength, hFull⟩ hRun
  cases hEchoes with
  | nil => exact absurd hRun (hEnd _ _)
  | close span => exact absurd hRun (hEnd _ _)
  | cons hPlain hLine h =>
      exact hf closed bound _ _ b r ⟨.cons hPlain hLine h, hLength, fun _ => nofun⟩ hRun

/-- Places may differ. -/
theorem place {f f' : Text.Span → Parser β}
    (hf : ∀ span span', Carries m full (f span) (f' span') after) :
    Carries m full (Parser.place >>= f) (Parser.place >>= f') after := by
  intro closed bound s s' b r hNear hRun
  exact hf _ _ closed bound s s' b r hNear hRun

theorem identifier : Moves Parser.identifier Parser.identifier := by
  refine next (fun _ _ => (fails_expected _).carries) (fun w _ => ?_) fun _ _ _ _ =>
    (fails_expected _).carries
  split
  · exact ite (fun _ => (fails_expected _).carries) fun _ => bind advance fun _ => pure fun _ => rfl
  · exact (fails_expected _).carries

theorem propertyName : Moves Parser.propertyName Parser.propertyName := by
  refine next (fun _ _ => (fails_expected _).carries) (fun w _ => ?_) fun _ _ _ _ =>
    (fails_expected _).carries
  split
  · exact bind advance fun _ => pure fun _ => rfl
  · exact (fails_expected _).carries

end Carries

end Primitives

section Loops

namespace Carries

/-- A step that gives something takes a word. -/
theorem shorter {step step' : Parser (Option α)}
    (h : ∀ m, Carries m false step step' fun o => m || o.isSome) {closed : Bool} {bound : Nat}
    {s s' t : TokenStream} {a : α} (hNear : Near closed true false bound s s')
    (hStep : step s = .ok (some a, t)) : t.words.length < s.words.length := by
  obtain ⟨_, -, hShorter⟩ := h false closed s.words.length s s' (some a) t
    ⟨hNear.echoes.mono nofun, Nat.le_refl _, nofun⟩ hStep
  exact hShorter.length

/-- The steps of a loop take a word whenever they give something, so that the words bound the number
of steps in both runs. -/
theorem collect {step step' : Parser (Option α)}
    (h : ∀ m, Carries m false step step' fun o => m || o.isSome) {limit limit' : Nat} {closed : Bool}
    {bound : Nat} {s s' r : TokenStream} {as : List α} (hNear : Near closed true false bound s s')
    (hLimit : s.words.length < limit) (hLimit' : s'.words.length < limit')
    (hRun : Parser.collect step limit s = .ok (as, r)) :
    ∃ r', Parser.collect step' limit' s' = .ok (as, r') ∧ Near closed true false bound r r' := by
  induction limit generalizing limit' s s' as with
  | zero => omega
  | succ limit ih =>
      obtain ⟨limit', rfl⟩ := Nat.exists_eq_succ_of_ne_zero (by omega : limit' ≠ 0)
      obtain ⟨⟨o, t⟩, hStep, hMore⟩ := exists_of_bind_eq_ok (x := step s) hRun
      obtain ⟨t', hStep', hNear'⟩ := h true closed bound s s' o t hNear hStep
      cases o with
      | none =>
          cases hMore
          refine ⟨t', ?_, hNear'⟩
          change (step' s' >>= _) = _
          rw [hStep']
          rfl
      | some a =>
          obtain ⟨⟨as', r'⟩, hRest, hDone⟩ := exists_of_bind_eq_ok (x := Parser.collect step limit t) hMore
          cases hDone
          have hShorter := shorter h hNear hStep
          have hLength := hNear.echoes.length_eq
          have hLength' := hNear'.echoes.length_eq
          have hLimit : t'.words.length < limit' := by omega
          obtain ⟨u', hRest', hLast⟩ := ih hNear' (by omega) hLimit hRest
          refine ⟨u', ?_, hLast⟩
          change (step' s' >>= _) = _
          rw [hStep']
          change (Parser.collect step' limit' t' >>= _) = _
          rw [hRest']
          rfl

/-- A repetition stops at the end of the first stream, and at the brace of the second. Its limits
differ and bound neither run. -/
theorem many {step step' : Parser (Option α)}
    (h : ∀ m, Carries m false step step' fun o => m || o.isSome) :
    Carries true false (Parser.many step) (Parser.many step') fun _ => true :=
  fun _ _ _ _ _ _ hNear hRun => collect h hNear (Nat.lt_succ_self _) (Nat.lt_succ_self _) hRun

/-- An extension stops at the end of the first stream, and at the brace of the second. -/
theorem extend {step step' : α → Parser (Option α)}
    (h : ∀ a m, Carries m false (step a) (step' a) fun o => m || o.isSome) {limit limit' : Nat}
    {closed : Bool} {bound : Nat} {s s' r : TokenStream} {a b : α}
    (hNear : Near closed true false bound s s') (hLimit : s.words.length < limit)
    (hLimit' : s'.words.length < limit') (hRun : Parser.extend step a limit s = .ok (b, r)) :
    ∃ r', Parser.extend step' a limit' s' = .ok (b, r') ∧ Near closed true false bound r r' := by
  induction limit generalizing limit' s s' a with
  | zero => omega
  | succ limit ih =>
      obtain ⟨limit', rfl⟩ := Nat.exists_eq_succ_of_ne_zero (by omega : limit' ≠ 0)
      obtain ⟨⟨o, t⟩, hStep, hMore⟩ := exists_of_bind_eq_ok (x := step a s) hRun
      obtain ⟨t', hStep', hNear'⟩ := h a true closed bound s s' o t hNear hStep
      cases o with
      | none =>
          cases hMore
          refine ⟨t', ?_, hNear'⟩
          change (step' _ s' >>= _) = _
          rw [hStep']
          rfl
      | some c =>
          have hShorter := shorter (h a) hNear hStep
          have hLength := hNear.echoes.length_eq
          have hLength' := hNear'.echoes.length_eq
          have hLimit : t'.words.length < limit' := by omega
          obtain ⟨u', hRest', hLast⟩ := ih hNear' (by omega) hLimit hMore
          refine ⟨u', ?_, hLast⟩
          change (step' a s' >>= _) = _
          rw [hStep']
          exact hRest'

theorem grow {step step' : α → Parser (Option α)}
    (h : ∀ a m, Carries m false (step a) (step' a) fun o => m || o.isSome) (a : α) :
    Carries true false (Parser.grow step a) (Parser.grow step' a) fun _ => true :=
  fun _ _ _ _ _ _ hNear hRun => extend h hNear (Nat.lt_succ_self _) (Nat.lt_succ_self _) hRun

/-- Items with commas between them are carried over as the items are. -/
theorem commaSeparated {item item' : Parser α} (h : Moves item item') :
    Moves (Parser.commaSeparated item) (Parser.commaSeparated item') := by
  refine bind h fun a => bind (many fun m => ?_) fun _ => pure fun _ => rfl
  refine eat nofun (done h) ?_
  exact pure (by simp)

/-- Items up to a closing sign. If that is the brace, there is no item at the end. -/
theorem enclosed {item item' : Parser (List α)} {close : Punct}
    (hClose : close = .closeBrace → Barren item) (h : Moves item item') :
    Carries true false (Parser.enclosed close item) (Parser.enclosed close item') fun _ => true := by
  refine map (many fun m => ?_) fun _ _ => rfl
  refine eat (fun hBrace => (hClose hBrace).bind) (pure (by simp)) ?_
  exact done h

/-- Items in brackets are carried over, unless the bracket is the brace and an item could be missing
before it. -/
theorem listed {item item' : Parser α} {close : Punct} (hClose : close = .closeBrace → Barren item)
    (h : Moves item item') :
    Carries true false (Parser.listed close item) (Parser.listed close item') fun _ => true := by
  refine enclosed (fun hBrace => (hClose hBrace).bind) (bind h fun a => ?_)
  refine sees (fun _ => fun _ _ h => by cases h) (pure fun _ => rfl) ?_
  exact bind (expect nofun) fun _ => pure fun _ => rfl

/-- An expression of a template ends in both runs with its own words. -/
theorem inside {p q : Parser α} {part part' : TokenStream} {wanted : String} {m full : Bool}
    (h : Moves p q) (hPart : Lexeme.plainWords part.words = Lexeme.plainWords part'.words) :
    Carries m full (Parser.inside part p wanted) (Parser.inside part' q wanted) fun _ => m := by
  intro closed bound s s' a r hNear hRun
  have hPartNear : Near false false false part.words.length part part' :=
    ⟨.of_plainWords hPart, Nat.le_refl _, fun h => absurd h Bool.false_ne_true⟩
  rw [Parser.inside] at hRun
  cases hRead : (do
      let a ← p
      if ← Parser.atEnd then return a else expected wanted : Parser α).run part with
  | error fault =>
      simp only [hRead] at hRun
      cases hRun
  | ok b =>
      simp only [hRead] at hRun
      cases hRun
      obtain ⟨⟨a, t⟩, hFirst, hEnd⟩ := exists_of_bind_eq_ok (x := p part) hRead
      obtain ⟨⟨words', stop'⟩, hFirst', hNear', -, -⟩ := h false _ part part' a t hPartNear hFirst
      obtain ⟨words, stop⟩ := t
      cases hNear' with
      | cons => cases hEnd
      | nil =>
          cases hEnd
          have hRead' : (do
              let a ← q
              if ← Parser.atEnd then return a else expected wanted : Parser α).run part' =
              .ok (a, ⟨[], stop'⟩) := by
            change (q part' >>= _) = _
            rw [hFirst']
            rfl
          refine ⟨s', ?_, hNear.mono id fun h => absurd h Bool.false_ne_true⟩
          rw [Parser.inside]
          simp only [hRead']
          rfl

/-- The expressions of a template have streams of their own, which the brace does not follow. -/
theorem mapM_inside {p q : Parser α} {wanted : String} {m full : Bool} (h : Moves p q)
    {parts parts' : List TokenStream} (hParts : Lexeme.plainParts parts = Lexeme.plainParts parts') :
    Carries m full (parts.mapM fun part => Parser.inside part p wanted)
      (parts'.mapM fun part => Parser.inside part q wanted) fun _ => m := by
  induction parts generalizing parts' full with
  | nil =>
      cases parts' with
      | nil =>
          rw [List.mapM_nil]
          exact pure fun h => h
      | cons => cases hParts
  | cons part parts ih =>
      cases parts' with
      | nil => cases hParts
      | cons part' parts' =>
          simp only [Lexeme.plainParts, List.cons.injEq, Words.mk.injEq] at hParts
          rw [List.mapM_cons, List.mapM_cons]
          exact bind (inside h hParts.1.1) fun a => bind (ih hParts.2) fun as => pure fun h => h

end Carries

end Loops

end Parser

end CodeShape
