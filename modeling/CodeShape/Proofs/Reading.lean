import CodeShape.Proofs.Looking
import Mathlib.Data.List.Forall2

/-!
What a parser makes of given words. A parser reads some words as a value if it takes just these words
off any stream that starts with them, wherever they stand and whatever follows, as long as the word
after them is one that it stops at. Readings of parts compose to readings of the whole.
-/
namespace CodeShape

mutual

/-- The word without the places of the words in it. -/
def Lexeme.plain : Lexeme → Lexeme
  | .template quasis parts => .template quasis (Lexeme.plainParts parts)
  | word => word

/-- The expressions of a template without their places. -/
def Lexeme.plainParts : List (Words Lexeme) → List (Words Lexeme)
  | [] => []
  | ⟨words, _⟩ :: parts => ⟨Lexeme.plainWords words, ⟨0, 0⟩⟩ :: Lexeme.plainParts parts

/-- The words of an expression in a template without their places. -/
def Lexeme.plainWords : List (Located Lexeme) → List (Located Lexeme)
  | [] => []
  | ⟨word, _, afterLineEnd⟩ :: words =>
    ⟨word.plain, ⟨0, 0⟩, afterLineEnd⟩ :: Lexeme.plainWords words

end

namespace Lexeme

def isTemplate : Lexeme → Bool
  | .template _ _ => true
  | _ => false

/-- A word that is no template is not changed by leaving places out. -/
theorem eq_of_plain {w v : Lexeme} (h : w.plain = v) (hv : v.isTemplate = false) : w = v := by
  subst h
  cases w with
  | template quasis parts => simp [plain, isTemplate] at hv
  | _ => rfl

/-- Leaving places out keeps the words and the line ends of a stream. -/
theorem plainWords_eq_map (ts : List Token) :
    plainWords ts = ts.map fun t => ⟨t.word.plain, ⟨0, 0⟩, t.afterLineEnd⟩ := by
  induction ts with
  | nil => rfl
  | cons t ts ih => simp [plainWords, ih]

theorem weight_pos (w : Lexeme) : 0 < w.weight := by
  cases w <;> simp [weight]

mutual

/-- Words keep their weight without their places, so limits need not be counted again. -/
theorem weight_plain (w : Lexeme) : w.plain.weight = w.weight := by
  cases w with
  | template quasis parts => rw [plain, weight, weight, partsWeight_plain]
  | _ => rfl

theorem partsWeight_plain (parts : List TokenStream) :
    partsWeight (plainParts parts) = partsWeight parts := by
  cases parts with
  | nil => rfl
  | cons part parts =>
      obtain ⟨words, stop⟩ := part
      rw [plainParts, partsWeight, partsWeight, wordsWeight_plain, partsWeight_plain]

theorem wordsWeight_plain (words : List Token) :
    wordsWeight (plainWords words) = wordsWeight words := by
  cases words with
  | nil => rfl
  | cons t words =>
      obtain ⟨word, span, flag⟩ := t
      rw [plainWords, wordsWeight, wordsWeight, weight_plain, wordsWeight_plain]

end

end Lexeme

namespace Parser

variable {α β : Type}

/-- Tokens that spell the words. Only the first may stand on a new line. -/
structure Spelled (tokens : List Token) (words : List Lexeme) : Prop where
  words_eq : tokens.map (·.word.plain) = words
  inline : ∀ t ∈ tokens.tail, t.afterLineEnd = false

def nextWord (rest : List Token) : Option Lexeme := rest.head?.map (·.word.plain)

namespace Spelled

variable {tokens : List Token} {u v : List Lexeme}

/-- What spells two texts splits into what spells each, on one line where the first is not empty. -/
theorem exists_append (h : Spelled tokens (u ++ v)) :
    ∃ ts ts', tokens = ts ++ ts' ∧ Spelled ts u ∧ Spelled ts' v ∧
      (u ≠ [] → ∀ t ∈ ts', t.afterLineEnd = false) := by
  obtain ⟨ts, ts', rfl, rfl, rfl⟩ := List.map_eq_append_iff.1 h.words_eq
  refine ⟨ts, ts', rfl, ⟨rfl, ?_⟩, ⟨rfl, ?_⟩, ?_⟩
  · intro t ht
    exact h.inline t (by cases ts <;> simp_all)
  · intro t ht
    have := List.mem_of_mem_tail ht
    exact h.inline t (by cases ts <;> simp_all)
  · intro hu t ht
    exact h.inline t (by cases ts <;> simp_all)

/-- What spells a word and more starts with that word. -/
theorem exists_cons {w : Lexeme} (h : Spelled tokens (w :: u)) :
    ∃ t ts, tokens = t :: ts ∧ t.word.plain = w ∧ Spelled ts u := by
  obtain ⟨ts, ts', rfl, hFirst, hRest, -⟩ := exists_append (u := [w]) h
  obtain ⟨t, rfl, rfl⟩ := List.map_eq_singleton_iff.1 hFirst.words_eq
  exact ⟨t, ts', rfl, rfl, hRest⟩

theorem eq_nil (h : Spelled tokens []) : tokens = [] := List.map_eq_nil_iff.1 h.words_eq

/-- The word after a text is the first of the rest if the text is empty. -/
theorem nextWord_append (h : Spelled tokens u) (rest : List Token) :
    nextWord (tokens ++ rest) = u.head?.or (nextWord rest) := by
  obtain ⟨rfl, -⟩ := h
  cases tokens <;> simp [nextWord]

theorem length_eq (h : Spelled tokens u) : tokens.length = u.length := by
  rw [← h.words_eq, List.length_map]

end Spelled

/-- The parser takes the words off a stream and gives the value, if the word after them is as
said. -/
def Reads (p : Parser α) (words : List Lexeme) (a : α) (follow : Option Lexeme → Prop) : Prop :=
  ∀ tokens rest stop, Spelled tokens words → follow (nextWord rest) →
    p ⟨tokens ++ rest, stop⟩ = .ok (a, ⟨rest, stop⟩)

/-- The parser gives the value before a stream that starts with the words, and takes nothing. -/
def Looks (p : Parser α) (words : List Lexeme) (a : α) (follow : Option Lexeme → Prop) : Prop :=
  ∀ tokens rest stop, Spelled tokens words → follow (nextWord rest) →
    p ⟨tokens ++ rest, stop⟩ = .ok (a, ⟨tokens ++ rest, stop⟩)

namespace Reads

variable {p : Parser α} {u v : List Lexeme} {a : α} {b : β} {F G : Option Lexeme → Prop}

/-- A reading that allows any next word of one kind allows those of a narrower kind. -/
theorem mono (h : Reads p u a F) (hG : ∀ next, G next → F next) : Reads p u a G :=
  fun tokens rest stop hs hNext => h tokens rest stop hs (hG _ hNext)

/-- To return a value takes no words. -/
theorem pure : Reads (pure a) [] a F := by
  intro tokens rest stop hs _
  rw [hs.eq_nil]
  rfl

/-- Readings in sequence. The first stops at the next word of what the second reads or, if that is
nothing, of what comes after. -/
theorem bind {f : α → Parser β} (hp : Reads p u a F) (hf : Reads (f a) v b G)
    (hNext : ∀ next, G next → F (v.head?.or next)) : Reads (p >>= f) (u ++ v) b G := by
  intro tokens rest stop hs hRest
  obtain ⟨ts, ts', rfl, hu, hv, -⟩ := hs.exists_append
  have hFirst := hp ts (ts' ++ rest) stop hu (by
    rw [hv.nextWord_append]
    exact hNext _ hRest)
  change (p ⟨ts ++ ts' ++ rest, stop⟩ >>= fun r => f r.1 r.2) = _
  rw [List.append_assoc, hFirst]
  exact hf ts' rest stop hv hRest

/-- Looking ahead before a reading takes nothing. -/
theorem look {f : α → Parser β} (hp : Looks p u a F) (hf : Reads (f a) u b G)
    (hNext : ∀ next, G next → F next) : Reads (p >>= f) u b G := by
  intro tokens rest stop hs hRest
  change (p ⟨tokens ++ rest, stop⟩ >>= fun r => f r.1 r.2) = _
  rw [hp tokens rest stop hs (hNext _ hRest)]
  exact hf tokens rest stop hs hRest

/-- What is made of a value reads the same words. -/
theorem done {f : α → β} (hp : Reads p u a F) :
    Reads (p >>= fun a => Pure.pure (f a)) u (f a) F := by
  intro tokens rest stop hs hNext
  change (p ⟨tokens ++ rest, stop⟩ >>= fun r => Pure.pure (f r.1, r.2)) = _
  rw [hp tokens rest stop hs hNext]
  rfl

theorem map {f : α → β} (hp : Reads p u a F) : Reads (f <$> p) u (f a) F := hp.done

/-- A parser that looks at the next word first. -/
theorem peek {f : Option Lexeme → Parser β} {w : Lexeme}
    (hf : ∀ x : Lexeme, x.plain = w → Reads (f (some x)) (w :: u) b G) :
    Reads (next? >>= f) (w :: u) b G := by
  intro tokens rest stop hs hRest
  obtain ⟨t, ts, rfl, hWord, -⟩ := hs.exists_cons
  exact hf t.word hWord (t :: ts) rest stop hs hRest

/-- A choice by the next word, which is left to be read. -/
theorem peek_word {f : Option Lexeme → Parser β} {w : Lexeme} (hw : w.isTemplate = false)
    (hf : Reads (f (some w)) (w :: u) b G) : Reads (next? >>= f) (w :: u) b G :=
  peek fun _ hv => Lexeme.eq_of_plain hv hw ▸ hf

/-- A parser that looks past the words it takes. -/
theorem peek_next {f : Option Lexeme → Parser β}
    (hf : ∀ next : Option Lexeme, G (next.map Lexeme.plain) → Reads (f next) [] b G) :
    Reads (next? >>= f) [] b G := by
  intro tokens rest stop hs hRest
  cases hs.eq_nil
  change f (rest[0]?.map Located.word) _ = _
  refine hf _ ?_ [] rest stop hs hRest
  simpa [nextWord, Function.comp_def, List.head?_eq_getElem?] using hRest

/-- The place of a word is nothing that a reading depends on. -/
theorem place {f : Text.Span → Parser β} (hf : ∀ span, Reads (f span) u b G) :
    Reads (place >>= f) u b G :=
  fun tokens rest stop hs hRest => hf _ tokens rest stop hs hRest

/-- A parser that looks at the stream first, and does the same whatever it sees. -/
theorem watch {view : TokenStream → α} {f : α → Parser β} (hp : Watches p view)
    (hf : ∀ a, Reads (f a) u b G) :
    Reads (p >>= f) u b G := by
  intro tokens rest stop hs hRest
  change (p ⟨tokens ++ rest, stop⟩ >>= fun r => f r.1 r.2) = _
  rw [hp]
  exact hf _ tokens rest stop hs hRest

end Reads

namespace Looks

variable {p : Parser α} {u : List Lexeme} {a : α} {b : β} {F G : Option Lexeme → Prop}

theorem mono (h : Looks p u a F) (hG : ∀ next, G next → F next) : Looks p u a G :=
  fun tokens rest stop hs hNext => h tokens rest stop hs (hG _ hNext)

theorem pure : Looks (pure a) u a F := fun _ _ _ _ _ => rfl

/-- What is seen ahead of some words is seen ahead of more. -/
theorem append {v : List Lexeme} (h : Looks p u a F)
    (hNext : ∀ next, G next → F (v.head?.or next)) : Looks p (u ++ v) a G := by
  intro tokens rest stop hs hRest
  obtain ⟨ts, ts', rfl, hu, hv, -⟩ := hs.exists_append
  have hLook := h ts (ts' ++ rest) stop hu (by
    rw [hv.nextWord_append]
    exact hNext _ hRest)
  rw [List.append_assoc]
  exact hLook

/-- Two looks ahead see the same words. -/
theorem bind {f : α → Parser β} (hp : Looks p u a F) (hf : Looks (f a) u b F) :
    Looks (p >>= f) u b F := by
  intro tokens rest stop hs hRest
  change (p ⟨tokens ++ rest, stop⟩ >>= fun r => f r.1 r.2) = _
  rw [hp tokens rest stop hs hRest]
  exact hf tokens rest stop hs hRest

end Looks

/-- The parser takes the words off a stream and gives the value where none of them stands on a new
line. -/
def ReadsInline (p : Parser α) (words : List Lexeme) (a : α) (follow : Option Lexeme → Prop) : Prop :=
  ∀ tokens rest stop, Spelled tokens words → (∀ t ∈ tokens, t.afterLineEnd = false) →
    follow (nextWord rest) → p ⟨tokens ++ rest, stop⟩ = .ok (a, ⟨rest, stop⟩)

namespace ReadsInline

variable {p : Parser α} {u v : List Lexeme} {a : α} {b : β} {F G : Option Lexeme → Prop}

/-- What reads anywhere reads within a line. -/
theorem of_reads (h : Reads p u a F) : ReadsInline p u a F :=
  fun tokens rest stop hs _ hNext => h tokens rest stop hs hNext

/-- What stands after other words is on their line. -/
theorem after {f : α → Parser β} (hp : Reads p u a F) (hu : u ≠ []) (hf : ReadsInline (f a) v b G)
    (hNext : ∀ next, G next → F (v.head?.or next)) : Reads (p >>= f) (u ++ v) b G := by
  intro tokens rest stop hs hRest
  obtain ⟨ts, ts', rfl, hts, hts', hInline⟩ := hs.exists_append
  have hFirst := hp ts (ts' ++ rest) stop hts (by
    rw [hts'.nextWord_append]
    exact hNext _ hRest)
  change (p ⟨ts ++ ts' ++ rest, stop⟩ >>= fun r => f r.1 r.2) = _
  rw [List.append_assoc, hFirst]
  exact hf ts' rest stop hts' (hInline hu) hRest

theorem look {f : α → Parser β} (hp : Looks p u a F) (hf : ReadsInline (f a) u b G)
    (hNext : ∀ next, G next → F next) : ReadsInline (p >>= f) u b G := by
  intro tokens rest stop hs hInline hRest
  change (p ⟨tokens ++ rest, stop⟩ >>= fun r => f r.1 r.2) = _
  rw [hp tokens rest stop hs (hNext _ hRest)]
  exact hf tokens rest stop hs hInline hRest

theorem peek_word {f : Option Lexeme → Parser β} {w : Lexeme} (hw : w.isTemplate = false)
    (hf : ReadsInline (f (some w)) (w :: u) b G) : ReadsInline (next? >>= f) (w :: u) b G := by
  intro tokens rest stop hs hInline hRest
  obtain ⟨t, ts, rfl, hWord, -⟩ := hs.exists_cons
  have hFirst := hf (t :: ts) rest stop hs hInline hRest
  rwa [← Lexeme.eq_of_plain hWord hw] at hFirst

/-- A parser that asks whether the next word stands on a new line. -/
theorem onNewLine {f : Bool → Parser β} (hu : u ≠ []) (hf : ReadsInline (f false) u b G) :
    ReadsInline (onNewLine >>= f) u b G := by
  intro tokens rest stop hs hInline hRest
  obtain ⟨t, ts, rfl⟩ : ∃ t ts, tokens = t :: ts := by
    refine List.exists_cons_of_ne_nil ?_
    rintro rfl
    exact hu hs.words_eq.symm
  have hFirst := hf (t :: ts) rest stop hs hInline hRest
  rwa [← hInline t List.mem_cons_self] at hFirst

end ReadsInline

end Parser

namespace Lexeme

/-- A test that templates do not pass does not see places. -/
theorem plain_test {γ : Type} (test : Lexeme → γ)
    (h : ∀ q ps q' ps', test (.template q ps) = test (.template q' ps')) (w : Lexeme) :
    test w.plain = test w := by
  cases w with
  | template => exact h _ _ _ _
  | _ => rfl

end Lexeme

namespace Parser

section Primitives

variable {α β : Type} {F : Option Lexeme → Prop} {sign : Punct} {name : String} {u : List Lexeme}
variable {w : Lexeme} {b : Bool}

/-- The word `n` places ahead passes a test. -/
theorem looks_test {p : Parser Bool} (n : Nat) (test : Lexeme → Bool)
    (hPlain : ∀ w : Lexeme, test w.plain = test w)
    (hp : ∀ stream, p stream = .ok ((stream.words[n]?.map Located.word).any test, stream))
    {u v : List Lexeme} (hn : u.length = n) :
    Looks p (u ++ v) b fun next => (v.head?.or next).any test = b := by
  intro tokens rest stop hs hNext
  obtain ⟨ts, ts', rfl, hu, hv, -⟩ := hs.exists_append
  rw [hp]
  have hWord : (ts ++ ts' ++ rest)[n]? = (ts' ++ rest).head? := by
    rw [List.append_assoc, List.getElem?_append_right (by rw [hu.length_eq]; omega), hu.length_eq,
      hn, Nat.sub_self, ← List.head?_eq_getElem?]
  have hAny : ((ts' ++ rest).head?.map Located.word).any test = b := by
    rw [← hNext, ← hv.nextWord_append, nextWord]
    cases (ts' ++ rest).head? <;> simp [hPlain]
  rw [hWord, hAny]

/-- Whether a sign comes next is told by the first word of the text or by what follows. -/
theorem looks_sees : Looks (sees sign) u b fun next =>
    (u.head?.or next).any (Lexeme.isSign sign) = b :=
  looks_test 0 _ (Lexeme.plain_test _ fun _ _ _ _ => rfl) (signAhead_run 0 sign) (u := []) rfl

theorem looks_seesName : Looks (seesName name) u b fun next =>
    (u.head?.or next).any (Lexeme.isName name) = b :=
  looks_test 0 _ (Lexeme.plain_test _ fun _ _ _ _ => rfl) (nameAhead_run 0 name) (u := []) rfl

theorem looks_seesWord : Looks seesWord u b fun next =>
    (u.head?.or next).any Lexeme.isWord = b :=
  looks_test 0 _ (Lexeme.plain_test _ fun _ _ _ _ => rfl) seesWord_run (u := []) rfl

theorem looks_seesAny {signs : List Punct} : Looks (seesAny signs) u b fun next =>
    (u.head?.or next).any (Lexeme.isOneOf signs) = b :=
  looks_test 0 _ (Lexeme.plain_test _ fun _ _ _ _ => rfl) (seesAny_run signs) (u := []) rfl

/-- A text that is not empty is not at the end. -/
theorem looks_atEnd (h : u ≠ []) : Looks atEnd u false F := by
  intro tokens rest stop hs _
  obtain ⟨w, ws, rfl⟩ := List.exists_cons_of_ne_nil h
  obtain ⟨t, ts, rfl, -⟩ := hs.exists_cons
  rfl

/-- One word further on the second word of the text, or what follows, is looked at. -/
theorem looks_signAhead : Looks (signAhead 1 sign) (w :: u) b fun next =>
    (u.head?.or next).any (Lexeme.isSign sign) = b :=
  looks_test 1 _ (Lexeme.plain_test _ fun _ _ _ _ => rfl) (signAhead_run 1 sign) (u := [w]) rfl

theorem looks_nameAhead : Looks (nameAhead 1 name) (w :: u) b fun next =>
    (u.head?.or next).any (Lexeme.isName name) = b :=
  looks_test 1 _ (Lexeme.plain_test _ fun _ _ _ _ => rfl) (nameAhead_run 1 name) (u := [w]) rfl

/-- Any word is taken. -/
theorem reads_advance (w : Lexeme) : Reads advance [w] () F := by
  intro tokens rest stop hs _
  obtain ⟨t, ts, rfl, -, hRest⟩ := hs.exists_cons
  cases hRest.eq_nil
  rfl

theorem reads_eat : Reads (eat sign) [.punct sign] true F :=
  .look (looks_sees (b := true)) (.bind (reads_advance _) .pure fun _ h => h) fun _ _ => by
    simp [Lexeme.isSign]

/-- A sign that is not there is not taken. -/
theorem reads_eat_not : Reads (eat sign) [] false fun next =>
    next.any (Lexeme.isSign sign) = false :=
  .look (looks_sees (b := false)) .pure fun _ h => h

theorem reads_eatName : Reads (eatName name) [.name name] true F :=
  .look (looks_seesName (b := true)) (.bind (reads_advance _) .pure fun _ h => h) fun _ _ => by
    simp [Lexeme.isName]

/-- A name that is not there is not taken. -/
theorem reads_eatName_not : Reads (eatName name) [] false fun next =>
    next.any (Lexeme.isName name) = false :=
  .look (looks_seesName (b := false)) .pure fun _ h => h

theorem reads_expect : Reads (expect sign) [.punct sign] () F :=
  .bind (u := [.punct sign]) (v := []) reads_eat .pure fun _ h => h

/-- A name that is no keyword is read as one. -/
theorem reads_identifier (h : keywords.contains name = false) :
    Reads identifier [.name name] name F := by
  refine .peek_word rfl ?_
  simp only [h]
  exact .bind (reads_advance _) .pure fun _ h => h

/-- Every name is read as the name of a property, keywords too. -/
theorem reads_propertyName : Reads propertyName [.name name] name F :=
  .peek_word rfl (.bind (reads_advance _) .pure fun _ h => h)

end Primitives

section Loops

variable {α : Type} {u v : List Lexeme} {F G : Option Lexeme → Prop}

/-- A repeated step takes the words and gives the values, with any limit that suffices. -/
def Collects (step : Parser (Option α)) (words : List Lexeme) (as : List α)
    (follow : Option Lexeme → Prop) : Prop :=
  ∀ limit, ∀ tokens rest stop, Spelled tokens words → follow (nextWord rest) →
    (tokens ++ rest).length < limit →
      collect step limit ⟨tokens ++ rest, stop⟩ = .ok (as, ⟨rest, stop⟩)

namespace Collects

variable {step : Parser (Option α)} {a : α} {as : List α}

/-- A repetition stops where its step reads nothing. -/
theorem done (h : Reads step u none F) : Collects step u [] F := by
  intro limit tokens rest stop hs hNext hLimit
  cases limit with
  | zero => exact absurd hLimit (Nat.not_lt_zero _)
  | succ limit =>
      change (step ⟨tokens ++ rest, stop⟩ >>= _) = _
      rw [h tokens rest stop hs hNext]
      rfl

/-- One step more before a repetition. It has to take words, or the repetition would stop. -/
theorem more (h : Reads step u (some a) G) (hu : u ≠ []) (hMore : Collects step v as F)
    (hNext : ∀ next, F next → G (v.head?.or next)) : Collects step (u ++ v) (a :: as) F := by
  intro limit tokens rest stop hs hRest hLimit
  obtain ⟨ts, ts', rfl, hts, hts', -⟩ := hs.exists_append
  have hLength : 0 < ts.length := by
    rw [hts.length_eq]
    exact List.length_pos_iff.2 hu
  cases limit with
  | zero => exact absurd hLimit (Nat.not_lt_zero _)
  | succ limit =>
      have hStep := h ts (ts' ++ rest) stop hts (by
        rw [hts'.nextWord_append]
        exact hNext _ hRest)
      have hCollect := hMore limit ts' rest stop hts' hRest (by
        simp only [List.length_append] at hLimit ⊢
        omega)
      change (step ⟨ts ++ ts' ++ rest, stop⟩ >>= fun r => _) = _
      rw [List.append_assoc, hStep]
      change (collect step limit ⟨ts' ++ rest, stop⟩ >>= fun r => _) = _
      rw [hCollect]
      rfl

/-- A repetition reads what its steps read one after the other; its limit is no bound on a text of
that length. -/
theorem reads_many (h : Collects step u as F) : Reads (many step) u as F :=
  fun tokens rest stop hs hNext => h _ tokens rest stop hs hNext (Nat.lt_succ_self _)

end Collects

/-- A repeated step takes the words and makes one value of another, after which it goes on. -/
def Extends (step : α → Parser (Option α)) (a : α) (words : List Lexeme) (b : α)
    (follow : Option Lexeme → Prop) : Prop :=
  ∀ limit, ∀ tokens rest stop, Spelled tokens words → follow (nextWord rest) →
    (tokens ++ rest).length < limit → ∃ limit', rest.length < limit' ∧
      extend step a limit ⟨tokens ++ rest, stop⟩ = extend step b limit' ⟨rest, stop⟩

namespace Extends

variable {step : α → Parser (Option α)} {a b c : α}

/-- An extension may stop at once. -/
theorem refl : Extends step a [] a F := by
  intro limit tokens rest stop hs _ hLimit
  cases hs.eq_nil
  exact ⟨limit, hLimit, rfl⟩

theorem mono (h : Extends step a u b F) (hG : ∀ next, G next → F next) : Extends step a u b G :=
  fun limit tokens rest stop hs hNext => h limit tokens rest stop hs (hG _ hNext)

/-- One step more after an extension. -/
theorem snoc (h : Extends step a u b G) (hStep : Reads (step b) v (some c) F) (hv : v ≠ [])
    (hNext : ∀ next, F next → G (v.head?.or next)) : Extends step a (u ++ v) c F := by
  intro limit tokens rest stop hs hRest hLimit
  obtain ⟨ts, ts', rfl, hts, hts', -⟩ := hs.exists_append
  rw [List.append_assoc] at hLimit ⊢
  obtain ⟨limit', hLimit', hExtend⟩ := h limit ts (ts' ++ rest) stop hts (by
    rw [hts'.nextWord_append]
    exact hNext _ hRest) hLimit
  cases limit' with
  | zero => exact absurd hLimit' (Nat.not_lt_zero _)
  | succ limit' =>
      refine ⟨limit', ?_, hExtend.trans ?_⟩
      · have hLength : 0 < ts'.length := by
          rw [hts'.length_eq]
          exact List.length_pos_iff.2 hv
        rw [List.length_append] at hLimit'
        omega
      · change (step b ⟨ts' ++ rest, stop⟩ >>= fun r => _) = _
        rw [hStep ts' rest stop hts' hRest]
        rfl

/-- An extension reads what its steps read, if the last value is extended no further. -/
theorem reads_grow (h : Extends step a u b F) (hStop : Reads (step b) [] none F) :
    Reads (grow step a) u b F := by
  intro tokens rest stop hs hNext
  obtain ⟨limit, hLimit, hExtend⟩ := h _ tokens rest stop hs hNext (Nat.lt_succ_self _)
  change extend step a _ _ = _
  refine hExtend.trans ?_
  cases limit with
  | zero => exact absurd hLimit (Nat.not_lt_zero _)
  | succ limit =>
      change (step b ⟨[] ++ rest, stop⟩ >>= fun r => _) = _
      rw [hStop [] rest stop ⟨rfl, nofun⟩ hNext]
      rfl

end Extends

/-- The words of several items with commas between them. -/
def commas (items : List (List Lexeme)) : List Lexeme := [Lexeme.punct .comma].intercalate items

@[simp] theorem commas_nil : commas [] = [] := rfl

@[simp] theorem commas_singleton (item : List Lexeme) : commas [item] = item := by
  simp [commas, List.intercalate]

@[simp] theorem commas_cons_cons (item item' : List Lexeme) (items : List (List Lexeme)) :
    commas (item :: item' :: items) = item ++ .punct .comma :: commas (item' :: items) := by
  simp [commas, List.intercalate]

/-- Words that are an item of a list with the given closing sign. -/
structure ReadsItem (item : Parser α) (close : Punct) (words : List Lexeme) (a : α) : Prop where
  reads : Reads item words a fun next =>
    next = some (.punct .comma) ∨ next = some (.punct close)
  opens : words.head?.any (Lexeme.isSign close) = false
  nonempty : words ≠ []

section Starts

variable {test : Lexeme → Bool}

/-- What starts with a word of some kind starts with no sign that is not of the kind. -/
theorem not_sign {sign : Punct} (hSign : test (.punct sign) = false)
    (h : u.head?.any test = true) (next : Option Lexeme) :
    (u.head?.or next).any (Lexeme.isSign sign) = false := by
  cases u with
  | nil => cases h
  | cons w u =>
      cases w with
      | punct p =>
          refine beq_eq_false_iff_ne.2 ?_
          rintro rfl
          exact absurd (h.symm.trans hSign) nofun
      | _ => rfl

theorem ne_nil_of_starts (h : u.head?.any test = true) : u ≠ [] := by
  rintro rfl
  cases h

/-- A text that starts so is none of the signs that would end a list. -/
theorem not_oneOf {signs : List Punct} (hSigns : ∀ p ∈ signs, test (.punct p) = false)
    (h : u.head?.any test = true) (next : Option Lexeme) :
    (u.head?.or next).any (Lexeme.isOneOf signs) = false := by
  cases u with
  | nil => cases h
  | cons w u =>
      cases w with
      | punct p =>
          refine Bool.eq_false_iff.2 fun hOne => ?_
          exact absurd (h.symm.trans (hSigns p (List.contains_iff_mem.1 hOne))) nofun
      | _ => rfl

/-- An item that starts as none of the signs of a list does is an item of the list. -/
theorem ReadsItem.of_starts {item : Parser α} {close : Punct} {a : α} (h : Reads item u a F)
    (hComma : F (some (.punct .comma))) (hClose : F (some (.punct close)))
    (hSign : test (.punct close) = false) (hStarts : u.head?.any test = true) :
    ReadsItem item close u a := by
  refine ⟨h.mono ?_, ?_, ?_⟩
  · rintro next (rfl | rfl)
    · exact hComma
    · exact hClose
  · simpa using not_sign hSign hStarts none
  · exact ne_nil_of_starts hStarts

end Starts

theorem head?_or {ws : List Lexeme} (h : ws ≠ []) (next : Option Lexeme) :
    ws.head?.or next = ws.head? := by
  cases ws with
  | nil => exact absurd rfl h
  | cons => rfl

/-- The word after two texts is that of the first of them that is not empty. -/
theorem head?_append_or (v ws : List Lexeme) (next : Option Lexeme) :
    (v ++ ws).head?.or next = v.head?.or (ws.head?.or next) := by
  cases v <;> simp

/-- A step of an enclosed list. -/
theorem collects_close {item : Parser (List α)} {close : Punct} :
    Collects (do if ← eat close then return none else return some (← item)) [.punct close] [] F :=
  .done (.bind (u := [.punct close]) (v := []) reads_eat .pure fun _ h => h)

/-- One item more of a list in brackets. -/
theorem collects_item {item : Parser (List α)} {close : Punct} {as : List α} {ass : List (List α)}
    (h : Reads item u as G) (hu : u ≠ []) (hOpens : u.head?.any (Lexeme.isSign close) = false)
    (hMore : Collects (do if ← eat close then return none else return some (← item)) v ass F)
    (hNext : ∀ next, F next → G (v.head?.or next)) :
    Collects (do if ← eat close then return none else return some (← item)) (u ++ v) (as :: ass)
      F := by
  refine .more (G := G) ?_ hu hMore hNext
  exact .bind (u := []) reads_eat_not h.done fun next _ => by
    rw [head?_or hu]
    exact hOpens

/-- Items up to the bracket that closes them are read as the list of all their values. -/
theorem Collects.reads_enclosed {item : Parser (List α)} {close : Punct} {ass : List (List α)}
    (h : Collects (do if ← eat close then return none else return some (← item)) u ass F) :
    Reads (enclosed close item) u ass.flatten F :=
  .map h.reads_many

/-- Items one after the other, up to the closing sign. -/
theorem reads_each {item : Parser (List α)} {close : Punct} {test : Lexeme → Bool}
    {f : α → List Lexeme} {G : α → Option Lexeme → Prop} {as : List α}
    (hItem : ∀ a ∈ as, Reads item (f a) [a] (G a))
    (hStarts : ∀ a ∈ as, (f a).head?.any test = true) (hClose : test (.punct close) = false)
    (hNext : ∀ a ∈ as, ∀ w, test w = true ∨ w = .punct close → G a (some w)) :
    Reads (enclosed close item) ((as.map f).flatten ++ [.punct close]) as F := by
  suffices hCollects : ∃ ass, ass.flatten = as ∧ Collects
      (do if ← eat close then return none else return some (← item))
      ((as.map f).flatten ++ [Lexeme.punct close]) ass F by
    obtain ⟨ass, rfl, hCollects⟩ := hCollects
    exact hCollects.reads_enclosed
  induction as with
  | nil => exact ⟨[], rfl, collects_close⟩
  | cons a as ih =>
      simp only [List.forall_mem_cons] at hItem hStarts hNext
      obtain ⟨ass, hFlat, hCollects⟩ := ih hItem.2 hStarts.2 hNext.2
      have hOpens := not_sign hClose hStarts.1 none
      rw [Option.or_none] at hOpens
      refine ⟨[a] :: ass, by simp [hFlat], ?_⟩
      rw [List.map_cons, List.flatten_cons, List.append_assoc]
      refine collects_item hItem.1 (ne_nil_of_starts hStarts.1) hOpens hCollects fun next _ => ?_
      cases as with
      | nil => exact hNext.1 _ (.inr rfl)
      | cons a' as =>
          have hFirst := hStarts.2 a' List.mem_cons_self
          rw [List.map_cons, List.flatten_cons, List.append_assoc]
          cases hWords : f a' with
          | nil => exact absurd hWords (ne_nil_of_starts hFirst)
          | cons w ws =>
              rw [hWords] at hFirst
              exact hNext.1 _ (.inl hFirst)

/-- Items with commas between them, up to the closing sign. -/
theorem reads_listed {item : Parser α} {close : Punct} {wss : List (List Lexeme)} {as : List α}
    (hClose : close ≠ .comma) (h : List.Forall₂ (ReadsItem item close) wss as) :
    Reads (listed close item) (commas wss ++ [.punct close]) as F := by
  let element : Parser (List α) := do
    let a ← item
    unless ← sees close do expect .comma
    return [a]
  suffices hCollects : ∃ ass, ass.flatten = as ∧ Collects
      (do if ← eat close then return none else return some (← element))
      (commas wss ++ [Lexeme.punct close]) ass F by
    obtain ⟨ass, rfl, hCollects⟩ := hCollects
    exact hCollects.reads_enclosed
  induction h with
  | nil => exact ⟨[], rfl, collects_close⟩
  | @cons ws a wss as hItem hItems ih =>
      obtain ⟨ass, hFlat, hCollects⟩ := ih
      refine ⟨[a] :: ass, by simp [hFlat], ?_⟩
      cases hItems with
      | nil =>
          have hElement : Reads element (ws ++ []) [a] (· = some (.punct close)) :=
            .bind hItem.reads (.look (looks_sees (b := true)) .pure fun next h => by
              simp [h, Lexeme.isSign]) fun next h => .inr h
          rw [List.append_nil] at hElement
          rw [commas_singleton]
          exact collects_item hElement hItem.nonempty hItem.opens hCollects fun _ _ => rfl
      | @cons ws' a' wss as hItem' hItems' =>
          have hElement : Reads element (ws ++ [Lexeme.punct .comma]) [a] fun _ => True :=
            .bind hItem.reads (.look (looks_sees (b := false)) reads_expect.done fun next _ => by
              simpa [Lexeme.isSign] using hClose.symm) fun next _ => .inl rfl
          have hWords : commas (ws :: ws' :: wss) ++ [Lexeme.punct close] =
              (ws ++ [Lexeme.punct .comma]) ++ (commas (ws' :: wss) ++ [Lexeme.punct close]) := by
            simp
          have hHead : (ws ++ [Lexeme.punct .comma]).head? = ws.head? := by
            rw [List.head?_append, head?_or hItem.nonempty]
          rw [hWords]
          exact collects_item hElement (by simp) (hHead ▸ hItem.opens) hCollects fun _ _ => trivial

/-- One item, and more of them after commas. What may follow depends on the last of them. -/
theorem reads_commaSeparated {item : Parser α} {ws : List Lexeme} {a : α} {wss : List (List Lexeme)}
    {as : List α} {G : α → Option Lexeme → Prop} (hComma : ∀ a, G a (some (.punct .comma)))
    (hLast : ∀ next, F next → ∀ b ∈ (a :: as).getLast?, G b next)
    (hEnd : ∀ next, F next → next.any (Lexeme.isSign .comma) = false)
    (hFirst : Reads item ws a (G a)) (h : List.Forall₂ (fun ws a => Reads item ws a (G a)) wss as) :
    Reads (commaSeparated item) (commas (ws :: wss)) (a :: as) F := by
  have hMore : ∃ v, commas (ws :: wss) = ws ++ v ∧ (∀ next, F next → G a (v.head?.or next)) ∧
      Collects (do if ← eat .comma then return some (← item) else return none) v as F := by
    clear hFirst
    induction h generalizing ws a with
    | nil =>
        refine ⟨[], by simp, fun next hNext => hLast next hNext a rfl, .done ?_⟩
        exact .bind (u := []) (v := []) reads_eat_not .pure hEnd
    | @cons ws' a' wss as hItem hItems ih =>
        obtain ⟨v, hv, hNext, hCollects⟩ := @ih ws' a' (by simpa using hLast)
        refine ⟨.punct .comma :: ws' ++ v, by simp [hv], fun _ _ => hComma a, ?_⟩
        refine .more (u := .punct .comma :: ws') (G := G a') ?_ (by simp) hCollects hNext
        exact .bind (u := [.punct .comma]) (F := fun _ => True) reads_eat hItem.done
          fun _ _ => trivial
  obtain ⟨v, hv, hNext, hCollects⟩ := hMore
  rw [hv]
  exact .bind hFirst hCollects.reads_many.done hNext

end Loops

end Parser
end CodeShape
