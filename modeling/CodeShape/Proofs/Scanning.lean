import CodeShape.Proofs.Lexemes
import CodeShape.Proofs.Reading

/-!
From texts to words, piece by piece. A text spells some words if the scanner takes just these words
off it, wherever it stands and whatever follows, as long as the next character does not go on with
the last word.
-/
namespace CodeShape

namespace Unread

/-- The words of a stream, each with whether it stands on a new line. -/
def marked (stream : TokenStream) : List (Lexeme × Bool) :=
  stream.words.map fun t => (t.word.plain, t.afterLineEnd)

/-- The characters are taken apart into the words, inside a template up to the brace that closes the
expression, and some characters are left. -/
def Scans (inside : Bool) (depth : Nat) (cs : List Char) (words : List (Lexeme × Bool))
    (left : List Char) : Prop :=
  ∀ budget, cs.length < budget → ∀ opening : Option Nat, opening.isSome = inside → ∀ offset,
    ∃ stream u, tokens budget opening depth ⟨offset, cs⟩ = .ok (stream, u) ∧
      marked stream = words ∧ u.chars = left

theorem skipGaps_of_none {u : Unread} {lineEnd : Bool} (h : gap u.chars = .none) :
    u.skipGaps lineEnd = .ok (lineEnd, u) := by
  rw [skipGaps]
  split
  · rfl
  · next h' => rw [h] at h'; cases h'
  · next h' => rw [h] at h'; cases h'

theorem skipGaps_of_piece {u : Unread} {lineEnd l : Bool} {n : Nat}
    (h : gap u.chars = .piece n l) :
    u.skipGaps lineEnd = (u.advance (n + 1)).skipGaps (lineEnd || l) := by
  rw [skipGaps]
  split
  · next h' => rw [h] at h'; cases h'
  · next h' => rw [h] at h'; cases h'
  · next h' => rw [h] at h'; cases h'; rfl

/-- The next token, which starts with the character, and what is left after it. -/
def token (budget : Nat) (u : Unread) (c : Char) : Except Fault (Lexeme × Unread) :=
  if c == '\x60' then
    (pieces budget u.offset (u.advance 1)).map fun r => (.template r.1 r.2.1, r.2.2)
  else (u.plain c).map fun r => (r.1, u.advance r.2)

/-- The tokens from the next one on, after the gap before it. -/
def resume (budget : Nat) (opening : Option Nat) (depth : Nat) (lineEnd : Bool) (u : Unread) :
    Except Fault (TokenStream × Unread) :=
  match u.chars with
  | [] =>
    match opening with
    | none => .ok (⟨[], u.span 0⟩, u)
    | some start => .error ⟨.unterminatedTemplate, ⟨start, u.offset⟩⟩
  | c :: _ =>
    if opening.isSome && depth == 0 && c == '\x7d' then .ok (⟨[], u.span 1⟩, u.advance 1)
    else
      token budget u c >>= fun t =>
        (tokens budget opening (braceDepth depth t.1) t.2).map fun r =>
          (⟨⟨t.1, ⟨u.offset, t.2.offset⟩, lineEnd⟩ :: r.1.words, r.1.stop⟩, r.2)

/-- One step of the scanner: the gap, and what comes after it. -/
theorem tokens_succ (budget : Nat) (opening : Option Nat) (depth : Nat) (u : Unread) :
    tokens (budget + 1) opening depth u = (u.skipGaps false >>= fun r =>
      resume budget opening depth r.1 r.2) := by
  rw [tokens]
  cases u.skipGaps false with
  | error fault => rfl
  | ok r =>
      obtain ⟨lineEnd, u⟩ := r
      simp only [bind, Except.bind, resume, token]
      cases u.chars with
      | nil => cases opening <;> rfl
      | cons c cs =>
          dsimp only
          split
          · rfl
          · split
            · cases pieces budget u.offset (u.advance 1) with
              | error fault => rfl
              | ok r =>
                  simp only [Except.map, pure, Except.pure]
            · cases u.plain c with
              | error fault => rfl
              | ok r =>
                  simp only [Except.map, pure, Except.pure]

/-- After a gap a word is taken and the scan goes on. -/
theorem resume_cons {budget : Nat} {opening : Option Nat} {depth : Nat} (lineEnd : Bool)
    {u next last : Unread} {c : Char} {cs : List Char} {w : Lexeme} {stream : TokenStream}
    (hChars : u.chars = c :: cs) (hOpen : (opening.isSome && depth == 0 && c == '\x7d') = false)
    (hToken : token budget u c = .ok (w, next))
    (hTokens : tokens budget opening (braceDepth depth w) next = .ok (stream, last)) :
    resume budget opening depth lineEnd u =
      .ok (⟨⟨w, ⟨u.offset, next.offset⟩, lineEnd⟩ :: stream.words, stream.stop⟩, last) := by
  simp only [resume, hChars, hOpen, hToken, bind, Except.bind, hTokens, Except.map,
    Bool.false_eq_true, if_false]

/-- What the tokens after a gap can be: none at the end of the text, none before the brace that closes
an expression of a template, or a token and those after it. -/
theorem exists_of_resume {budget : Nat} {opening : Option Nat} {depth : Nat} {lineEnd : Bool}
    {u last : Unread} {stream : TokenStream}
    (h : resume budget opening depth lineEnd u = .ok (stream, last)) :
    (stream.words = [] ∧
      (opening = none ∧ u.chars = [] ∧ stream.stop = u.span 0 ∧ last = u ∨
        opening.isSome = true ∧ depth = 0 ∧ (∃ cs, u.chars = '\x7d' :: cs) ∧
          stream.stop = u.span 1 ∧ last = u.advance 1)) ∨
    ∃ c cs w next rest, u.chars = c :: cs ∧
      (opening.isSome && depth == 0 && c == '\x7d') = false ∧ token budget u c = .ok (w, next) ∧
      tokens budget opening (braceDepth depth w) next = .ok (rest, last) ∧
      stream = ⟨⟨w, ⟨u.offset, next.offset⟩, lineEnd⟩ :: rest.words, rest.stop⟩ := by
  unfold resume at h
  cases hChars : u.chars with
  | nil =>
      rw [hChars] at h
      cases opening with
      | none =>
          cases h
          exact .inl ⟨rfl, .inl ⟨rfl, rfl, rfl, rfl⟩⟩
      | some start => cases h
  | cons c cs =>
      simp only [hChars] at h
      split at h
      · next hClose =>
          simp only [Bool.and_eq_true, beq_iff_eq] at hClose
          obtain ⟨⟨hOpening, hDepth⟩, rfl⟩ := hClose
          cases h
          exact .inl ⟨rfl, .inr ⟨hOpening, hDepth, ⟨cs, rfl⟩, rfl, rfl⟩⟩
      · next hOpen =>
          obtain ⟨⟨w, next⟩, hToken, h⟩ := exists_of_bind_eq_ok h
          cases hTokens : tokens budget opening (braceDepth depth w) next with
          | error fault => simp [hTokens, Except.map] at h
          | ok r =>
              obtain ⟨rest, last'⟩ := r
              simp only [hTokens, Except.map, Except.ok.injEq, Prod.mk.injEq] at h
              obtain ⟨rfl, rfl⟩ := h
              exact .inr ⟨c, cs, w, next, rest, rfl, by simpa using hOpen, hToken, hTokens, rfl⟩

/-- A token is a template with its pieces, or a plain one. -/
theorem exists_of_token {budget : Nat} {u next : Unread} {c : Char} {w : Lexeme}
    (h : token budget u c = .ok (w, next)) :
    (c = '\x60' ∧ ∃ quasis parts, pieces budget u.offset (u.advance 1) = .ok (quasis, parts, next) ∧
      w = .template quasis parts) ∨
    c ≠ '\x60' ∧ ∃ length, u.plain c = .ok (w, length) ∧ next = u.advance length := by
  unfold token at h
  split at h
  · next hTick =>
      cases hPieces : pieces budget u.offset (u.advance 1) with
      | error fault => simp [hPieces, Except.map] at h
      | ok r =>
          obtain ⟨quasis, parts, v⟩ := r
          simp only [hPieces, Except.map, Except.ok.injEq, Prod.mk.injEq] at h
          obtain ⟨rfl, rfl⟩ := h
          exact .inl ⟨by simpa using hTick, quasis, parts, rfl, rfl⟩
  · next hTick =>
      cases hPlain : u.plain c with
      | error fault => simp [hPlain, Except.map] at h
      | ok r =>
          simp only [hPlain, Except.map, Except.ok.injEq, Prod.mk.injEq] at h
          obtain ⟨rfl, rfl⟩ := h
          exact .inr ⟨by simpa using hTick, r.2, rfl, rfl⟩

namespace Scans

variable {inside : Bool} {depth : Nat} {cs rest left : List Char} {ws : List (Lexeme × Bool)}

theorem nil : Scans false depth [] [] [] := by
  intro budget hBudget opening hOpening offset
  obtain ⟨budget, rfl⟩ := Nat.exists_eq_succ_of_ne_zero (by omega : budget ≠ 0)
  obtain rfl : opening = none := by simpa using hOpening
  rw [tokens_succ, skipGaps_of_none rfl]
  exact ⟨_, _, rfl, rfl, rfl⟩

theorem close : Scans true 0 ('\x7d' :: rest) [] rest := by
  intro budget hBudget opening hOpening offset
  obtain ⟨budget, rfl⟩ := Nat.exists_eq_succ_of_ne_zero (by omega : budget ≠ 0)
  obtain ⟨start, rfl⟩ := Option.isSome_iff_exists.1 hOpening
  rw [tokens_succ, skipGaps_of_none rfl]
  exact ⟨_, _, rfl, rfl, rfl⟩

theorem space (h : Scans inside depth cs ws left) : Scans inside depth (' ' :: cs) ws left := by
  intro budget hBudget opening hOpening offset
  obtain ⟨budget, rfl⟩ := Nat.exists_eq_succ_of_ne_zero (by omega : budget ≠ 0)
  obtain ⟨stream, u, hTokens, hWords, hLeft⟩ := h (budget + 1)
    (by simp only [List.length_cons] at hBudget; omega) opening hOpening (offset + Text.size [' '])
  refine ⟨stream, u, ?_, hWords, hLeft⟩
  rw [← hTokens, tokens_succ, tokens_succ, skipGaps_of_piece (n := 0) (l := false) rfl]
  rfl

/-- A word that is read whole is scanned where no gap stands before it. -/
theorem word {s : List Char} {c : Char} {w : Lexeme} (hGap : gap (s ++ rest) = .none)
    (hs : s.head? = some c) (hTemplate : c ≠ '\x60')
    (hClose : inside = true → depth = 0 → c ≠ '\x7d')
    (hPlain : ∀ offset, plain ⟨offset, s ++ rest⟩ c = .ok (w, s.length))
    (h : Scans inside (braceDepth depth w) rest ws left) :
    Scans inside depth (s ++ rest) ((w.plain, false) :: ws) left := by
  intro budget hBudget opening hOpening offset
  obtain ⟨budget, rfl⟩ := Nat.exists_eq_succ_of_ne_zero (by omega : budget ≠ 0)
  obtain ⟨s, rfl⟩ : ∃ s', s = c :: s' := by
    cases s with
    | nil => cases hs
    | cons d s => exact ⟨s, by cases hs; rfl⟩
  obtain ⟨stream, u, hTokens, hWords, hLeft⟩ := h budget
    (by simp only [List.cons_append, List.length_cons, List.length_append] at hBudget; omega) opening
    hOpening (offset + Text.size (c :: s))
  refine ⟨⟨⟨w, ⟨offset, offset + Text.size (c :: s)⟩, false⟩ :: stream.words, stream.stop⟩, u, ?_, ?_,
    hLeft⟩
  · have hAdvance : advance ⟨offset, c :: s ++ rest⟩ (c :: s).length =
        ⟨offset + Text.size (c :: s), rest⟩ := by
      simp [advance]
    have hNot : (opening.isSome && depth == 0 && c == '\x7d') = false := by
      rw [hOpening]
      cases inside <;> simp_all
    have hTick : (c == '\x60') = false := by simpa using hTemplate
    have hToken : token budget ⟨offset, c :: s ++ rest⟩ c =
        .ok (w, ⟨offset + Text.size (c :: s), rest⟩) := by
      rw [token, hTick, hPlain offset]
      simp only [Except.map, hAdvance, Bool.false_eq_true, if_false]
    rw [tokens_succ, skipGaps_of_none hGap]
    exact resume_cons false rfl hNot hToken hTokens
  · simp [marked, ← hWords]

end Scans

/-- The characters are taken apart into the pieces of a template, and some characters are left. -/
def ScansPieces (cs : List Char) (quasis : List String) (parts : List TokenStream)
    (left : List Char) : Prop :=
  ∀ budget, cs.length < budget → ∀ start offset, ∃ streams u,
    pieces budget start ⟨offset, cs⟩ = .ok (quasis, streams, u) ∧
      Lexeme.plainParts streams = parts ∧ u.chars = left

section Pieces

variable {budget start : Nat} {u v w last : Unread} {cs : List Char} {part : TokenStream}
variable {quasis : List String} {parts : List TokenStream}

/-- A template whose string ends with a backtick has no more pieces. -/
theorem pieces_last (hu : u.advance (quasiLength u.chars) = v) (hv : v.chars = '\x60' :: cs) :
    pieces (budget + 1) start u = .ok ([u.text (quasiLength u.chars)], [], v.advance 1) := by
  rw [pieces]
  simp only [hu, hv]
  rfl

/-- A template whose string ends with a dollar sign and a brace goes on with an expression. -/
theorem pieces_more (hu : u.advance (quasiLength u.chars) = v) (hv : v.chars = '$' :: '\x7b' :: cs)
    (hTokens : tokens budget (some (v.advance 2).offset) 0 (v.advance 2) = .ok (part, w))
    (hPieces : pieces budget start w = .ok (quasis, parts, last)) :
    pieces (budget + 1) start u =
      .ok (u.text (quasiLength u.chars) :: quasis, part :: parts, last) := by
  rw [pieces]
  simp only [hu, hv, hTokens, bind, Except.bind, hPieces]
  rfl

/-- A template that is scanned ends in one of the two ways. -/
theorem exists_of_pieces (h : pieces (budget + 1) start u = .ok (quasis, parts, last))
    (hu : u.advance (quasiLength u.chars) = v) :
    (∃ cs, v.chars = '\x60' :: cs ∧ quasis = [u.text (quasiLength u.chars)] ∧ parts = [] ∧
      last = v.advance 1) ∨
    ∃ cs part w quasis' parts', v.chars = '$' :: '\x7b' :: cs ∧
      tokens budget (some (v.advance 2).offset) 0 (v.advance 2) = .ok (part, w) ∧
      pieces budget start w = .ok (quasis', parts', last) ∧
      quasis = u.text (quasiLength u.chars) :: quasis' ∧ parts = part :: parts' := by
  rw [pieces] at h
  simp only [hu] at h
  split at h
  · next hv =>
      cases h
      exact .inl ⟨_, hv, rfl, rfl, rfl⟩
  · next hv =>
      obtain ⟨⟨part, w⟩, hTokens, h⟩ := exists_of_bind_eq_ok h
      obtain ⟨⟨quasis', parts', last'⟩, hPieces, h⟩ := exists_of_bind_eq_ok h
      cases h
      exact .inr ⟨_, part, w, quasis', parts', hv, hTokens, hPieces, rfl, rfl⟩
  · cases h

end Pieces

namespace ScansPieces

variable {quasi : String} {rest left : List Char}

theorem last (hQuasi : isQuasi quasi.toList = true) :
    ScansPieces (quasi.toList ++ '\x60' :: rest) [quasi] [] rest := by
  intro budget hBudget start offset
  obtain ⟨budget, rfl⟩ := Nat.exists_eq_succ_of_ne_zero (by omega : budget ≠ 0)
  have hLength := quasiLength_of_isQuasi hQuasi (.inl ⟨rest, rfl⟩)
  refine ⟨[], advance ⟨offset + Text.size quasi.toList, '\x60' :: rest⟩ 1, ?_, rfl, rfl⟩
  rw [pieces_last (v := ⟨offset + Text.size quasi.toList, '\x60' :: rest⟩) ?_ rfl]
  · simp [hLength, text]
  · simp [hLength, advance]

/-- A piece of a template and the expression after it. -/
theorem more {cs : List Char} {ws : List (Lexeme × Bool)} {quasis : List String}
    {parts : List TokenStream} (hQuasi : isQuasi quasi.toList = true)
    (hRest : rest.length ≤ cs.length) (hPart : Scans true 0 cs ws rest)
    (hMore : ScansPieces rest quasis parts left) :
    ScansPieces (quasi.toList ++ '$' :: '\x7b' :: cs) (quasi :: quasis)
      (⟨ws.map fun w => ⟨w.1, ⟨0, 0⟩, w.2⟩, ⟨0, 0⟩⟩ :: parts) left := by
  intro budget hBudget start offset
  obtain ⟨budget, rfl⟩ := Nat.exists_eq_succ_of_ne_zero (by omega : budget ≠ 0)
  simp only [List.length_append, List.length_cons] at hBudget
  have hLength := quasiLength_of_isQuasi hQuasi (.inr ⟨cs, rfl⟩)
  let v : Unread := ⟨offset + Text.size quasi.toList, '$' :: '\x7b' :: cs⟩
  obtain ⟨stream, w, hTokens, hWords, hLeft⟩ := hPart budget (by omega) (some (v.advance 2).offset) rfl
    (v.advance 2).offset
  obtain ⟨streams, u, hPieces, hParts, hLast⟩ := hMore budget (by omega) start w.offset
  have hMorePieces : pieces budget start w = .ok (quasis, streams, u) := by rw [← hPieces, ← hLeft]
  refine ⟨stream :: streams, u, ?_, ?_, hLast⟩
  · rw [pieces_more (v := v) (by simp [hLength, advance, v]) rfl hTokens hMorePieces]
    simp [hLength, text]
  · have hPlain : Lexeme.plainWords stream.words =
        (marked stream).map fun w => ⟨w.1, ⟨0, 0⟩, w.2⟩ := by
      simp [Lexeme.plainWords_eq_map, marked]
    simp [Lexeme.plainParts, hPlain, hWords, hParts]

end ScansPieces

namespace Scans

variable {inside : Bool} {depth : Nat} {cs rest left : List Char} {ws : List (Lexeme × Bool)}

theorem template {quasis : List String} {parts : List TokenStream}
    (hPieces : ScansPieces cs quasis parts rest) (hRest : rest.length ≤ cs.length)
    (h : Scans inside depth rest ws left) :
    Scans inside depth ('\x60' :: cs) ((.template quasis parts, false) :: ws) left := by
  intro budget hBudget opening hOpening offset
  obtain ⟨budget, rfl⟩ := Nat.exists_eq_succ_of_ne_zero (by omega : budget ≠ 0)
  rw [List.length_cons] at hBudget
  obtain ⟨streams, v, hStreams, hParts, hv⟩ := hPieces budget (by omega) offset
    (offset + Text.size ['\x60'])
  obtain ⟨stream, u, hTokens, hWords, hLeft⟩ := h budget (by omega) opening hOpening v.offset
  have hToken : token budget ⟨offset, '\x60' :: cs⟩ '\x60' = .ok (.template quasis streams, v) := by
    change Except.map _ (pieces budget offset ⟨offset + Text.size ['\x60'], cs⟩) = _
    rw [hStreams]
    rfl
  have hNot : (opening.isSome && depth == 0 && '\x60' == '\x7d') = false := by simp
  rw [tokens_succ, skipGaps_of_none rfl]
  refine ⟨_, u, resume_cons false rfl hNot hToken (by rw [← hTokens, ← hv]; rfl), ?_, hLeft⟩
  simp [marked, ← hWords, Lexeme.plain, hParts]

end Scans

/-- The text is taken apart into the words if what follows it is as said. -/
def Spells (text : List Char) (words : List Lexeme) (follow : List Char → Prop) : Prop :=
  ∀ inside depth rest more left, follow rest → Scans inside depth rest more left →
    Scans inside depth (text ++ rest) (words.map (·, false) ++ more) left

namespace Spells

variable {s t : List Char} {us vs : List Lexeme} {C D : List Char → Prop}

theorem nil : Spells [] [] C := fun _ _ _ _ _ _ h => h

theorem space : Spells [' '] [] C := fun _ _ _ _ _ _ h => h.space

theorem mono (h : Spells s us C) (hD : ∀ rest, D rest → C rest) : Spells s us D :=
  fun inside depth rest more left hRest hMore => h inside depth rest more left (hD _ hRest) hMore

/-- Two texts are spelled together where the second ends the first. -/
theorem append (hs : Spells s us C) (ht : Spells t vs D) (hC : ∀ rest, D rest → C (t ++ rest)) :
    Spells (s ++ t) (us ++ vs) D := by
  intro inside depth rest more left hRest hMore
  rw [List.append_assoc, List.map_append, List.append_assoc]
  exact hs _ _ _ _ _ (hC _ hRest) (ht _ _ _ _ _ hRest hMore)

/-- A word is spelled by its text where the scanner reads it whole. -/
theorem word {w : Lexeme} {c : Char} (hs : s.head? = some c) (hTick : c ≠ '\x60')
    (hDepth : ∀ depth, braceDepth depth w = depth) (hClose : c ≠ '\x7d')
    (hGap : ∀ rest, C rest → gap (s ++ rest) = .none)
    (hPlain : ∀ rest, C rest → ∀ offset, plain ⟨offset, s ++ rest⟩ c = .ok (w, s.length)) :
    Spells s [w.plain] C := by
  intro inside depth rest more left hRest hMore
  refine Scans.word (hGap rest hRest) hs hTick (fun _ _ => hClose) (hPlain rest hRest) ?_
  rw [hDepth]
  exact hMore

/-- A name is spelled by its text. -/
theorem name {text : String} (h : IsName text) : Spells text.toList [.name text] EndsName := by
  obtain ⟨c, cs, hText, hStart, -⟩ := id h
  have hc : text.toList.head? = some c := by rw [hText]; rfl
  have hNot : ∀ d, isNameStart d = false → c ≠ d := by
    rintro d hd rfl
    rw [hStart] at hd
    cases hd
  refine word (w := .name text) hc (hNot _ (by decide)) (fun _ => rfl) (hNot _ (by decide)) ?_
    fun rest hRest offset => plain_name h hc hRest offset
  intro rest _
  rw [hText, List.cons_append]
  exact gap_cons (hNot _ (by decide)) (isBlank_eq_false_of_isNameStart hStart)

/-- A numeral is spelled by its text. -/
theorem number {value : Number} {raw : String} (h : IsNumeral value raw) :
    Spells raw.toList [.number value raw] EndsNumber := by
  obtain ⟨c, cs, hCons, hFirst⟩ := exists_cons_of_isNumeral h
  have hc : raw.toList.head? = some c := by rw [hCons]; rfl
  have hNot : ∀ d : Char, d ≠ '.' → d.isDigit = false → c ≠ d := by
    rintro d hd hd' rfl
    rcases hFirst with rfl | h
    · exact hd rfl
    · rw [h] at hd'
      cases hd'
  have hBlank : Text.isBlank c = false := by
    rcases hFirst with rfl | h
    · decide
    · have := isDigit_iff.1 h
      exact Text.isBlank_eq_false (by omega) (by omega)
  refine word (w := .number value raw) hc (hNot _ (by decide) (by decide)) (fun _ => rfl)
    (hNot _ (by decide) (by decide)) ?_ fun rest hRest offset => plain_number h hc hRest offset
  intro rest _
  rw [hCons, List.cons_append]
  exact gap_cons (hNot _ (by decide) (by decide)) hBlank

theorem string {value raw : String} (h : IsQuotation value raw) :
    Spells raw.toList [.string value raw] C := by
  obtain ⟨quote, cs, hCons, hQuote, -⟩ := exists_cons_of_isQuotation h
  have hc : raw.toList.head? = some quote := by rw [hCons]; rfl
  refine word (w := .string value raw) hc ?_ (fun _ => rfl) ?_ ?_
    fun rest _ offset => plain_string h hc rest offset
  · rcases hQuote with rfl | rfl <;> decide
  · rcases hQuote with rfl | rfl <;> decide
  · intro rest _
    rw [hCons]
    rcases hQuote with rfl | rfl <;> rfl

/-- Signs other than braces. -/
theorem sign {p : Punct} (hp : p ∈ Punct.all) (hOpen : p ≠ .openBrace) (hClose : p ≠ .closeBrace) :
    Spells p.text.toList [.punct p] (EndsSign p) := by
  obtain ⟨c, cs, hCons, -, -, -, -, hTick, -, -, -, hBrace⟩ := exists_cons_of_sign hp
  have hc : p.text.toList.head? = some c := by rw [hCons]; rfl
  refine word (w := .punct p) hc hTick ?_ ?_ (fun rest hRest => gap_sign hp hRest)
    fun rest hRest offset => plain_sign hp hc hRest offset
  · intro depth
    cases p <;> first | rfl | contradiction
  · exact fun h => hClose (hBrace h)

theorem template {quasis : List String} {parts : List TokenStream}
    (h : ∀ rest, ScansPieces (s ++ rest) quasis parts rest) :
    Spells ('\x60' :: s) [.template quasis parts] C := by
  intro inside depth rest more left _ hMore
  exact .template (h rest) (by simp) hMore

/-- Words between braces. -/
theorem braces (h : Spells s us C) (hC : ∀ rest, C ('\x7d' :: rest)) :
    Spells ('\x7b' :: s ++ ['\x7d']) (.punct .openBrace :: us ++ [.punct .closeBrace]) D := by
  intro inside depth rest more left _ hMore
  have hClose : Scans inside (depth + 1) ('\x7d' :: rest) ((.punct .closeBrace, false) :: more)
      left :=
    Scans.word (s := ['\x7d']) (w := .punct .closeBrace) rfl rfl (by decide)
      (fun _ h => absurd h (Nat.succ_ne_zero _))
      (plain_sign (p := .closeBrace) (by decide) rfl (endsSign_of_separator (by decide) _)) hMore
  have hInner := h inside (depth + 1) ('\x7d' :: rest) _ left (hC rest) hClose
  have hOpen := @Scans.word _ depth _ _ _ ['\x7b'] _ (.punct .openBrace) rfl rfl (by decide)
      (fun _ _ => by decide)
      (plain_sign (p := .openBrace) (by decide) rfl (endsSign_of_separator (by decide) _)) hInner
  simpa [Lexeme.plain] using hOpen

end Spells

end Unread

/-- A word that the scanner gives: its text is its own, and so are those of the words in it. -/
inductive Lexeme.Valid : Lexeme → Prop where
  | name {text : String} (h : Unread.IsName text) : Valid (.name text)
  | number {value : Number} {raw : String} (h : Unread.IsNumeral value raw) :
      Valid (.number value raw)
  | string {value raw : String} (h : Unread.IsQuotation value raw) : Valid (.string value raw)
  | punct (sign : Punct) : Valid (.punct sign)
  | template {quasis : List String} {parts : List TokenStream}
      (hLength : quasis.length = parts.length + 1)
      (hQuasis : ∀ q ∈ quasis, Unread.isQuasi q.toList = true)
      (hParts : ∀ part ∈ parts, ∀ t ∈ part.words, Valid t.word) : Valid (.template quasis parts)

namespace Unread

/-- Words that the scanner makes are valid. -/
theorem valid_of_plain {u : Unread} {c : Char} {cs : List Char} {w : Lexeme} {n : Nat}
    (hc : u.chars = c :: cs) (h : u.plain c = .ok (w, n)) : w.Valid := by
  unfold plain at h
  split at h
  · next hStart =>
      cases h
      refine .name ⟨c, cs.takeWhile isNamePart, ?_, hStart, ?_⟩
      · rw [text, String.toList_ofList, ← List.prefix_iff_eq_take.1 (List.takeWhile_prefix _), hc,
          List.takeWhile_cons_of_pos (isNamePart_of_isNameStart hStart)]
      · exact fun d hd => List.all_eq_true.1 List.all_takeWhile d hd
  · split at h
    · next hStarts =>
        unfold numeral at h
        dsimp only at h
        split at h
        · next value hRead =>
            cases h
            refine .number ⟨⟨u.chars, hStarts, ?_⟩, ?_⟩
            · rw [text, String.toList_ofList]
            · rw [text, String.toList_ofList]
              exact (Option.filter_eq_some_iff.1 hRead).1
        · cases h
    · split at h
      · next hQuote =>
          unfold quotation at h
          split at h
          · next value length hRead =>
              cases h
              rw [hc] at hRead
              refine .string ⟨c, cs, _, by simpa using hQuote, hRead, ?_⟩
              rw [text, String.toList_ofList, hc]
          · cases h
          · cases h
      · split at h
        · cases h
          exact .punct _
        · cases h

/-- Everything that is scanned is valid: tokens, and the pieces of templates. -/
theorem valid_of_scan (budget : Nat) :
    (∀ opening depth u stream last, tokens budget opening depth u = .ok (stream, last) →
      ∀ t ∈ stream.words, t.word.Valid) ∧
    ∀ start u quasis parts last, pieces budget start u = .ok (quasis, parts, last) →
      quasis.length = parts.length + 1 ∧ (∀ q ∈ quasis, isQuasi q.toList = true) ∧
        ∀ part ∈ parts, ∀ t ∈ part.words, t.word.Valid := by
  induction budget with
  | zero =>
      refine ⟨fun _ _ _ _ _ h => ?_, fun _ _ _ _ _ h => ?_⟩
      · rw [tokens] at h
        cases h
      · rw [pieces] at h
        cases h
  | succ budget ih =>
      obtain ⟨ihTokens, ihPieces⟩ := ih
      refine ⟨?_, ?_⟩
      · intro opening depth u stream last h
        rw [tokens_succ] at h
        obtain ⟨⟨lineEnd, v⟩, -, hResume⟩ := exists_of_bind_eq_ok h
        rcases exists_of_resume hResume with ⟨hNil, -⟩ | ⟨c, cs, w, next, rest, hc, -, hToken, hTail, rfl⟩
        · intro t ht
          rw [hNil] at ht
          cases ht
        · have hWord : w.Valid := by
            rcases exists_of_token hToken with ⟨-, quasis, parts, hPieces, rfl⟩ | ⟨-, n, hPlain, -⟩
            · obtain ⟨hLength, hQuasis, hParts⟩ := ihPieces _ _ _ _ _ hPieces
              exact .template hLength hQuasis hParts
            · exact valid_of_plain hc hPlain
          intro t ht
          rcases List.mem_cons.1 ht with rfl | ht
          · exact hWord
          · exact ihTokens _ _ _ _ _ hTail t ht
      · intro start u quasis parts last h
        have hQuasi : ∀ c cs, (u.advance (quasiLength u.chars)).chars = c :: cs →
            isQuasi (u.text (quasiLength u.chars)).toList = true := by
          intro c cs hNext
          rw [text, String.toList_ofList]
          exact isQuasi_take hNext (List.cons_ne_nil c cs)
        rcases exists_of_pieces h rfl with ⟨cs, hNext, rfl, rfl, -⟩ |
          ⟨cs, part, w, quasis', parts', hNext, hTokens, hPieces, rfl, rfl⟩
        · exact ⟨rfl, by simpa using hQuasi _ _ hNext, List.forall_mem_nil _⟩
        · obtain ⟨hLength, hQuasis, hParts⟩ := ihPieces _ _ _ _ _ hPieces
          exact ⟨by simp [hLength], List.forall_mem_cons.2 ⟨hQuasi _ _ hNext, hQuasis⟩,
            List.forall_mem_cons.2 ⟨ihTokens _ _ _ _ _ hTokens, hParts⟩⟩

end Unread

/-- The words of a text are valid. -/
theorem TokenStream.valid_of_ofText {text : String} {stream : TokenStream}
    (h : TokenStream.ofText text = .ok stream) : ∀ t ∈ stream.words, t.word.Valid := by
  obtain ⟨⟨stream', last⟩, hTokens, hDone⟩ := exists_of_bind_eq_ok h
  cases hDone
  exact (Unread.valid_of_scan _).1 _ _ _ _ _ hTokens

end CodeShape
