import CodeShape.Proofs.Lossless
import CodeShape.Proofs.Pointing

/-!
Faults point at text that is there. The scanner points at characters that it has come to, and the
places of the words and of the ends of streams, to which the parser points, are those that the
scanner gave them. So the place of a fault starts and ends between characters of the text.
-/
namespace CodeShape

open CodeShape.Parser

theorem error_of_bind_eq_error {ε α β : Type} {x : Except ε α} {f : α → Except ε β} {e : ε}
    (h : (x >>= f) = .error e) : x = .error e ∨ ∃ a, x = .ok a ∧ f a = .error e := by
  cases x with
  | error e' =>
      cases h
      exact .inl rfl
  | ok a => exact .inr ⟨a, rfl, h⟩

theorem eq_error_of_map_eq_error {ε α β : Type} {x : Except ε α} {f : α → β} {e : ε}
    (h : x.map f = .error e) : x = .error e := by
  cases x with
  | error e' =>
      cases h
      rfl
  | ok a => cases h

namespace Text

theorem exists_of_dropBytes {n : Nat} {cs rest : List Char} (h : dropBytes n cs = some rest) :
    ∃ before, cs = before ++ rest ∧ size before = n := by
  fun_induction dropBytes n cs with
  | case1 cs =>
      cases h
      exact ⟨[], rfl, rfl⟩
  | case2 => cases h
  | case3 n c cs hFits ih =>
      obtain ⟨before, rfl, hSize⟩ := ih h
      exact ⟨c :: before, rfl, by rw [size, hSize]; omega⟩
  | case4 => cases h

theorem exists_of_takeBytes {n : Nat} {cs part : List Char} (h : takeBytes n cs = some part) :
    ∃ after, cs = part ++ after ∧ size part = n := by
  fun_induction takeBytes n cs generalizing part with
  | case1 cs =>
      cases h
      exact ⟨cs, rfl, rfl⟩
  | case2 => cases h
  | case3 n c cs hFits ih =>
      obtain ⟨part, hPart, rfl⟩ := Option.map_eq_some_iff.1 h
      obtain ⟨after, rfl, hSize⟩ := ih hPart
      exact ⟨after, rfl, by rw [size, hSize]; omega⟩
  | case4 => cases h

/-- The span is that of a part of the text. -/
def Span.LiesIn (text : String) (span : Span) : Prop := ∃ part, span.Holds text part

/-- What a span holds cuts the text into three. -/
theorem Span.Holds.exists_eq_append {text part : String} {span : Span} (h : span.Holds text part) :
    ∃ before after, text.toList = before ++ part.toList ++ after ∧ size before = span.start ∧
      size (before ++ part.toList) = span.stop := by
  obtain ⟨hLe, hSlice⟩ := h
  obtain ⟨rest, hDrop, hRest⟩ := Option.bind_eq_some_iff.1 hSlice
  obtain ⟨middle, hTake, hPart⟩ := Option.bind_eq_some_iff.1 hRest
  cases hPart
  obtain ⟨before, hText, hBefore⟩ := exists_of_dropBytes hDrop
  obtain ⟨after, rfl, hMiddle⟩ := exists_of_takeBytes hTake
  rw [String.toList_ofList]
  refine ⟨before, after, by rw [hText, List.append_assoc], hBefore, ?_⟩
  rw [size_append, hBefore, hMiddle]
  omega

end Text

namespace Unread

/-- The offset is that of a place in the text from which what is to be read has been reached. -/
def Since (text : String) (start : Nat) (u : Unread) : Prop :=
  ∃ (v : Unread) (cs : List Char), v.EndsIn text ∧ v.offset = start ∧ v.Passes cs u

variable {text : String} {start : Nat} {u v : Unread} {cs : List Char} {fault : Fault}

theorem EndsIn.since (h : u.EndsIn text) : Since text u.offset u := ⟨u, [], h, rfl, .refl⟩

/-- A span at what is left to read lies in the text. -/
theorem EndsIn.liesIn_span (h : u.EndsIn text) (n : Nat) : (u.span n).LiesIn text :=
  ⟨_, h.holds_text n⟩

namespace Since

theorem passes (h : Since text start u) (hcs : u.Passes cs v) : Since text start v := by
  obtain ⟨first, passed, hFirst, hStart, hPasses⟩ := h
  exact ⟨first, _, hFirst, hStart, hPasses.trans hcs⟩

theorem endsIn (h : Since text start u) : u.EndsIn text := by
  obtain ⟨first, passed, hFirst, -, hPasses⟩ := h
  exact hFirst.passes hPasses

theorem liesIn (h : Since text start u) : (⟨start, u.offset⟩ : Text.Span).LiesIn text := by
  obtain ⟨first, passed, hFirst, rfl, hPasses⟩ := h
  exact ⟨_, hFirst.holds hPasses⟩

end Since

/-- A fault in a gap points into the text. -/
theorem liesIn_of_skipGaps {lineEnd : Bool} (hu : u.EndsIn text)
    (h : u.skipGaps lineEnd = .error fault) : fault.span.LiesIn text := by
  fun_induction skipGaps u lineEnd with
  | case1 => cases h
  | case2 u lineEnd =>
      cases h
      exact hu.liesIn_span _
  | case3 u lineEnd more l _ _ ih => exact ih (hu.passes (.advance u _)) h

/-- A fault in a token other than a template points at its first characters. -/
theorem exists_of_plain_eq_error {c : Char} (h : u.plain c = .error fault) :
    ∃ n, fault.span = u.span n := by
  unfold plain at h
  split at h
  · cases h
  · split at h
    · unfold numeral at h
      dsimp only at h
      split at h
      · cases h
      · cases h
        exact ⟨_, rfl⟩
    · split at h
      · unfold quotation at h
        split at h
        · cases h
        · cases h
          exact ⟨_, rfl⟩
        · cases h
          exact ⟨_, rfl⟩
      · split at h
        · cases h
        · cases h
          exact ⟨_, rfl⟩

/-- A fault after a gap is about the missing brace or comes from the word or from the rest. -/
theorem exists_of_resume_eq_error {budget : Nat} {opening : Option Nat} {depth : Nat}
    {lineEnd : Bool} (h : resume budget opening depth lineEnd u = .error fault) :
    (∃ start, opening = some start ∧ fault.span = ⟨start, u.offset⟩) ∨
    ∃ c cs, u.chars = c :: cs ∧ (token budget u c = .error fault ∨
      ∃ w next, token budget u c = .ok (w, next) ∧
        tokens budget opening (braceDepth depth w) next = .error fault) := by
  unfold resume at h
  split at h
  · split at h
    · cases h
    · next start =>
        cases h
        exact .inl ⟨start, rfl, rfl⟩
  · next c cs hc =>
      refine .inr ⟨c, cs, hc, ?_⟩
      split at h
      · cases h
      · rcases error_of_bind_eq_error h with hToken | ⟨⟨w, next⟩, hToken, hTail⟩
        · exact .inl hToken
        · exact .inr ⟨w, next, hToken, eq_error_of_map_eq_error hTail⟩

theorem exists_of_token_eq_error {budget : Nat} {c : Char} (h : token budget u c = .error fault) :
    pieces budget u.offset (u.advance 1) = .error fault ∨ u.plain c = .error fault := by
  unfold token at h
  split at h
  · exact .inl (eq_error_of_map_eq_error h)
  · exact .inr (eq_error_of_map_eq_error h)

/-- A fault in a template is about its missing end or comes from an expression in it or from the
rest. -/
theorem exists_of_pieces_eq_error {budget : Nat} (h : pieces (budget + 1) start u = .error fault)
    (hv : u.advance (quasiLength u.chars) = v) :
    fault.span = ⟨start, v.offset⟩ ∨
    tokens budget (some (v.advance 2).offset) 0 (v.advance 2) = .error fault ∨
    ∃ part w, tokens budget (some (v.advance 2).offset) 0 (v.advance 2) = .ok (part, w) ∧
      pieces budget start w = .error fault := by
  rw [pieces] at h
  simp only [hv] at h
  split at h
  · cases h
  · rcases error_of_bind_eq_error h with hTokens | ⟨⟨part, w⟩, hTokens, hRest⟩
    · exact .inr (.inl hTokens)
    · rcases error_of_bind_eq_error hRest with hPieces | ⟨_, -, hDone⟩
      · exact .inr (.inr ⟨part, w, hTokens, hPieces⟩)
      · cases hDone
  · cases h
    exact .inl rfl

/-- What a scan that fails points at is a part of the text. A template that does not end is pointed
at from its start on, or from that of the expression in it that does not end. -/
theorem liesIn_of_scan (text : String) (budget : Nat) :
    (∀ opening depth u fault, u.EndsIn text → (∀ start ∈ opening, Since text start u) →
      tokens budget opening depth u = .error fault → fault.span.LiesIn text) ∧
    ∀ start u fault, Since text start u →
      pieces budget start u = .error fault → fault.span.LiesIn text := by
  induction budget with
  | zero =>
      refine ⟨fun _ _ u _ hu _ h => ?_, fun _ u _ hu h => ?_⟩
      · rw [tokens] at h
        cases h
        exact hu.liesIn_span 0
      · rw [pieces] at h
        cases h
        exact hu.endsIn.liesIn_span 0
  | succ budget ih =>
      obtain ⟨ihTokens, ihPieces⟩ := ih
      obtain ⟨scanTokens, scanPieces⟩ := fills_of_scan text budget
      refine ⟨?_, ?_⟩
      · intro opening depth u fault hu hOpening h
        rw [tokens_succ] at h
        obtain hSkip | ⟨⟨lineEnd, v⟩, hSkip, hResume⟩ := error_of_bind_eq_error h
        · exact liesIn_of_skipGaps hu hSkip
        obtain ⟨gap, hPasses, -⟩ := exists_of_skipGaps hSkip
        have hv := hu.passes hPasses
        have hSince : ∀ start ∈ opening, Since text start v :=
          fun start hStart => (hOpening start hStart).passes hPasses
        rcases exists_of_resume_eq_error hResume with
          ⟨start, rfl, hSpan⟩ | ⟨c, cs, hc, hToken | ⟨w, next, hToken, hTail⟩⟩
        · -- the text ends inside of an expression
          rw [hSpan]
          exact (hSince start rfl).liesIn
        · rcases exists_of_token_eq_error hToken with hPieces | hPlain
          · exact ihPieces _ _ _ (hv.since.passes (.advance v 1)) hPieces
          · obtain ⟨n, hSpan⟩ := exists_of_plain_eq_error hPlain
            exact hSpan ▸ hv.liesIn_span n
        · -- the fault is behind a token that was taken
          obtain ⟨taken, hTaken⟩ : ∃ taken, v.Passes taken next := by
            rcases exists_of_token hToken with ⟨-, _, _, hPieces, -⟩ | ⟨-, n, -, rfl⟩
            · obtain ⟨⟨taken, hTaken⟩, -⟩ :=
                scanPieces _ _ _ _ _ (hv.passes (.advance v 1)) hPieces
              exact ⟨_, (Passes.advance v 1).trans hTaken⟩
            · exact ⟨_, .advance v n⟩
          refine ihTokens _ _ _ _ (hv.passes hTaken) (fun start hStart => ?_) hTail
          exact (hSince start hStart).passes hTaken
      · intro start u fault hu h
        have hv := hu.passes (.advance u (quasiLength u.chars))
        rcases exists_of_pieces_eq_error h rfl with
          hSpan | hTokens | ⟨part, w, hTokens, hPieces⟩
        · -- the text ends inside of the template
          rw [hSpan]
          exact hv.liesIn
        · have hInside := hv.passes (.advance _ 2)
          refine ihTokens _ _ _ _ hInside.endsIn ?_ hTokens
          rintro _ ⟨⟩
          exact hInside.endsIn.since
        · have hInside := hv.passes (.advance _ 2)
          obtain ⟨⟨taken, hTaken⟩, -⟩ := scanTokens _ _ _ _ _ hInside.endsIn hTokens
          exact ihPieces _ _ _ (hInside.passes hTaken) hPieces

end Unread

section Streams

variable {text : String}

mutual

/-- Words that stand in the text have all their places in it. -/
theorem Lexeme.placedIn_of_fills : (w : Lexeme) → {span : Text.Span} → w.Fills text span →
    w.PlacedIn (Text.Span.LiesIn text)
  | .name word, _, _ => .name word
  | .number value raw, _, _ => .number value raw
  | .string value raw, _, _ => .string value raw
  | .punct sign, _, _ => .punct sign
  | .template quasis parts, _, h => by
    rw [Lexeme.Fills] at h
    have hParts := placedIn_of_piecesFill parts h.2.2
    exact .template (fun part hPart => (hParts part hPart).stop)
      (fun part hPart => (hParts part hPart).spans) fun part hPart => (hParts part hPart).words

theorem Lexeme.placedIn_of_piecesFill : (parts : List TokenStream) → {start stop : Nat} →
    {quasis : List String} → Lexeme.PiecesFill text start stop quasis parts →
    ∀ part ∈ parts, part.PlacedIn (Text.Span.LiesIn text)
  | [], _, _, _, _ => nofun
  | ⟨words, close⟩ :: parts, _, _, _, h => by
    rw [Lexeme.PiecesFill] at h
    obtain ⟨_, _, _, -, -, -, hWords, hClose, hRest⟩ := h
    have hPart := placedIn_of_wordsFill words hWords
    refine List.forall_mem_cons.2 ⟨⟨⟨_, hClose⟩, ?_, ?_⟩, placedIn_of_piecesFill parts hRest⟩
    · exact fun t ht => (hPart t ht).1
    · exact fun t ht => (hPart t ht).2

theorem Lexeme.placedIn_of_wordsFill : (words : List Token) → {start stop : Nat} →
    Lexeme.WordsFill text start stop words →
    ∀ t ∈ words, t.span.LiesIn text ∧ t.word.PlacedIn (Text.Span.LiesIn text)
  | [], _, _, _ => nofun
  | ⟨word, span, _⟩ :: words, _, _, h => by
    rw [Lexeme.WordsFill] at h
    obtain ⟨-, hLt, hSlice, hFills, hRest⟩ := h
    obtain ⟨part, hPart⟩ := Option.isSome_iff_exists.1 hSlice
    refine List.forall_mem_cons.2 ⟨⟨⟨part, Nat.le_of_lt hLt, hPart⟩, ?_⟩, ?_⟩
    · exact placedIn_of_fills word hFills
    · exact placedIn_of_wordsFill words hRest

end

/-- All places in the words of a text are in the text. -/
theorem TokenStream.placedIn_of_ofText {stream : TokenStream}
    (h : TokenStream.ofText text = .ok stream) : stream.PlacedIn (Text.Span.LiesIn text) := by
  obtain ⟨⟨_, last⟩, hTokens, hDone⟩ := exists_of_bind_eq_ok h
  cases hDone
  obtain ⟨-, -, hWords, hStop⟩ :=
    (Unread.fills_of_scan text _).1 _ _ _ _ _ (.start text) hTokens
  have hPlaces := Lexeme.placedIn_of_wordsFill _ hWords
  refine ⟨?_, fun t ht => (hPlaces t ht).1, fun t ht => (hPlaces t ht).2⟩
  have hEnd : (⟨Text.size text.toList, []⟩ : Unread).EndsIn text :=
    ⟨text.toList, by simp, by simp⟩
  exact (show stream.stop = _ from hStop) ▸ hEnd.liesIn_span 0

/-- Every fault of the scanner points into the text. -/
theorem TokenStream.liesIn_of_ofText {fault : Fault} (h : TokenStream.ofText text = .error fault) :
    fault.span.LiesIn text := by
  rcases error_of_bind_eq_error h with hTokens | ⟨_, -, hDone⟩
  · exact (Unread.liesIn_of_scan text _).1 _ _ _ _ (.start text) (by simp) hTokens
  · cases hDone

end Streams

namespace Parser

/-- A parser that runs on the words of a text points into the text. -/
theorem Points.liesIn {α : Type} {text : String} {stream : TokenStream} {p : Parser α}
    {fault : Fault} (hp : Points (Text.Span.LiesIn text) p)
    (hStream : TokenStream.ofText text = .ok stream) (h : p.run stream = .error fault) :
    fault.span.LiesIn text := by
  have hRun := hp stream (TokenStream.placedIn_of_ofText hStream)
  rw [show p stream = .error fault from h] at hRun
  exact hRun

end Parser

namespace Node

variable {text : String} {fault : Fault}

/-- Every fault of a program points into its text. -/
theorem liesIn_of_parseProgram (h : parseProgram text = .error fault) :
    fault.span.LiesIn text := by
  rcases error_of_bind_eq_error h with hScan | ⟨stream, hScan, hParse⟩
  · exact TokenStream.liesIn_of_ofText hScan
  rcases error_of_bind_eq_error hParse with hRun | ⟨_, -, hDone⟩
  · refine Parser.Points.liesIn (.many ?_) hScan hRun
    refine .watch watches_atEnd fun _ => .ite (.pure _) ?_
    exact .bind ((Grammar.points_level _).statement false) fun _ => .pure _
  · cases hDone

/-- Every fault of an expression points into its text. -/
theorem liesIn_of_parseExpression (h : parseExpression text = .error fault) :
    fault.span.LiesIn text := by
  rcases error_of_bind_eq_error h with hScan | ⟨stream, hScan, hParse⟩
  · exact TokenStream.liesIn_of_ofText hScan
  rcases error_of_bind_eq_error hParse with hRun | ⟨_, -, hDone⟩
  · refine Parser.Points.liesIn (.bind ?_ fun _ => ?_) hScan hRun
    · exact (Grammar.points_level _).assignment false
    refine .bind (.map (.eat _)) fun _ => .watch watches_atEnd fun _ => ?_
    exact .ite (.pure _) (.expected _)
  · cases hDone

/-- Every fault points at text that is there. Its place cuts the text into three, between
characters, and the part in the middle is what the place shows. -/
theorem faults_point_at_text
    (h : parseProgram text = .error fault ∨ parseExpression text = .error fault) :
    fault.span.start ≤ fault.span.stop ∧ fault.span.stop ≤ Text.size text.toList ∧
      ∃ before part after, text.toList = before ++ part ++ after ∧
        Text.size before = fault.span.start ∧ Text.size (before ++ part) = fault.span.stop ∧
        fault.span.slice text = String.ofList part := by
  obtain ⟨part, hPart⟩ := h.elim liesIn_of_parseProgram liesIn_of_parseExpression
  obtain ⟨before, after, hText, hStart, hStop⟩ := hPart.exists_eq_append
  refine ⟨hPart.1, ?_, before, part.toList, after, hText, hStart, hStop, ?_⟩
  · rw [hText, Text.size_append, hStop]
    exact Nat.le_add_right _ _
  · rw [Text.Span.slice, hPart.2, String.ofList_toList]
    rfl

/-- A word too many in an expression of a template, after characters of several bytes. -/
theorem faults_point_at_text_template :
    ∃ text fault, text = "é + \x60ü$\x7bä b\x7d\x60" ∧ parseExpression text = .error fault ∧
      fault.span = ⟨13, 14⟩ ∧ ∃ before part after, text.toList = before ++ part ++ after ∧
        Text.size before = 13 ∧ Text.size (before ++ part) = 14 ∧
        fault.span.slice text = String.ofList part := by
  generalize hText : "é + \x60ü$\x7bä b\x7d\x60" = text
  have hSpan : (match parseExpression text with
      | .error fault => some fault.span
      | .ok _ => none) = some ⟨13, 14⟩ := by
    rw [← hText]
    decide +kernel
  cases hRun : parseExpression text with
  | ok t => simp [hRun] at hSpan
  | error fault =>
      simp only [hRun, Option.some.injEq] at hSpan
      obtain ⟨-, -, hCut⟩ := faults_point_at_text (.inr hRun)
      rw [hSpan] at hCut
      exact ⟨text, fault, rfl, hRun, hSpan, hSpan ▸ hCut⟩

end Node

end CodeShape
