import CodeShape.Proofs.Scanning

/-!
Scanning loses nothing of a text. The words stand in it one after the other, each at its own place
and with its own text, and between them there is nothing but white space and comments.
-/
namespace CodeShape

namespace Text

theorem size_append (cs ds : List Char) : size (cs ++ ds) = size cs + size ds := by
  induction cs with
  | nil => simp [size]
  | cons c cs ih => simp [size, ih, Nat.add_assoc]

/-- As many bytes as a text has are dropped with it. -/
theorem dropBytes_size (before cs : List Char) :
    dropBytes (size before) (before ++ cs) = some cs := by
  induction before with
  | nil => simp [size, dropBytes]
  | cons c before ih =>
      obtain ⟨n, hn⟩ := Nat.exists_eq_add_of_lt c.utf8Size_pos
      have hSize : size (c :: before) = n + size before + 1 := by
        rw [size]
        omega
      rw [hSize, List.cons_append, dropBytes, if_pos (by omega), ← ih]
      congr 1
      omega

/-- As many bytes as a text has are taken with it. -/
theorem takeBytes_size (cs after : List Char) : takeBytes (size cs) (cs ++ after) = some cs := by
  induction cs with
  | nil => simp [size, takeBytes]
  | cons c cs ih =>
      obtain ⟨n, hn⟩ := Nat.exists_eq_add_of_lt c.utf8Size_pos
      have hSize : size (c :: cs) = n + size cs + 1 := by
        rw [size]
        omega
      have hRest : n + size cs + 1 - c.utf8Size = size cs := by omega
      rw [hSize, List.cons_append, takeBytes, if_pos (by omega), hRest, ih]
      rfl

/-- Both ends of the span are borders between characters of the text, and the characters between
them are the given ones. -/
def Span.Holds (text : String) (span : Span) (part : String) : Prop :=
  span.start ≤ span.stop ∧ span.slice? text = some part

/-- White space and comments, and what follows them. A comment is complete: to the end of the line,
or to the first closing sign. -/
inductive Gaps : (gap rest : List Char) → Prop where
  | nil (rest : List Char) : Gaps [] rest
  | blank {c : Char} {gap rest : List Char} (hc : isBlank c = true) (h : Gaps gap rest) :
      Gaps (c :: gap) rest
  | lineComment {body gap rest : List Char} (hBody : '\n' ∉ body)
      (hEnd : ∀ c ∈ (gap ++ rest).head?, c = '\n') (h : Gaps gap rest) :
      Gaps ('/' :: '/' :: (body ++ gap)) rest
  | blockComment {body gap rest : List Char} (hBody : ¬ ['*', '/'] <:+: body) (h : Gaps gap rest) :
      Gaps ('/' :: '*' :: (body ++ '*' :: '/' :: gap)) rest

/-- There is nothing but white space and comments between the ends of the span. -/
def Span.IsGap (text : String) (span : Span) : Prop :=
  ∃ gap rest, span.Holds text (String.ofList gap) ∧
    dropBytes span.stop text.toList = some rest ∧ Gaps gap rest

end Text

/-- No longer sign starts in the text where this one does. -/
def Punct.LongestAt (text : String) (start : Nat) (sign : Punct) : Prop :=
  ∃ rest, Text.dropBytes start text.toList = some rest ∧
    ∀ longer ∈ Punct.all, longer.text.toList <+: rest → longer.text.length ≤ sign.text.length

mutual

/-- The text at the place of the word is the word's own. A template is a backtick, its texts with an
expression in braces between each two, and a backtick. -/
def Lexeme.Fills (text : String) (span : Text.Span) : Lexeme → Prop
  | .template quasis parts =>
    quasis.length = parts.length + 1 ∧
      (⟨span.start, span.start + 1⟩ : Text.Span).Holds text "\x60" ∧
      Lexeme.PiecesFill text (span.start + 1) span.stop quasis parts
  | .punct sign => span.Holds text sign.text ∧ sign.LongestAt text span.start
  | word => span.Holds text word.render

/-- The pieces of a template stand in the text between the two offsets, up to the backtick at the
end. The end of an expression is the place of its closing brace. -/
def Lexeme.PiecesFill (text : String) (start stop : Nat) (quasis : List String) :
    List (Words Lexeme) → Prop
  | [] =>
    ∃ quasi middle, quasis = [quasi] ∧ (⟨start, middle⟩ : Text.Span).Holds text quasi ∧
      (⟨middle, stop⟩ : Text.Span).Holds text "\x60"
  | ⟨words, close⟩ :: parts =>
    ∃ quasi more middle, quasis = quasi :: more ∧
      (⟨start, middle⟩ : Text.Span).Holds text quasi ∧
      (⟨middle, middle + 2⟩ : Text.Span).Holds text "$\x7b" ∧
      Lexeme.WordsFill text (middle + 2) close.start words ∧ close.Holds text "\x7d" ∧
      Lexeme.PiecesFill text close.stop stop more parts

/-- The words stand in the text between the two offsets, one after the other, and there is nothing
but white space and comments before, between and after them. -/
def Lexeme.WordsFill (text : String) (start stop : Nat) : List (Located Lexeme) → Prop
  | [] => (⟨start, stop⟩ : Text.Span).IsGap text
  | ⟨word, span, _⟩ :: words =>
    (⟨start, span.start⟩ : Text.Span).IsGap text ∧ span.start < span.stop ∧
      (span.slice? text).isSome ∧ word.Fills text span ∧
      Lexeme.WordsFill text span.stop stop words

end

namespace Unread

/-- The characters are passed on the way from one place to another. -/
structure Passes (u : Unread) (cs : List Char) (v : Unread) : Prop where
  chars : u.chars = cs ++ v.chars
  offset : v.offset = u.offset + Text.size cs

namespace Passes

variable {u v w : Unread} {cs ds : List Char}

/-- To read nothing is to stay. -/
theorem refl : u.Passes [] u := ⟨rfl, rfl⟩

/-- What is read in two goes is read in one. -/
theorem trans (h : u.Passes cs v) (h' : v.Passes ds w) : u.Passes (cs ++ ds) w :=
  ⟨by rw [h.chars, h'.chars, List.append_assoc], by rw [h'.offset, h.offset, Text.size_append]; omega⟩

/-- To go on by some characters is to read these. -/
theorem advance (u : Unread) (n : Nat) : u.Passes (u.chars.take n) (u.advance n) :=
  ⟨(List.take_append_drop n u.chars).symm, rfl⟩

/-- The offsets of a character that is read next and of what follows it. -/
theorem advance_one {c : Char} (hc : u.chars = c :: cs) : u.Passes [c] (u.advance 1) := by
  simpa [hc] using advance u 1

/-- To read something is to go on. -/
theorem lt (h : u.Passes cs v) (hcs : cs ≠ []) : u.offset < v.offset := by
  obtain ⟨c, cs, rfl⟩ := List.exists_cons_of_ne_nil hcs
  have hPos := c.utf8Size_pos
  rw [h.offset, Text.size]
  omega

end Passes

/-- What is to be read is the end of the text, from this offset on. -/
def EndsIn (text : String) (u : Unread) : Prop :=
  ∃ before, (⟨0, text.toList⟩ : Unread).Passes before u

namespace EndsIn

variable {text : String} {u v : Unread} {cs : List Char}

/-- The whole text lies ahead at the start. -/
theorem start (text : String) : EndsIn text ⟨0, text.toList⟩ := ⟨[], .refl⟩

/-- What lies ahead goes on being the end of the text. -/
theorem passes (h : u.EndsIn text) (hcs : u.Passes cs v) : v.EndsIn text := by
  obtain ⟨before, hBefore⟩ := h
  exact ⟨before ++ cs, hBefore.trans hcs⟩

/-- What lies ahead is what is left after the bytes before. -/
theorem dropBytes (h : u.EndsIn text) : Text.dropBytes u.offset text.toList = some u.chars := by
  obtain ⟨before, hChars, hOffset⟩ := h
  simp only [Nat.zero_add] at hChars hOffset
  rw [hChars, hOffset, Text.dropBytes_size]

/-- What is read is what the text has between the two places. -/
theorem holds (h : u.EndsIn text) (hcs : u.Passes cs v) :
    (⟨u.offset, v.offset⟩ : Text.Span).Holds text (String.ofList cs) := by
  have hSize : v.offset - u.offset = Text.size cs := by
    rw [hcs.offset]
    omega
  refine ⟨by rw [hcs.offset]; exact Nat.le_add_right _ _, ?_⟩
  rw [Text.Span.slice?, h.dropBytes, hSize, hcs.chars, Option.bind_eq_bind, Option.bind_some,
    Text.takeBytes_size]
  rfl

/-- The next characters stand in the text, at their place. -/
theorem holds_text (h : u.EndsIn text) (n : Nat) :
    (⟨u.offset, (u.advance n).offset⟩ : Text.Span).Holds text (u.text n) :=
  h.holds (.advance u n)

/-- At the end the offset is the size of the text. -/
theorem size_eq (h : u.EndsIn text) (hu : u.chars = []) : u.offset = Text.size text.toList := by
  obtain ⟨before, hChars, hOffset⟩ := h
  simp only [hu, List.append_nil, Nat.zero_add] at hChars hOffset
  rw [hOffset, hChars]

end EndsIn

/-- A comment ends at the first end mark in it. -/
theorem exists_of_commentLength? {cs : List Char} {n : Nat} (h : commentLength? cs = some n) :
    ∃ body rest, cs = body ++ '*' :: '/' :: rest ∧ body.length = n ∧
      ¬ ['*', '/'] <:+: body := by
  fun_induction commentLength? cs generalizing n with
  | case1 => cases h
  | case2 rest =>
      cases h
      exact ⟨[], rest, rfl, rfl, by simp⟩
  | case3 c cs hNot ih =>
      obtain ⟨m, hm, rfl⟩ := Option.map_eq_some_iff.1 h
      obtain ⟨body, rest, rfl, rfl, hBody⟩ := ih hm
      refine ⟨c :: body, rest, rfl, rfl, ?_⟩
      rw [List.infix_cons_iff]
      rintro (⟨more, hMore⟩ | hInfix)
      · cases hMore
        exact hNot _ rfl rfl
      · exact hBody hInfix

/-- A piece of a gap makes a gap longer. -/
theorem exists_of_gap {cs : List Char} {more : Nat} {lineEnd : Bool}
    (h : gap cs = .piece more lineEnd) :
    ∃ piece after, cs = piece ++ after ∧ piece.length = more + 1 ∧
      ∀ gap rest, after = gap ++ rest → Text.Gaps gap rest → Text.Gaps (piece ++ gap) rest := by
  unfold gap at h
  split at h
  · next cs =>
      cases h
      refine ⟨'/' :: '/' :: cs.takeWhile (· != '\n'), cs.dropWhile (· != '\n'), ?_, rfl, ?_⟩
      · rw [List.cons_append, List.cons_append, List.takeWhile_append_dropWhile]
      · intro gap rest hAfter hGap
        refine .lineComment ?_ ?_ hGap
        · intro hMem
          simpa using List.all_eq_true.1 List.all_takeWhile _ hMem
        · rw [← hAfter]
          intro c hc
          have := List.head?_dropWhile_not (fun c => c != '\n') cs
          rw [Option.mem_def.1 hc] at this
          simpa using this
  · next cs =>
      split at h
      · next n hn =>
          cases h
          obtain ⟨body, rest, rfl, rfl, hBody⟩ := exists_of_commentLength? hn
          refine ⟨'/' :: '*' :: (body ++ ['*', '/']), rest, by simp, by simp, ?_⟩
          intro gap rest' hAfter hGap
          simpa using Text.Gaps.blockComment hBody hGap
      · cases h
  · next c cs _ _ =>
      split at h
      · next hBlank =>
          cases h
          exact ⟨[c], cs, rfl, rfl, fun gap rest _ hGap => .blank hBlank hGap⟩
      · cases h
  · cases h

/-- What is passed over between tokens is a gap. -/
theorem exists_of_skipGaps {u v : Unread} {lineEnd lineEnd' : Bool}
    (h : u.skipGaps lineEnd = .ok (lineEnd', v)) :
    ∃ gap, u.Passes gap v ∧ Text.Gaps gap v.chars := by
  fun_induction skipGaps u lineEnd with
  | case1 u lineEnd =>
      cases h
      exact ⟨[], .refl, .nil _⟩
  | case2 => cases h
  | case3 u lineEnd more l hGap _ ih =>
      obtain ⟨gap, hPasses, hGaps⟩ := ih h
      obtain ⟨piece, after, hChars, hLength, hMore⟩ := exists_of_gap hGap
      have hAdvance : u.Passes piece (u.advance (more + 1)) := by
        have := Passes.advance u (more + 1)
        rwa [hChars, ← hLength, List.take_left, hLength] at this
      refine ⟨piece ++ gap, hAdvance.trans hPasses, hMore gap v.chars ?_ hGaps⟩
      have hSame := hAdvance.chars
      rw [hChars, List.append_cancel_left_eq] at hSame
      rw [hSame, hPasses.chars]

/-- What is skipped between words is a gap in the text. -/
theorem isGap_of_skipGaps {text : String} {u v : Unread} {lineEnd lineEnd' : Bool}
    (hu : u.EndsIn text) (h : u.skipGaps lineEnd = .ok (lineEnd', v)) :
    ∃ gap, u.Passes gap v ∧ (⟨u.offset, v.offset⟩ : Text.Span).IsGap text := by
  obtain ⟨gap, hPasses, hGaps⟩ := exists_of_skipGaps h
  exact ⟨gap, hPasses, gap, v.chars, hu.holds hPasses, (hu.passes hPasses).dropBytes, hGaps⟩

end Unread

/-- The punctuators are listed from the longest to the shortest. -/
theorem Punct.length_sorted :
    all.Pairwise fun p q => q.text.length ≤ p.text.length := by
  decide +kernel

/-- The first sign of the list that fits is the longest one. -/
theorem Punct.length_le_of_ofText? {cs : List Char} {sign : Punct} (h : ofText? cs = some sign) :
    sign.text.toList <+: cs ∧
      ∀ longer ∈ all, longer.text.toList <+: cs → longer.text.length ≤ sign.text.length := by
  obtain ⟨hFits, before, after, hAll, hBefore⟩ := List.find?_eq_some_iff_append.1 h
  refine ⟨List.isPrefixOf_iff_prefix.1 hFits, fun longer hLonger hPrefix => ?_⟩
  have hSorted := length_sorted
  rw [hAll] at hLonger hSorted
  rcases List.mem_append.1 hLonger with hMem | hMem
  · have := hBefore longer hMem
    rw [List.isPrefixOf_iff_prefix.2 hPrefix] at this
    cases this
  · rcases List.mem_cons.1 hMem with rfl | hMem
    · exact Nat.le_refl _
    · exact (List.pairwise_cons.1 (List.pairwise_append.1 hSorted).2.1).1 longer hMem

namespace Unread

/-- A token other than a template takes at least one character, and stands in the text as itself. -/
theorem fills_of_plain {source : String} {u : Unread} {c : Char} {cs : List Char} {w : Lexeme}
    {n : Nat} (hu : u.EndsIn source) (hc : u.chars = c :: cs) (h : u.plain c = .ok (w, n)) :
    0 < n ∧ w.Fills source ⟨u.offset, (u.advance n).offset⟩ := by
  unfold plain at h
  split at h
  · next hStart =>
      cases h
      refine ⟨?_, hu.holds_text _⟩
      rw [hc, List.takeWhile_cons_of_pos (isNamePart_of_isNameStart hStart)]
      exact Nat.succ_pos _
  · split at h
    · next hStarts =>
        unfold numeral at h
        dsimp only at h
        split at h
        · cases h
          obtain ⟨d, ds, hTake, -⟩ := exists_take_of_startsNumber hStarts
          refine ⟨Nat.pos_of_ne_zero fun hZero => ?_, hu.holds_text _⟩
          rw [hZero] at hTake
          cases hTake
        · cases h
    · split at h
      · unfold quotation at h
        split at h
        · next value length hRead =>
            cases h
            refine ⟨?_, hu.holds_text _⟩
            rw [hc] at hRead
            obtain ⟨⟨chars, m⟩, -, hDone⟩ := exists_of_bind_eq_ok hRead
            cases hDone
            omega
        · cases h
        · cases h
      · split at h
        · next sign hSign =>
            cases h
            obtain ⟨⟨after, hAfter⟩, hLongest⟩ := Punct.length_le_of_ofText? hSign
            have hText : u.text sign.text.length = sign.text := by
              rw [text, ← hAfter, ← String.length_toList, List.take_left, String.ofList_toList]
            obtain ⟨d, ds, hCons, -⟩ := exists_cons_of_sign (List.mem_of_find?_eq_some hSign)
            have hPos : 0 < sign.text.length := by
              rw [← String.length_toList, hCons]
              exact Nat.succ_pos _
            have hHolds := hu.holds_text sign.text.length
            rw [hText] at hHolds
            rw [Lexeme.Fills]
            exact ⟨hPos, hHolds, u.chars, hu.dropBytes, hLongest⟩
        · cases h

/-- What a successful scan takes stands in the text where it was taken: tokens, and the pieces of
templates. -/
theorem fills_of_scan (source : String) (budget : Nat) :
    (∀ opening depth u stream last, u.EndsIn source →
      tokens budget opening depth u = .ok (stream, last) →
        (∃ cs, u.Passes cs last) ∧ last.offset = stream.stop.stop ∧
          Lexeme.WordsFill source u.offset stream.stop.start stream.words ∧
          if opening.isSome then stream.stop.Holds source "\x7d"
          else stream.stop = ⟨Text.size source.toList, Text.size source.toList⟩) ∧
    ∀ start u quasis parts last, u.EndsIn source →
      pieces budget start u = .ok (quasis, parts, last) →
        (∃ cs, u.Passes cs last) ∧
          Lexeme.PiecesFill source u.offset last.offset quasis parts := by
  -- words and the pieces of templates are scanned by functions that call each other, so both are
  -- shown at once
  induction budget with
  | zero =>
      refine ⟨fun _ _ _ _ _ _ h => ?_, fun _ _ _ _ _ _ h => ?_⟩
      · rw [tokens] at h
        cases h
      · rw [pieces] at h
        cases h
  | succ budget ih =>
      obtain ⟨ihTokens, ihPieces⟩ := ih
      refine ⟨?_, ?_⟩
      · intro opening depth u stream last hu h
        rw [tokens_succ] at h
        obtain ⟨⟨lineEnd, v⟩, hSkip, hResume⟩ := exists_of_bind_eq_ok h
        obtain ⟨gap, hPasses, hGap⟩ := isGap_of_skipGaps hu hSkip
        have hv := hu.passes hPasses
        -- after the gap the text ends, the brace closes the expression, or a word comes
        rcases exists_of_resume hResume with
          ⟨hNil, ⟨rfl, hEnd, hStop, rfl⟩ | ⟨hOpening, -, ⟨cs, hClose⟩, hStop, rfl⟩⟩ |
          ⟨c, cs, w, next, rest, hc, -, hToken, hTail, rfl⟩
        · rw [hNil, hStop, Lexeme.WordsFill]
          refine ⟨⟨gap, hPasses⟩, rfl, hGap, ?_⟩
          simp [span, Text.size, hv.size_eq hEnd]
        · have hBrace := Passes.advance_one hClose
          rw [hNil, hStop, hOpening, Lexeme.WordsFill]
          exact ⟨⟨_, hPasses.trans hBrace⟩, rfl, hGap, hv.holds hBrace⟩
        · obtain ⟨taken, hTaken, hNonempty, hFill⟩ : ∃ taken, v.Passes taken next ∧ taken ≠ [] ∧
              w.Fills source ⟨v.offset, next.offset⟩ := by
            rcases exists_of_token hToken with ⟨rfl, quasis, parts, hPieces, rfl⟩ |
              ⟨-, n, hPlain, rfl⟩
            · have hTick := Passes.advance_one hc
              obtain ⟨⟨taken, hTaken⟩, hFill⟩ := ihPieces _ _ _ _ _ (hv.passes hTick) hPieces
              have hHolds := hv.holds hTick
              have hOne : (v.advance 1).offset = v.offset + 1 := hTick.offset
              rw [hOne] at hFill hHolds
              refine ⟨_, hTick.trans hTaken, List.cons_ne_nil _ _, ?_⟩
              rw [Lexeme.Fills]
              exact ⟨((valid_of_scan _).2 _ _ _ _ _ hPieces).1, hHolds, hFill⟩
            · obtain ⟨hn, hFill⟩ := fills_of_plain hv hc hPlain
              refine ⟨_, .advance v n, ?_, hFill⟩
              rw [hc, Ne, List.take_eq_nil_iff, not_or]
              exact ⟨by omega, List.cons_ne_nil c cs⟩
          obtain ⟨⟨more, hMore⟩, hOffset, hWords, hStop⟩ :=
            ihTokens _ _ _ _ _ (hv.passes hTaken) hTail
          rw [Lexeme.WordsFill]
          exact ⟨⟨_, hPasses.trans (hTaken.trans hMore)⟩, hOffset,
            ⟨hGap, hTaken.lt hNonempty, by rw [(hv.holds hTaken).2]; rfl, hFill, hWords⟩, hStop⟩
      · intro start u quasis parts last hu h
        have hQuasi := Passes.advance u (quasiLength u.chars)
        have hv := hu.passes hQuasi
        have hHolds := hu.holds hQuasi
        rcases exists_of_pieces h rfl with ⟨cs, hNext, rfl, rfl, rfl⟩ |
          ⟨cs, ⟨words, close⟩, w, quasis', parts', hNext, hTokens, hPieces, rfl, rfl⟩
        · have hTick := Passes.advance_one hNext
          rw [Lexeme.PiecesFill]
          exact ⟨⟨_, hQuasi.trans hTick⟩, _, _, rfl, hHolds, hv.holds hTick⟩
        · have hOpen : (u.advance (quasiLength u.chars)).Passes ['$', '\x7b']
              ((u.advance (quasiLength u.chars)).advance 2) := by
            simpa [hNext] using Passes.advance (u.advance (quasiLength u.chars)) 2
          have hInside := hv.passes hOpen
          obtain ⟨⟨part, hPart⟩, hStop, hWords, hClose⟩ := ihTokens _ _ _ _ _ hInside hTokens
          obtain ⟨⟨more, hMore⟩, hRest⟩ := ihPieces _ _ _ _ _ (hInside.passes hPart) hPieces
          have hTwo : ((u.advance (quasiLength u.chars)).advance 2).offset =
              (u.advance (quasiLength u.chars)).offset + 2 := hOpen.offset
          have hBrace := hv.holds hOpen
          rw [hTwo] at hWords hBrace
          rw [hStop] at hRest
          rw [Lexeme.PiecesFill]
          exact ⟨⟨_, hQuasi.trans (hOpen.trans (hPart.trans hMore))⟩, _, _, _, rfl, hHolds, hBrace,
            hWords, hClose, hRest⟩

end Unread

theorem Text.Span.IsGap.le {source : String} {span : Text.Span} (h : span.IsGap source) :
    span.start ≤ span.stop := by
  obtain ⟨gap, rest, hHolds, -⟩ := h
  exact hHolds.1

/-- Words that stand one after the other do not overlap. -/
theorem Lexeme.WordsFill.pairwise {source : String} {start stop : Nat} {words : List Token}
    (h : Lexeme.WordsFill source start stop words) :
    (∀ t ∈ words, start ≤ t.span.start) ∧
      words.Pairwise fun t t' => t.span.stop ≤ t'.span.start := by
  induction words generalizing start with
  | nil => exact ⟨nofun, .nil⟩
  | cons t words ih =>
      rw [Lexeme.WordsFill] at h
      obtain ⟨hGap, hLt, -, -, hWords⟩ := h
      obtain ⟨hAfter, hPairwise⟩ := ih hWords
      have hStart := hGap.le
      refine ⟨List.forall_mem_cons.2 ⟨hStart, fun t' ht' => ?_⟩, .cons hAfter hPairwise⟩
      exact Nat.le_trans hStart (Nat.le_trans (Nat.le_of_lt hLt) (hAfter t' ht'))

/-- Scanning loses nothing. The words of a text stand in it one after the other, each on borders of
characters and with its own text, the signs being the longest that fit; before, between and after
them there is only white space and complete comments; and the words end where the text does. -/
theorem TokenStream.lossless {text : String} {stream : TokenStream}
    (h : TokenStream.ofText text = .ok stream) :
    Lexeme.WordsFill text 0 stream.stop.start stream.words ∧
      stream.stop = ⟨Text.size text.toList, Text.size text.toList⟩ ∧
      stream.words.Pairwise fun t t' => t.span.stop ≤ t'.span.start := by
  obtain ⟨⟨stream', last⟩, hTokens, hDone⟩ := exists_of_bind_eq_ok h
  cases hDone
  obtain ⟨-, -, hWords, hStop⟩ :=
    (Unread.fills_of_scan text _).1 _ _ _ _ _ (.start text) hTokens
  exact ⟨hWords, hStop, hWords.pairwise.2⟩

/-- A template in a template, with comments and characters of several bytes around it. -/
theorem TokenStream.lossless_nested :
    ∃ text stream, text = "é /*·*/ >>>= \x60a$\x7b \x7b\x7d + \x60$\x7b1\x7d\x60 // \n\x7db\x60 //" ∧
      TokenStream.ofText text = .ok stream ∧
      stream.words.map Located.span = [⟨0, 2⟩, ⟨10, 14⟩, ⟨15, 39⟩] ∧
      Lexeme.WordsFill text 0 stream.stop.start stream.words ∧ stream.stop = ⟨42, 42⟩ := by
  generalize hText : "é /*·*/ >>>= \x60a$\x7b \x7b\x7d + \x60$\x7b1\x7d\x60 // \n\x7db\x60 //" = text
  have hSpans : (TokenStream.ofText text).toOption.map (·.words.map Located.span) =
      some [⟨0, 2⟩, ⟨10, 14⟩, ⟨15, 39⟩] := by
    rw [← hText]
    decide +kernel
  cases hStream : TokenStream.ofText text with
  | error fault => simp [hStream, Except.toOption] at hSpans
  | ok stream =>
      simp only [hStream, Except.toOption, Option.map_some, Option.some.injEq] at hSpans
      obtain ⟨hWords, hStop, -⟩ := TokenStream.lossless hStream
      refine ⟨text, stream, rfl, hStream, hSpans, hWords, hStop.trans ?_⟩
      rw [← hText]
      decide +kernel

end CodeShape
