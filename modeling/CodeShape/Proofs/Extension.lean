import CodeShape.Proofs.Lossless

/-!
Texts that go on. The words of a text stay what they are if a line end and a closing brace are put
after it: no word takes a line end into it, and a comment to the end of the line still ends there.
The same holds for the expressions of the templates in the text.
-/
namespace CodeShape

open Unread

/-- What is put after a text: a brace on a line of its own. -/
def braceLine : List Char := ['\n', '\x7d']

theorem takeWhile_append_braceLine {f : Char → Bool} (hf : f '\n' = false) (cs : List Char) :
    (cs ++ braceLine).takeWhile f = cs.takeWhile f := by
  induction cs with
  | nil => exact List.takeWhile_cons_of_neg (by simp [hf])
  | cons c cs ih => rw [List.cons_append, List.takeWhile_cons, List.takeWhile_cons, ih]

theorem isPrefixOf_append_braceLine {s : List Char} (hs : '\n' ∉ s) (cs : List Char) :
    s.isPrefixOf (cs ++ braceLine) = s.isPrefixOf cs := by
  induction s generalizing cs with
  | nil => simp
  | cons d s ih =>
      rw [List.mem_cons, not_or] at hs
      cases cs with
      | nil => simp [braceLine, List.isPrefixOf, Ne.symm hs.1]
      | cons c cs => rw [List.cons_append, List.isPrefixOf, List.isPrefixOf, ih hs.2]

namespace Punct

/-- No sign has a line end in it. -/
theorem newline_not_mem : ∀ p ∈ all, '\n' ∉ p.text.toList := by decide +kernel

/-- A sign is read alike before a brace on a new line. -/
theorem ofText?_append_braceLine (cs : List Char) : ofText? (cs ++ braceLine) = ofText? cs := by
  have hFind : ∀ l : List Punct, (∀ p ∈ l, '\n' ∉ p.text.toList) →
      l.find? (fun p => p.text.toList.isPrefixOf (cs ++ braceLine)) =
        l.find? fun p => p.text.toList.isPrefixOf cs := by
    intro l hl
    induction l with
    | nil => rfl
    | cons p l ih =>
        rw [List.find?_cons, List.find?_cons, isPrefixOf_append_braceLine (hl p List.mem_cons_self),
          ih fun q hq => hl q (List.mem_cons_of_mem _ hq)]
  exact hFind all newline_not_mem

end Punct

namespace Unread

section Words

theorem decimalLength_append_braceLine (pointSeen exponentSeen : Bool) (cs : List Char) :
    decimalLength pointSeen exponentSeen (cs ++ braceLine) =
      decimalLength pointSeen exponentSeen cs := by
  have hEnd : ∀ p e, decimalLength p e braceLine = 0 := by decide
  fun_induction decimalLength pointSeen exponentSeen cs with
  | case1 => exact hEnd _ _
  | case2 _ _ c cs hc ih => rw [List.cons_append, decimalLength_cons, if_pos hc, ih]
  | case3 _ _ c cs hc hPoint ih =>
      rw [List.cons_append, decimalLength_cons, if_neg hc, if_pos hPoint, ih]
  | case4 _ _ c hc hPoint hExponent cs ih =>
      rw [List.cons_append, decimalLength_cons, if_neg hc, if_neg hPoint, if_pos hExponent]
      exact congrArg (· + 2) ih
  | case5 _ _ c hc hPoint hExponent cs ih =>
      rw [List.cons_append, decimalLength_cons, if_neg hc, if_neg hPoint, if_pos hExponent]
      exact congrArg (· + 2) ih
  | case6 _ _ c hc hPoint hExponent cs hPlus hMinus ih =>
      rw [List.cons_append, decimalLength_cons, if_neg hc, if_neg hPoint, if_pos hExponent]
      split
      · next h =>
          cases cs with
          | nil => cases h
          | cons d cs => cases h; exact absurd rfl (hPlus _)
      · next h =>
          cases cs with
          | nil => cases h
          | cons d cs => cases h; exact absurd rfl (hMinus _)
      · rw [ih]
  | case7 _ _ c cs hc hPoint hExponent =>
      rw [List.cons_append, decimalLength_cons, if_neg hc, if_neg hPoint, if_neg hExponent]

theorem hasBase_append_braceLine (cs : List Char) : hasBase (cs ++ braceLine) = hasBase cs := by
  match cs with
  | [] => rfl
  | [c] =>
      by_cases hc : c = '0'
      · subst hc
        rfl
      · simp [hasBase, hc]
  | c :: d :: cs =>
      by_cases hc : c = '0'
      · subst hc
        rfl
      · simp [hasBase, hc]

theorem numeralLength_append_braceLine (cs : List Char) :
    numeralLength (cs ++ braceLine) = numeralLength cs := by
  rw [numeralLength, numeralLength, hasBase_append_braceLine, decimalLength_append_braceLine]
  split
  · next h =>
      have hLength : 2 ≤ cs.length := by
        unfold hasBase at h
        split at h
        · simp
        · cases h
      rw [List.drop_append_of_le_length hLength, takeWhile_append_braceLine (by decide)]
  · rfl

theorem startsNumber_append_braceLine {c : Char} {cs : List Char} :
    startsNumber (c :: cs ++ braceLine) = startsNumber (c :: cs) := by
  by_cases hc : c = '.'
  · subst hc
    cases cs with
    | nil => rfl
    | cons d cs => rfl
  · simp [startsNumber, hc]

/-- A numeral is read alike before a brace on a new line. -/
theorem numeral_append_braceLine {u : Unread} {w : Lexeme} {n : Nat} (h : u.numeral = .ok (w, n)) :
    n = numeralLength u.chars ∧
      ∀ offset, numeral ⟨offset, u.chars ++ braceLine⟩ = .ok (w, n) := by
  have hLength := numeralLength_le u.chars
  have hFollowed : (u.chars.drop (numeralLength u.chars) ++ braceLine).head?.any isNamePart =
      (u.chars.drop (numeralLength u.chars)).head?.any isNamePart := by
    cases u.chars.drop (numeralLength u.chars) with
    | nil => decide
    | cons c cs => rfl
  unfold numeral at h ⊢
  simp only [numeralLength_append_braceLine, text, List.take_append_of_le_length hLength,
    List.drop_append_of_le_length hLength, hFollowed] at h ⊢
  split at h
  · cases h
    exact ⟨rfl, fun _ => rfl⟩
  · cases h

/-- A quotation is read alike before a brace on a new line. -/
theorem quotation_append_braceLine {u : Unread} {quote : Char} {cs : List Char} {w : Lexeme}
    {n : Nat} (hc : u.chars = quote :: cs) (h : u.quotation = .ok (w, n)) :
    0 < n ∧ n ≤ u.chars.length ∧
      ∀ offset, quotation ⟨offset, u.chars ++ braceLine⟩ = .ok (w, n) := by
  unfold quotation at h ⊢
  split at h
  · next value length hRead =>
      cases h
      rw [hc] at hRead
      obtain ⟨⟨chars, m⟩, hBody, hDone⟩ := exists_of_bind_eq_ok hRead
      cases hDone
      obtain ⟨pre, post, rfl, rfl, -, hGoesOn⟩ := Quotation.exists_append_of_body hBody
      have hRead' : Quotation.read (quote :: (pre ++ (post ++ braceLine))) =
          .ok (String.ofList chars, 1 + pre.length) := by
        rw [Quotation.read, hGoesOn]
        rfl
      refine ⟨by omega, by simp [hc]; omega, fun _ => ?_⟩
      simp only [hc, List.cons_append, List.append_assoc, hRead', text, Nat.add_comm 1,
        List.take_succ_cons, List.take_left]
  · cases h
  · cases h

/-- A token other than a template takes at least one character, and the same ones if the text goes
on. -/
theorem plain_append_braceLine {u : Unread} {c : Char} {cs : List Char} {w : Lexeme} {n : Nat}
    (hc : u.chars = c :: cs) (h : u.plain c = .ok (w, n)) :
    0 < n ∧ n ≤ u.chars.length ∧
      ∀ offset, plain ⟨offset, u.chars ++ braceLine⟩ c = .ok (w, n) := by
  have hStarts : startsNumber (u.chars ++ braceLine) = startsNumber u.chars := by
    rw [hc, startsNumber_append_braceLine]
  unfold plain at h ⊢
  simp only [hStarts, Punct.ofText?_append_braceLine]
  split at h
  · next hStart =>
      cases h
      have hLength := (List.takeWhile_prefix isNamePart (l := u.chars)).length_le
      refine ⟨?_, hLength, fun _ => ?_⟩
      · rw [hc, List.takeWhile_cons_of_pos (isNamePart_of_isNameStart hStart)]
        exact Nat.succ_pos _
      · simp only [if_pos hStart, text, takeWhile_append_braceLine (f := isNamePart) (by decide),
          List.take_append_of_le_length hLength]
  · next hStart =>
    simp only [if_neg hStart]
    split at h
    · next hNumber =>
        simp only [if_pos hNumber]
        obtain ⟨rfl, hGoesOn⟩ := numeral_append_braceLine h
        obtain ⟨d, ds, hTake, -⟩ := exists_take_of_startsNumber hNumber
        refine ⟨Nat.pos_of_ne_zero fun hZero => ?_, numeralLength_le _, hGoesOn⟩
        rw [hZero] at hTake
        cases hTake
    · next hNumber =>
      simp only [if_neg hNumber]
      split at h
      · next hQuote =>
          simp only [if_pos hQuote]
          exact quotation_append_braceLine hc h
      · next hQuote =>
        simp only [if_neg hQuote]
        split at h
        · next sign hSign =>
            cases h
            obtain ⟨d, ds, hCons, -⟩ := exists_cons_of_sign (List.mem_of_find?_eq_some hSign)
            have hLength : sign.text.length = ds.length + 1 := by
              rw [← String.length_toList, hCons, List.length_cons]
            refine ⟨by omega, ?_, fun _ => rfl⟩
            have hPrefix := List.find?_some (p := fun p : Punct => p.text.toList.isPrefixOf u.chars) hSign
            rw [← String.length_toList]
            exact (List.isPrefixOf_iff_prefix.1 hPrefix).length_le
        · cases h

end Words

section Gaps

/-- A comment that is closed is read alike before anything. -/
theorem commentLength?_append {cs : List Char} {n : Nat} (h : commentLength? cs = some n)
    (rest : List Char) :
    commentLength? (cs ++ rest) = some n ∧ (cs ++ rest).take n = cs.take n := by
  fun_induction commentLength? cs generalizing n with
  | case1 => cases h
  | case2 => cases h; exact ⟨rfl, rfl⟩
  | case3 c cs hc ih =>
      obtain ⟨m, hm, rfl⟩ := Option.map_eq_some_iff.1 h
      obtain ⟨hLength, hTake⟩ := ih hm
      refine ⟨?_, by simpa using hTake⟩
      rw [List.cons_append, commentLength?, hLength]
      · rfl
      · rintro more rfl hMore
        cases cs with
        | nil => cases hm
        | cons d ds =>
            cases hMore
            exact hc ds rfl rfl

/-- What a text that is not empty starts with does not depend on what follows the text. -/
theorem gap_append_braceLine {cs : List Char} (hcs : cs ≠ []) (h : gap cs ≠ .openComment) :
    gap (cs ++ braceLine) = gap cs := by
  unfold gap at h
  split at h
  · next cs => simp only [List.cons_append, gap, takeWhile_append_braceLine (f := (· != '\n')) rfl]
  · next cs =>
      split at h
      · next n hn =>
          obtain ⟨hLength, hTake⟩ := commentLength?_append hn braceLine
          simp only [List.cons_append, gap, hLength, hTake, hn]
      · exact absurd rfl h
  · next c cs hLine hBlock =>
      rw [List.cons_append, gap, gap]
      · exact hLine
      · exact hBlock
      · rintro ds rfl hds
        cases cs with
        | nil => cases hds
        | cons d cs => exact hLine cs rfl (by cases hds; rfl)
      · rintro ds rfl hds
        cases cs with
        | nil => cases hds
        | cons d cs => exact hBlock cs rfl (by cases hds; rfl)
  · exact absurd rfl hcs

end Gaps

/-- The words with a gap before them, in which a line may end. -/
def flagged (lineEnd : Bool) : List (Lexeme × Bool) → List (Lexeme × Bool)
  | [] => []
  | w :: ws => (w.1, lineEnd || w.2) :: ws

theorem flagged_false (ws : List (Lexeme × Bool)) : flagged false ws = ws := by
  cases ws <;> rfl

theorem flagged_or (l k : Bool) (ws : List (Lexeme × Bool)) :
    flagged (l || k) ws = flagged l (flagged k ws) := by
  cases ws with
  | nil => rfl
  | cons w ws => simp only [flagged, Bool.or_assoc]

theorem skipGaps_or {u v : Unread} {k k' : Bool} (h : u.skipGaps k = .ok (k', v)) (l : Bool) :
    u.skipGaps (l || k) = .ok (l || k', v) := by
  fun_induction skipGaps u k with
  | case1 u k hGap =>
      cases h
      exact skipGaps_of_none hGap
  | case2 => cases h
  | case3 u k n l' hGap _ ih =>
      rw [skipGaps_of_piece hGap, Bool.or_assoc]
      exact ih h

/-- A line end before the first word changes only what is noted of it. -/
theorem resume_or {budget : Nat} {opening : Option Nat} {depth : Nat} {k : Bool} {u last : Unread}
    {stream : TokenStream} (h : resume budget opening depth k u = .ok (stream, last)) (l : Bool) :
    ∃ stream', resume budget opening depth (l || k) u = .ok (stream', last) ∧
      marked stream' = flagged l (marked stream) := by
  unfold resume at h ⊢
  cases hChars : u.chars with
  | nil =>
      cases opening with
      | none =>
          simp only [hChars] at h
          cases h
          exact ⟨_, rfl, rfl⟩
      | some start => simp [hChars] at h
  | cons c cs =>
      simp only [hChars] at h ⊢
      split at h
      · next hClose =>
          cases h
          exact ⟨_, if_pos hClose, rfl⟩
      · next hOpen =>
          obtain ⟨⟨w, next⟩, hToken, h⟩ := exists_of_bind_eq_ok h
          cases hTokens : tokens budget opening (braceDepth depth w) next with
          | error fault => simp [hTokens, Except.map] at h
          | ok r =>
              simp only [hTokens, Except.map, Except.ok.injEq, Prod.mk.injEq] at h
              obtain ⟨rfl, rfl⟩ := h
              refine ⟨⟨⟨w, ⟨u.offset, next.offset⟩, l || k⟩ :: r.1.words, r.1.stop⟩, ?_, rfl⟩
              rw [if_neg hOpen, hToken]
              change Except.map _ (tokens budget opening (braceDepth depth w) next) = _
              rw [hTokens]
              rfl

namespace Scans

variable {inside : Bool} {depth : Nat} {cs rest left : List Char} {ws : List (Lexeme × Bool)}

/-- White space or a comment before the words. -/
theorem gap {n : Nat} {l : Bool} (hGap : gap cs = .piece n l)
    (h : Scans inside depth (cs.drop (n + 1)) ws left) :
    Scans inside depth cs (flagged l ws) left := by
  intro budget hBudget opening hOpening offset
  obtain ⟨budget, rfl⟩ := Nat.exists_eq_succ_of_ne_zero (by omega : budget ≠ 0)
  obtain ⟨stream, u, hTokens, hWords, hLeft⟩ := h (budget + 1)
    (by rw [List.length_drop]; omega) opening hOpening (offset + Text.size (cs.take (n + 1)))
  rw [tokens_succ] at hTokens
  obtain ⟨⟨k, v⟩, hSkip, hResume⟩ := exists_of_bind_eq_ok hTokens
  obtain ⟨stream', hResume', hMarked⟩ := resume_or hResume l
  refine ⟨stream', u, ?_, by rw [hMarked, hWords], hLeft⟩
  rw [tokens_succ, skipGaps_of_piece (u := ⟨offset, cs⟩) hGap, Bool.or_comm]
  change (skipGaps ⟨offset + Text.size (cs.take (n + 1)), cs.drop (n + 1)⟩ (l || false) >>= _) = _
  rw [skipGaps_or hSkip l]
  exact hResume'

end Scans

theorem gap_of_skipGaps {u v : Unread} {k k' : Bool} (h : u.skipGaps k = .ok (k', v)) :
    gap v.chars = .none := by
  fun_induction skipGaps u k with
  | case1 u k hGap =>
      cases h
      exact hGap
  | case2 => cases h
  | case3 u k n l hGap _ ih => exact ih h

/-- What is passed over in a text is passed over in the text that goes on. -/
theorem scans_of_skipGaps {u v : Unread} {k k' : Bool} (h : u.skipGaps k = .ok (k', v))
    {inside : Bool} {depth : Nat} {ws : List (Lexeme × Bool)} {left : List Char}
    (hv : Scans inside depth (v.chars ++ braceLine) ws left) :
    ∃ l, k' = (k || l) ∧ Scans inside depth (u.chars ++ braceLine) (flagged l ws) left := by
  fun_induction skipGaps u k with
  | case1 u k hGap =>
      cases h
      exact ⟨false, (Bool.or_false _).symm, by rwa [flagged_false]⟩
  | case2 => cases h
  | case3 u k n l hGap _ ih =>
      obtain ⟨m, rfl, hScans⟩ := ih h
      refine ⟨l || m, Bool.or_assoc _ _ _, ?_⟩
      obtain ⟨piece, after, hChars, hLength, -⟩ := exists_of_gap hGap
      have hne : u.chars ≠ [] := by
        intro hNil
        rw [hNil] at hGap
        cases hGap
      rw [flagged_or]
      have hClosed : gap u.chars ≠ .openComment := by
        rw [hGap]
        exact Gap.noConfusion
      refine .gap ((gap_append_braceLine hne hClosed).trans hGap) ?_
      rwa [List.drop_append_of_le_length (by rw [hChars, List.length_append]; omega)]

/-- The words of a text that goes on: the brace is one of them unless the text is read up to the end
of an expression in a template. -/
def continued (inside : Bool) (stream : TokenStream) : List (Lexeme × Bool) :=
  marked stream ++ if inside then [] else [(.punct .closeBrace, true)]

/-- What is left of a text that goes on. -/
def remainder (inside : Bool) (left : List Char) : List Char :=
  if inside then left ++ braceLine else []

theorem scans_braceLine (depth : Nat) :
    Scans false depth braceLine [(.punct .closeBrace, true)] [] := by
  have hBrace : Scans false depth ['\x7d'] [(.punct .closeBrace, false)] [] :=
    Scans.word (s := ['\x7d']) (w := .punct .closeBrace) rfl rfl (by decide) nofun
      (plain_sign (p := .closeBrace) (by decide) rfl (endsSign_of_separator (by decide) _)) .nil
  have hLine : Scans false depth braceLine (flagged true [(.punct .closeBrace, false)]) [] :=
    .gap (n := 0) (l := true) rfl hBrace
  exact hLine

/-- With the budget, the tokens of a text that goes on are those of the text. How many braces are open
matters only inside a template. -/
def TokensExtend (budget : Nat) : Prop :=
  ∀ opening depth u stream last, tokens budget opening depth u = .ok (stream, last) →
    last.chars.length ≤ u.chars.length ∧ ∀ open', (opening.isSome = true → open' = depth) →
      Scans opening.isSome open' (u.chars ++ braceLine) (continued opening.isSome stream)
        (remainder opening.isSome last.chars)

/-- With the budget, the pieces of a template do not change if the text goes on. -/
def PiecesExtend (budget : Nat) : Prop :=
  ∀ start u quasis parts last, pieces budget start u = .ok (quasis, parts, last) →
    last.chars.length ≤ u.chars.length ∧
      ScansPieces (u.chars ++ braceLine) quasis (Lexeme.plainParts parts) (last.chars ++ braceLine)

theorem length_advance (u : Unread) (n : Nat) :
    (u.advance n).chars.length = u.chars.length - n := List.length_drop

theorem PiecesExtend.succ {budget : Nat} (hTokens : TokensExtend budget)
    (hPieces : PiecesExtend budget) : PiecesExtend (budget + 1) := by
  intro start u quasis parts last h
  have hQuasi : ∀ c cs, (u.advance (quasiLength u.chars)).chars = c :: cs →
      isQuasi (u.text (quasiLength u.chars)).toList = true ∧
        u.chars = (u.text (quasiLength u.chars)).toList ++ c :: cs := by
    intro c cs hNext
    rw [text, String.toList_ofList]
    exact ⟨isQuasi_take hNext (List.cons_ne_nil c cs), by rw [← hNext]; exact (List.take_append_drop _ _).symm⟩
  rcases exists_of_pieces h rfl with ⟨cs, hNext, rfl, rfl, rfl⟩ |
    ⟨cs, part, w, quasis', parts', hNext, hPart, hMore, rfl, rfl⟩ <;>
    generalize u.text (quasiLength u.chars) = quasi at hQuasi
  · obtain ⟨hIsQuasi, hChars⟩ := hQuasi _ _ hNext
    have hLast : ((u.advance (quasiLength u.chars)).advance 1).chars = cs := by
      rw [advance, hNext]
      rfl
    rw [hLast]
    refine ⟨by rw [hChars]; simp; omega, ?_⟩
    rw [hChars]
    simpa [Lexeme.plainParts] using ScansPieces.last hIsQuasi
  · obtain ⟨hIsQuasi, hChars⟩ := hQuasi _ _ hNext
    have hInside : ((u.advance (quasiLength u.chars)).advance 2).chars = cs := by
      rw [advance, hNext]
      rfl
    obtain ⟨hShorter, hScans⟩ := hTokens _ _ _ _ _ hPart
    obtain ⟨hShorter', hScans'⟩ := hPieces _ _ _ _ _ hMore
    rw [hInside] at hShorter hScans
    refine ⟨by rw [hChars]; simp; omega, ?_⟩
    have hPartScans : Scans true 0 (cs ++ braceLine) (marked part) (w.chars ++ braceLine) := by
      simpa [continued, remainder] using hScans 0 fun _ => rfl
    have := ScansPieces.more hIsQuasi (by simp; omega) hPartScans hScans'
    rw [hChars]
    simpa [Lexeme.plainParts, Lexeme.plainWords_eq_map, marked, Function.comp_def] using this

/-- A token of a text that goes on, with what follows it. -/
theorem scans_of_token {budget : Nat} (hPieces : PiecesExtend budget) {u next : Unread} {c : Char}
    {cs : List Char} {w : Lexeme} (hc : u.chars = c :: cs) (hGap : gap u.chars = .none)
    (hToken : token budget u c = .ok (w, next)) :
    next.chars.length ≤ u.chars.length ∧ ∀ inside depth ws left,
      (inside = true → depth = 0 → c ≠ '\x7d') →
      Scans inside (braceDepth depth w) (next.chars ++ braceLine) ws left →
      Scans inside depth (u.chars ++ braceLine) ((w.plain, false) :: ws) left := by
  rcases exists_of_token hToken with ⟨rfl, quasis, parts, hParts, rfl⟩ |
    ⟨hTick, n, hPlain, rfl⟩
  · obtain ⟨hShorter, hScans⟩ := hPieces _ _ _ _ _ hParts
    have hRest : (u.advance 1).chars = cs := by rw [advance, hc]; rfl
    rw [hRest] at hShorter hScans
    refine ⟨by rw [hc, List.length_cons]; omega, fun inside depth ws left _ hNext => ?_⟩
    rw [hc]
    exact .template hScans (by simpa using hShorter) hNext
  · obtain ⟨hPos, hLength, hGoesOn⟩ := plain_append_braceLine hc hPlain
    have hSplit : u.chars.take n ++ (u.advance n).chars = u.chars := List.take_append_drop n _
    refine ⟨by rw [length_advance]; omega, fun inside depth ws left hClose hNext => ?_⟩
    have hHead : (u.chars.take n).head? = some c := by
      rw [hc, List.head?_take, if_neg (by omega)]
      rfl
    have hTake : (u.chars.take n).length = n := List.length_take_of_le hLength
    rw [← hSplit, List.append_assoc]
    refine .word ?_ hHead hTick hClose (fun offset => ?_) hNext
    · rw [← List.append_assoc, hSplit, gap_append_braceLine (by rw [hc]; nofun) (by rw [hGap]; nofun)]
      exact hGap
    · rw [← List.append_assoc, hSplit, hTake]
      exact hGoesOn offset

/-- One more round of the scanner extends over the brace if the rounds before do. -/
theorem TokensExtend.succ {budget : Nat} (hTokens : TokensExtend budget)
    (hPieces : PiecesExtend budget) : TokensExtend (budget + 1) := by
  intro opening depth u stream last h
  rw [tokens_succ] at h
  obtain ⟨⟨k, v⟩, hSkip, hResume⟩ := exists_of_bind_eq_ok h
  dsimp only at hResume
  have hPassed : v.chars.length ≤ u.chars.length := by
    obtain ⟨gap, hPasses, -⟩ := exists_of_skipGaps hSkip
    rw [hPasses.chars, List.length_append]
    omega
  rcases exists_of_resume hResume with
    ⟨hNil, ⟨rfl, hEnd, -, rfl⟩ | ⟨hOpening, rfl, ⟨cs, hClose⟩, -, rfl⟩⟩ |
    ⟨c, cs, w, next, rest, hc, hOpen, hToken, hTail, rfl⟩
  · refine ⟨hPassed, fun open' _ => ?_⟩
    obtain ⟨l, -, hScans⟩ := scans_of_skipGaps hSkip (by rw [hEnd]; exact scans_braceLine open')
    simpa [flagged, continued, remainder, marked, hNil] using hScans
  · have hLast : (v.advance 1).chars = cs := by rw [advance, hClose]; rfl
    rw [hLast]
    refine ⟨by rw [hClose, List.length_cons] at hPassed; omega, fun open' hOpen' => ?_⟩
    obtain rfl := hOpen' hOpening
    have hBrace : Scans true 0 (v.chars ++ braceLine) [] (cs ++ braceLine) := by
      rw [hClose]
      exact .close
    obtain ⟨l, -, hScans⟩ := scans_of_skipGaps hSkip hBrace
    simpa [flagged, continued, remainder, marked, hNil, hOpening] using hScans
  · obtain ⟨hShorter, hScans⟩ := scans_of_token hPieces hc (gap_of_skipGaps hSkip) hToken
    obtain ⟨hShorter', hRest⟩ := hTokens _ _ _ _ _ hTail
    refine ⟨by omega, fun open' hOpen' => ?_⟩
    have hBrace : opening.isSome = true → open' = 0 → c ≠ '\x7d' := by
      rintro hOpening rfl rfl
      rw [hOpening, ← hOpen' hOpening] at hOpen
      cases hOpen
    have hWord := hScans _ open' _ _ hBrace
      (hRest (braceDepth open' w) fun hOpening => by rw [hOpen' hOpening])
    obtain ⟨l, rfl, hGaps⟩ := scans_of_skipGaps hSkip hWord
    simpa [flagged, continued, marked] using hGaps

/-- The scanner reads a text alike with the brace after it, whatever its budget. -/
theorem extend (budget : Nat) : TokensExtend budget ∧ PiecesExtend budget := by
  induction budget with
  | zero =>
      refine ⟨fun _ _ _ _ _ h => ?_, fun _ _ _ _ _ h => ?_⟩
      · rw [tokens] at h
        cases h
      · rw [pieces] at h
        cases h
  | succ budget ih => exact ⟨.succ ih.1 ih.2, .succ ih.1 ih.2⟩

end Unread

/-- The words in front of the statements of a function without a name and without parameters. -/
def functionOpening : List Lexeme :=
  [.name "function", .punct .openParen, .punct .closeParen, .punct .openBrace]

/-- A text as the body of a function. -/
def asBody (text : String) : String := "function() \x7b\n" ++ text ++ "\n\x7d"

/-- The words of a text come back if it is made the body of a function. Only the first of them may
have been on the first line before. -/
theorem TokenStream.exists_of_asBody {text : String} {stream : TokenStream}
    (h : TokenStream.ofText text = .ok stream) :
    ∃ stream', TokenStream.ofText (asBody text) = .ok stream' ∧
      marked stream' = functionOpening.map (·, false) ++
        flagged true (marked stream ++ [(.punct .closeBrace, true)]) := by
  obtain ⟨⟨stream', last⟩, hTokens, hDone⟩ := exists_of_bind_eq_ok h
  cases hDone
  have hText : Scans false 1 (text.toList ++ braceLine)
      (marked stream ++ [(.punct .closeBrace, true)]) [] :=
    ((extend _).1 _ _ _ _ _ hTokens).2 1 nofun
  have hLine : Scans false 1 ('\n' :: (text.toList ++ braceLine))
      (flagged true (marked stream ++ [(.punct .closeBrace, true)])) [] :=
    .gap (n := 0) (l := true) rfl hText
  have hBrace : Scans false 0 ('\x7b' :: '\n' :: (text.toList ++ braceLine))
      ((.punct .openBrace, false) ::
        flagged true (marked stream ++ [(.punct .closeBrace, true)])) [] :=
    Scans.word (s := ['\x7b']) (w := .punct .openBrace) rfl rfl (by decide) nofun
      (plain_sign (p := .openBrace) (by decide) rfl (endsSign_of_separator (by decide) _)) hLine
  have hSigns : Spells "() ".toList [.punct .openParen, .punct .closeParen] fun _ => True := by
    have hOpen := Spells.sign (p := .openParen) (by decide) nofun nofun
    have hClose := Spells.sign (p := .closeParen) (by decide) nofun nofun
    exact (hOpen.append hClose fun _ _ => endsSign_of_separator (by decide) _).append
      (.space (C := fun _ => True)) fun _ _ => endsSign_of_separator (by decide) _
  have hName : Spells "function".toList [.name "function"] EndsName := .name (by decide +kernel)
  have hOpening := hName.append hSigns fun rest _ c hc => by cases hc; decide
  have hChars : (asBody text).toList = "function".toList ++ "() ".toList ++
      '\x7b' :: '\n' :: (text.toList ++ braceLine) := by
    simp [asBody, braceLine]
  obtain ⟨wrapped, last', hWrapped, hMarked, -⟩ := hOpening false 0 _ _ _ trivial hBrace
    ((asBody text).toList.length + 1) (by rw [hChars]; omega) none rfl 0
  refine ⟨wrapped, ?_, hMarked⟩
  rw [ofText, hChars]
  rw [hChars] at hWrapped
  simp only [hWrapped]
  rfl

end CodeShape
