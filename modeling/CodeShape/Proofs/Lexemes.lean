import CodeShape.Token.Scanner
import Mathlib.Data.List.Basic

/-!
The text of a single word. A word is scanned from its own text again, whatever follows, as long as
the next character does not go on with it.
-/
namespace CodeShape

/-- A sequence that ends well has had a first part that did. -/
theorem exists_of_bind_eq_ok {ε α β : Type} {x : Except ε α} {f : α → Except ε β} {b : β}
    (h : (x >>= f) = .ok b) : ∃ a, x = .ok a ∧ f a = .ok b := by
  cases x with
  | error e => cases h
  | ok a => exact ⟨a, rfl, h⟩

namespace Quotation

/-- An escape is told by its own characters and the one after it. -/
theorem escape_append {pre post : List Char} {d : Char} {value : List Char}
    (h : escape (pre ++ d :: post) = .ok (value, pre.length)) (rest : List Char) :
    escape (pre ++ d :: rest) = .ok (value, pre.length) := by
  generalize hcs : pre ++ d :: post = cs at h
  generalize hn : pre.length = n at h ⊢
  have hOne : ∀ {c : Char} {tail : List Char}, pre ++ d :: post = c :: tail → pre.length = 1 →
      pre = [c] ∧ d :: post = tail := by
    intro c tail hEq hLength
    obtain ⟨e, rfl⟩ := List.length_eq_one_iff.1 hLength
    cases hEq
    exact ⟨rfl, rfl⟩
  -- one case for each arm; digits are read up to `d` and no further
  unfold escape at h
  split at h
  · cases h
  iterate 8
    · cases h
      rw [(hOne hcs hn).1]
      rfl
  · cases h
    obtain ⟨a, b, rfl⟩ := List.length_eq_two.1 hn
    cases hcs
    rfl
  · next hNot =>
      cases h
      obtain ⟨rfl, rfl⟩ := hOne hcs hn
      have hd : d ≠ '\n' := fun hd => hNot post (by rw [hd])
      rw [List.singleton_append, escape]
      intro tail hEq
      cases hEq
      exact hd rfl
  · next ds =>
      obtain ⟨c, hHex, hPair⟩ := exists_of_bind_eq_ok h
      cases hPair
      obtain ⟨e, f, g, rfl⟩ := List.length_eq_three.1 hn
      cases hcs
      change (fixedHex 2 (f :: g :: d :: rest) >>= fun c => pure ([c], 3)) = _
      have hSame : fixedHex 2 (f :: g :: d :: rest) = fixedHex 2 (f :: g :: d :: post) := by
        simp [fixedHex]
      rw [hSame]
      exact h
  · next ds =>
      dsimp only at h
      split at h
      · cases h
      · next hDigits =>
          obtain ⟨c, hHex, hPair⟩ := exists_of_bind_eq_ok h
          cases hPair
          obtain ⟨ds', rfl, rfl⟩ : ∃ ds', pre = 'u' :: '\x7b' :: ds' ∧ ds = ds' ++ d :: post := by
            match pre, hn, hcs with
            | e :: f :: ds', _, hcs =>
                cases hcs
                exact ⟨ds', rfl, rfl⟩
          have hSame : (ds' ++ d :: rest).takeWhile (· != '\x7d') =
              (ds' ++ d :: post).takeWhile (· != '\x7d') := by
            have hShort : (ds'.takeWhile (· != '\x7d')).length ≠ ds'.length := by
              intro hAll
              rw [List.takeWhile_append, if_pos hAll] at hn
              simp only [List.length_cons, List.length_append] at hn
              omega
            rw [List.takeWhile_append, List.takeWhile_append, if_neg hShort, if_neg hShort]
          rw [List.cons_append, List.cons_append, escape, hSame, if_neg hDigits]
          exact h
  · next ds hBrace =>
      obtain ⟨c, hHex, hPair⟩ := exists_of_bind_eq_ok h
      cases hPair
      obtain ⟨e, f, g, k, l, rfl⟩ : ∃ e f g k l, pre = [e, f, g, k, l] := by
        match pre, hn with
        | [e, f, g, k, l], _ => exact ⟨e, f, g, k, l, rfl⟩
      cases hcs
      have hf : f ≠ '\x7b' := fun hf => hBrace (g :: k :: l :: d :: post) (by rw [hf]; rfl)
      have hSame : fixedHex 4 (f :: g :: k :: l :: d :: rest) =
          fixedHex 4 (f :: g :: k :: l :: d :: post) := by
        simp [fixedHex]
      simp only [List.cons_append, List.nil_append]
      rw [escape]
      · rw [hSame]
        exact h
      · intro tail hEq
        cases hEq
        exact hf rfl
  · next c tail hN hT hR hB hF hV hZero hLine hReturn' hReturn hX hBrace hU =>
      cases h
      obtain ⟨rfl, rfl⟩ := hOne hcs hn
      rw [List.singleton_append, escape.eq_def]
      split
      case h_15 hEq =>
        cases hEq
        rfl
      all_goals exfalso; simp_all

/-- What the body of a quotation reads is a part of the text, and it reads the same whatever
follows. -/
theorem exists_append_of_body {quote : Char} {cs : List Char} {value : List Char} {length : Nat}
    (h : body quote cs = .ok (value, length)) :
    ∃ pre post, cs = pre ++ post ∧ pre.length = length ∧ pre ≠ [] ∧
      ∀ rest, body quote (pre ++ rest) = .ok (value, length) := by
  fun_induction body quote cs generalizing value length with
  | case1 => cases h
  | case2 c rest hc =>
      cases h
      refine ⟨[c], rest, rfl, rfl, nofun, fun rest => ?_⟩
      rw [List.singleton_append, body, if_pos hc]
  | case3 c rest hc hLine => cases h
  | case4 c rest hc hLine hEscape ih =>
      obtain ⟨⟨values, taken⟩, hTaken, hRest⟩ := exists_of_bind_eq_ok h
      obtain ⟨⟨more, n⟩, hBody, hDone⟩ := exists_of_bind_eq_ok hRest
      cases hDone
      obtain ⟨pre, post, hDrop, rfl, hNonempty, hStable⟩ := ih taken hBody
      obtain ⟨d, pre, rfl⟩ := List.exists_cons_of_ne_nil hNonempty
      obtain ⟨escaped, rfl, rfl⟩ : ∃ escaped, rest = escaped ++ (d :: pre ++ post) ∧
          escaped.length = taken := by
        refine ⟨rest.take taken, by rw [← hDrop, List.take_append_drop], ?_⟩
        have hLength := congrArg List.length hDrop
        simp only [List.length_drop, List.length_append, List.length_cons] at hLength
        rw [List.length_take]
        omega
      refine ⟨c :: (escaped ++ d :: pre), post, by simp, by simp; omega, nofun, fun rest => ?_⟩
      rw [List.cons_append, body, if_neg hc, if_neg hLine, if_pos hEscape, List.append_assoc,
        List.cons_append, escape_append hTaken]
      simp only [bind, Except.bind, List.drop_left]
      rw [← List.cons_append, hStable]
      rfl
  | case5 c rest hc hLine hEscape ih =>
      cases hBody : body quote rest with
      | error flaw => simp [hBody, bind, Except.bind] at h
      | ok r =>
          obtain ⟨values, n⟩ := r
          simp only [hBody, bind, Except.bind] at h
          cases h
          obtain ⟨pre, post, rfl, rfl, -, hStable⟩ := ih hBody
          refine ⟨c :: pre, post, rfl, by simp [Nat.add_comm], nofun, fun rest => ?_⟩
          rw [List.cons_append, body, if_neg hc, if_neg hLine, if_neg hEscape, hStable]
          rfl

end Quotation

namespace Text

theorem isBlank_eq_false {c : Char} (h : 0x20 < c.toNat) (h' : c.toNat < 0x80) :
    isBlank c = false := by
  simp [isBlank, blankRanges, Ranges.holds]
  omega

end Text

namespace Punct

/-- Whether a longer sign starts with the sign and the character. -/
def goesOn (p : Punct) (c : Char) : Bool :=
  all.any fun q => (p.text.toList ++ [c]).isPrefixOf q.text.toList

/-- No punctuator starts with one that comes before it in the list, so the first that fits is the
longest. -/
theorem all_ordered : ∀ p ∈ all, ∀ q ∈ all.takeWhile (· ≠ p),
    q.text.toList.isPrefixOf p.text.toList = false := by
  decide +kernel

/-- The first item that passes is found behind those that do not. -/
theorem find?_eq_some_of_takeWhile {l : List Punct} {p : Punct} {f : Punct → Bool} (hp : p ∈ l)
    (hf : f p = true) (hBefore : ∀ q ∈ l.takeWhile (· ≠ p), f q = false) : l.find? f = some p := by
  induction l with
  | nil => cases hp
  | cons q l ih =>
      by_cases hq : q = p
      · rw [List.find?_cons_of_pos (by rw [hq]; exact hf), hq]
      · have hTake : (q :: l).takeWhile (· ≠ p) = q :: l.takeWhile (· ≠ p) := by simp [hq]
        rw [hTake] at hBefore
        rw [List.find?_cons_of_neg (by simp [hBefore q List.mem_cons_self])]
        refine ih ((List.mem_cons.1 hp).resolve_left (Ne.symm hq)) fun r hr => ?_
        exact hBefore r (List.mem_cons_of_mem _ hr)

/-- A sign is read as itself, unless a longer one goes on with the next character. -/
theorem ofText?_append {p : Punct} {rest : List Char} (hp : p ∈ all)
    (hRest : ∀ c ∈ rest.head?, p.goesOn c = false) :
    ofText? (p.text.toList ++ rest) = some p := by
  refine find?_eq_some_of_takeWhile hp ?_ fun q hq => ?_
  · simp
  · have hqAll : q ∈ all := (List.takeWhile_sublist _).mem hq
    rw [Bool.eq_false_iff]
    intro hPrefix
    have hShorter : ¬ q.text.toList <+: p.text.toList := by
      rw [← List.isPrefixOf_iff_prefix, all_ordered p hp q hq]
      nofun
    rcases List.prefix_or_prefix_of_prefix (List.isPrefixOf_iff_prefix.1 hPrefix)
      (List.prefix_append _ rest) with h | ⟨more, hMore⟩
    · exact hShorter h
    · cases more with
      | nil => exact hShorter (by simp [← hMore])
      | cons c more =>
          have hNext : c :: more <+: rest := by
            rw [List.isPrefixOf_iff_prefix, ← hMore, List.prefix_append_right_inj] at hPrefix
            exact hPrefix
          obtain ⟨_, rfl⟩ := hNext
          have hGoes : p.goesOn c = true :=
            List.any_eq_true.2 ⟨q, hqAll, List.isPrefixOf_iff_prefix.2 ⟨more, by simp [← hMore]⟩⟩
          rw [hRest c rfl] at hGoes
          cases hGoes

/-- Whether no longer sign starts with the sign. -/
def isFinal (p : Punct) : Bool :=
  all.all fun q => !p.text.toList.isPrefixOf q.text.toList ||
    q.text.toList.length ≤ p.text.toList.length

/-- A final sign goes on with nothing. -/
theorem goesOn_eq_false_of_isFinal {p : Punct} (h : p.isFinal = true) (c : Char) :
    p.goesOn c = false := by
  rw [goesOn, List.any_eq_false]
  intro q hq hPrefix
  have hLonger := (List.isPrefixOf_iff_prefix.1 hPrefix).length_le
  have hFinal := List.all_eq_true.1 h q hq
  rw [List.isPrefixOf_iff_prefix.2
    ((List.prefix_append _ _).trans (List.isPrefixOf_iff_prefix.1 hPrefix))] at hFinal
  simp only [List.length_append, List.length_singleton] at hLonger
  simp only [Bool.not_true, Bool.false_or, decide_eq_true_eq] at hFinal
  omega

/-- The signs that stand around and between other things. -/
def separators : List Punct :=
  [.semicolon, .comma, .ellipsis, .openParen, .closeParen, .openBracket, .closeBracket, .openBrace,
    .closeBrace, .update .increment, .update .decrement]

theorem isFinal_of_mem_separators : ∀ p ∈ separators, p.isFinal = true := by decide +kernel

/-- The characters that signs go on with. -/
def further : List Char := ['=', '>', '<', '&', '|', '?', '+', '-', '*', '.']

/-- Signs are longer than one character by few characters only. -/
theorem mem_further {q : Punct} (hq : q ∈ all) {c : Char} (hc : c ∈ q.text.toList.tail) :
    c ∈ further := by
  have hAll : (all.all fun q => q.text.toList.tail.all further.contains) = true := by decide +kernel
  exact List.contains_iff_mem.1 (List.all_eq_true.1 (List.all_eq_true.1 hAll q hq) c hc)

/-- A sign goes on only with a character that is in a longer one. -/
theorem goesOn_eq_false {p : Punct} {c : Char} (hp : p.text.toList ≠ []) (hc : c ∉ further) :
    p.goesOn c = false := by
  rw [goesOn, List.any_eq_false]
  intro q hq hPrefix
  obtain ⟨more, hMore⟩ := List.isPrefixOf_iff_prefix.1 hPrefix
  refine hc (mem_further hq ?_)
  rw [← hMore, List.append_assoc, List.tail_append_of_ne_nil hp]
  simp

end Punct

namespace Unread

/-- A name does not go on here. -/
def EndsName (cs : List Char) : Prop := ∀ c ∈ cs.head?, isNamePart c = false

/-- Neither a name nor a number goes on here. -/
def EndsNumber (cs : List Char) : Prop :=
  ∀ c ∈ cs.head?, isNamePart c = false ∧ c ≠ '.' ∧ c ≠ '+' ∧ c ≠ '-'

/-- What ends a number ends a name. -/
theorem EndsNumber.endsName {cs : List Char} (h : EndsNumber cs) : EndsName cs :=
  fun c hc => (h c hc).1

/-- A text that is a name. -/
def IsName (text : String) : Prop :=
  ∃ c cs, text.toList = c :: cs ∧ isNameStart c = true ∧ ∀ d ∈ cs, isNamePart d = true

instance (text : String) : Decidable (IsName text) :=
  decidable_of_iff
    ((text.toList.head?.any isNameStart && text.toList.tail.all isNamePart) = true) (by
      cases h : text.toList <;> simp [IsName, h])

/-- A text that is a number of the given value: another text starts with it. -/
structure IsNumeral (value : Number) (raw : String) : Prop where
  exists_text : ∃ cs, startsNumber cs = true ∧ raw.toList = cs.take (numeralLength cs)
  read : Number.read? raw.toList = some value

/-- What starts a name may go on with one. -/
theorem isNamePart_of_isNameStart {c : Char} (h : isNameStart c = true) : isNamePart c = true := by
  simp only [isNameStart, isNamePart, Bool.or_eq_true] at h ⊢
  exact .inl h

theorem isDigit_iff {c : Char} : c.isDigit = true ↔ 48 ≤ c.toNat ∧ c.toNat ≤ 57 := by
  simp only [Char.isDigit, Bool.and_eq_true, decide_eq_true_eq, UInt32.le_iff_toNat_le, ge_iff_le]
  rfl

theorem isAlpha_iff {c : Char} :
    c.isAlpha = true ↔ 65 ≤ c.toNat ∧ c.toNat ≤ 90 ∨ 97 ≤ c.toNat ∧ c.toNat ≤ 122 := by
  delta Char.isAlpha Char.isUpper Char.isLower
  simp only [Bool.or_eq_true, Bool.and_eq_true, decide_eq_true_eq, UInt32.le_iff_toNat_le,
    ge_iff_le]
  rfl

theorem isNamePart_of_isDigit {c : Char} (h : c.isDigit = true) : isNamePart c = true := by
  have hAscii : c.toNat < 0x80 := by
    have := isDigit_iff.1 h
    omega
  simp [isNamePart, Text.isNumeral, hAscii, h]

/-- A run of characters ends where the text after it breaks it off. -/
theorem takeWhile_append_of_ends {f : Char → Bool} {cs rest : List Char} (hcs : ∀ c ∈ cs, f c = true)
    (hRest : ∀ c ∈ rest.head?, f c = false) : (cs ++ rest).takeWhile f = cs := by
  rw [List.takeWhile_append_of_pos hcs]
  cases rest with
  | nil => simp
  | cons c rest => simp [hRest c rfl]

/-- A name is read whole where it ends. -/
theorem plain_name {text : String} {c : Char} {rest : List Char} (h : IsName text)
    (hc : text.toList.head? = some c) (hRest : EndsName rest) (offset : Nat) :
    plain ⟨offset, text.toList ++ rest⟩ c = .ok (.name text, text.toList.length) := by
  obtain ⟨d, cs, hText, hd, hcs⟩ := h
  rw [hText] at hc
  cases hc
  have hTake : (text.toList ++ rest).takeWhile isNamePart = text.toList := by
    refine takeWhile_append_of_ends ?_ hRest
    intro e he
    rw [hText] at he
    rcases List.mem_cons.1 he with rfl | he
    · exact isNamePart_of_isNameStart hd
    · exact hcs e he
  rw [plain, if_pos hd]
  simp only [hTake, Unread.text]
  simp

/-- One step in the length of a decimal numeral. -/
theorem decimalLength_cons (pointSeen exponentSeen : Bool) (c : Char) (cs : List Char) :
    decimalLength pointSeen exponentSeen (c :: cs) =
      if c.isDigit || c == '_' then decimalLength pointSeen exponentSeen cs + 1
      else if c == '.' && !pointSeen && !exponentSeen then decimalLength true exponentSeen cs + 1
      else if (c == 'e' || c == 'E') && !exponentSeen then
        match cs with
        | '+' :: rest | '-' :: rest => decimalLength pointSeen true rest + 2
        | rest => decimalLength pointSeen true rest + 1
      else 0 :=
  decimalLength.eq_def _ _ _

theorem beq_eq_false_of_isNamePart {c d : Char} (hc : isNamePart c = false)
    (hd : isNamePart d = true) : (c == d) = false := by
  rw [beq_eq_false_iff_ne]
  rintro rfl
  rw [hd] at hc
  cases hc

/-- What ends a number adds nothing to its length. -/
theorem decimalLength_eq_zero {rest : List Char} (pointSeen exponentSeen : Bool)
    (hRest : EndsNumber rest) : decimalLength pointSeen exponentSeen rest = 0 := by
  cases rest with
  | nil => rfl
  | cons c rest =>
      obtain ⟨hPart, hPoint, -, -⟩ := hRest c rfl
      have hDigit : c.isDigit = false := by
        by_contra hDigit
        rw [isNamePart_of_isDigit (by simpa using hDigit)] at hPart
        cases hPart
      rw [decimalLength_cons]
      simp [hDigit, hPoint, beq_eq_false_of_isNamePart hPart (d := 'e') (by decide),
        beq_eq_false_of_isNamePart hPart (d := 'E') (by decide),
        beq_eq_false_of_isNamePart hPart (d := '_') (by decide)]

/-- The decimal that a text starts with has the same length if something else follows it. -/
theorem decimalLength_take_append {cs rest : List Char} {pointSeen exponentSeen : Bool}
    (hRest : EndsNumber rest) :
    decimalLength pointSeen exponentSeen
      (cs.take (decimalLength pointSeen exponentSeen cs) ++ rest) =
        decimalLength pointSeen exponentSeen cs := by
  fun_induction decimalLength pointSeen exponentSeen cs with
  | case1 p e => exact decimalLength_eq_zero p e hRest
  | case2 p e c cs hc ih =>
      rw [List.take_succ_cons, List.cons_append, decimalLength_cons, if_pos hc, ih]
  | case3 p e c cs hc hp ih =>
      rw [List.take_succ_cons, List.cons_append, decimalLength_cons, if_neg hc, if_pos hp, ih]
  | case4 p e c hc hp he cs ih =>
      rw [List.take_succ_cons, List.take_succ_cons, List.cons_append, decimalLength_cons, if_neg hc,
        if_neg hp, if_pos he]
      simp only [List.cons_append, ih]
  | case5 p e c hc hp he cs ih =>
      rw [List.take_succ_cons, List.take_succ_cons, List.cons_append, decimalLength_cons, if_neg hc,
        if_neg hp, if_pos he]
      simp only [List.cons_append, ih]
  | case6 p e c hc hp he cs hPlus hMinus ih =>
      -- No sign comes to stand after the exponent: neither the text nor the rest starts with one.
      have hSign : ∀ d tail, cs.take (decimalLength p true cs) ++ rest = d :: tail →
          d ≠ '+' ∧ d ≠ '-' := by
        intro d tail hEq
        cases hTake : cs.take (decimalLength p true cs) with
        | nil =>
            rw [hTake] at hEq
            exact (hRest d (by rw [← List.nil_append rest, hEq]; rfl)).2.2
        | cons d' ds =>
            obtain ⟨ds', rfl⟩ : ∃ ds', cs = d' :: ds' := by
              cases cs with
              | nil => simp at hTake
              | cons a as =>
                  have : d' ∈ (a :: as).take (decimalLength p true (a :: as)) := by simp [hTake]
                  have hHead := congrArg List.head? hTake
                  rw [List.head?_take] at hHead
                  split at hHead
                  · cases hHead
                  · cases hHead
                    exact ⟨as, rfl⟩
            rw [hTake] at hEq
            cases hEq
            exact ⟨fun h => hPlus ds' (by rw [h]), fun h => hMinus ds' (by rw [h])⟩
      rw [List.take_succ_cons, List.cons_append, decimalLength_cons, if_neg hc, if_neg hp, if_pos he]
      split
      · next hEq => exact absurd rfl (hSign _ _ hEq).1
      · next hEq => exact absurd rfl (hSign _ _ hEq).2
      · rw [ih]
  | case7 p e c cs hc hp he => exact decimalLength_eq_zero p e hRest

theorem isNamePart_of_isAlphanum {c : Char} (h : (c.isAlphanum || c == '_') = true) :
    isNamePart c = true := by
  simp only [Char.isAlphanum, Bool.or_eq_true] at h
  rcases h with (h | h) | h
  · have hAscii : c.toNat < 0x80 := by
      have := isAlpha_iff.1 h
      omega
    simp [isNamePart, Text.isLetter, hAscii, h]
  · exact isNamePart_of_isDigit h
  · simp [isNamePart, h]

/-- What ends a number gives no numeral a base. -/
theorem hasBase_take_append {cs rest : List Char} (hRest : EndsNumber rest) {n : Nat}
    (h : hasBase cs = false) : hasBase (cs.take n ++ rest) = false := by
  have hBase : ∀ d ds, isNamePart d = false → hasBase ('0' :: d :: ds) = false := by
    intro d ds hd
    simp [hasBase, beq_eq_false_of_isNamePart hd (d := 'x') (by decide),
      beq_eq_false_of_isNamePart hd (d := 'X') (by decide),
      beq_eq_false_of_isNamePart hd (d := 'o') (by decide),
      beq_eq_false_of_isNamePart hd (d := 'O') (by decide),
      beq_eq_false_of_isNamePart hd (d := 'b') (by decide),
      beq_eq_false_of_isNamePart hd (d := 'B') (by decide)]
  have hOther : ∀ c ds, c ≠ '0' → hasBase (c :: ds) = false := by
    intro c ds hc
    unfold hasBase
    split
    · next h => cases h; exact absurd rfl hc
    · rfl
  cases hTake : cs.take n with
  | nil =>
      cases rest with
      | nil => rfl
      | cons c rest =>
          refine hOther c rest ?_
          rintro rfl
          exact absurd (hRest '0' rfl).1 (by decide)
  | cons c ds =>
      by_cases hc : c = '0'
      · subst hc
        cases ds with
        | nil =>
            cases rest with
            | nil => rfl
            | cons d rest => exact hBase d rest (hRest d rfl).1
        | cons d ds =>
            obtain ⟨tail, hcs⟩ : '0' :: d :: ds <+: cs := hTake ▸ List.take_prefix n cs
            rw [← hcs] at h
            exact h
      · exact hOther c _ hc

/-- The number that a text starts with has the same length if something else follows it. -/
theorem numeralLength_take_append {cs rest : List Char} (hRest : EndsNumber rest) :
    numeralLength (cs.take (numeralLength cs) ++ rest) = numeralLength cs := by
  by_cases h : hasBase cs = true
  · obtain ⟨d, ds, rfl⟩ : ∃ d ds, cs = '0' :: d :: ds := by
      unfold hasBase at h
      split at h
      · exact ⟨_, _, rfl⟩
      · cases h
    have hBase : ∀ tail, hasBase ('0' :: d :: tail) = true := fun _ => h
    simp only [numeralLength, hBase, if_true, List.drop_succ_cons, List.drop_zero,
      List.take_succ_cons, List.cons_append]
    rw [← List.prefix_iff_eq_take.1 (List.takeWhile_prefix _), takeWhile_append_of_ends]
    · intro e he
      exact List.all_eq_true.1 List.all_takeWhile e he
    · intro e he
      rw [Bool.eq_false_iff]
      intro hAlpha
      have := (hRest e he).1
      rw [isNamePart_of_isAlphanum hAlpha] at this
      cases this
  · rw [Bool.not_eq_true] at h
    simp only [numeralLength, h, hasBase_take_append hRest h, Bool.false_eq_true, if_false]
    exact decimalLength_take_append hRest

theorem isNameStart_eq_false_of_isDigit {c : Char} (h : c.isDigit = true) :
    isNameStart c = false := by
  have hRange := isDigit_iff.1 h
  have hAlpha : c.isAlpha = false := by
    rw [Bool.eq_false_iff, Ne, isAlpha_iff]
    omega
  have hOther : ∀ d : Char, d.isDigit = false → (c == d) = false := by
    intro d hd
    rw [beq_eq_false_iff_ne]
    rintro rfl
    rw [hd] at h
    cases h
  simp [isNameStart, Text.isLetter, hAlpha, hOther '$' (by decide), hOther '_' (by decide)]
  omega

theorem decimalLength_le {cs : List Char} {pointSeen exponentSeen : Bool} :
    decimalLength pointSeen exponentSeen cs ≤ cs.length := by
  fun_induction decimalLength pointSeen exponentSeen cs <;> simp_all

/-- A numeral is no longer than the text. -/
theorem numeralLength_le (cs : List Char) : numeralLength cs ≤ cs.length := by
  unfold numeralLength
  split
  · next h =>
      unfold hasBase at h
      split at h
      · exact Nat.succ_le_succ (Nat.succ_le_succ (List.takeWhile_sublist _).length_le)
      · cases h
  · exact decimalLength_le

/-- A digit starts a numeral. -/
theorem numeralLength_digit {c : Char} (hc : c.isDigit = true) (cs : List Char) :
    ∃ n, numeralLength (c :: cs) = n + 1 := by
  unfold numeralLength
  split
  · exact ⟨_, rfl⟩
  · rw [decimalLength_cons, if_pos (by simp [hc])]
    exact ⟨_, rfl⟩

/-- A point and a digit start a numeral. -/
theorem numeralLength_point {c : Char} (hc : c.isDigit = true) (cs : List Char) :
    ∃ n, numeralLength ('.' :: c :: cs) = n + 2 := by
  have hBase : hasBase ('.' :: c :: cs) = false := rfl
  rw [numeralLength, hBase, decimalLength_cons, decimalLength_cons true]
  simp [hc]

/-- What a number starts with tells it from a name, whatever follows. -/
theorem exists_take_of_startsNumber {cs : List Char} (h : startsNumber cs = true) :
    ∃ c ds, cs.take (numeralLength cs) = c :: ds ∧ isNameStart c = false ∧
      ∀ rest, startsNumber (c :: ds ++ rest) = true := by
  unfold startsNumber at h
  split at h
  · next c cs =>
      obtain ⟨n, hn⟩ := numeralLength_point h cs
      rw [hn]
      exact ⟨'.', c :: cs.take n, rfl, by decide, fun _ => h⟩
  · next c cs hPoint =>
      obtain ⟨n, hn⟩ := numeralLength_digit h cs
      rw [hn]
      refine ⟨c, cs.take n, rfl, isNameStart_eq_false_of_isDigit h, fun rest => ?_⟩
      have hc : c ≠ '.' := by
        rintro rfl
        cases h
      rw [List.cons_append, startsNumber]
      · exact h
      · intro d tail hEq
        exact absurd hEq hc
  · cases h

/-- A numeral starts with a digit or a point. -/
theorem exists_cons_of_isNumeral {value : Number} {raw : String} (h : IsNumeral value raw) :
    ∃ c cs, raw.toList = c :: cs ∧ (c = '.' ∨ c.isDigit = true) := by
  obtain ⟨cs, hStarts, hRaw⟩ := h.exists_text
  obtain ⟨c, ds, hTake, -, hNumber⟩ := exists_take_of_startsNumber hStarts
  refine ⟨c, ds, hRaw.trans hTake, ?_⟩
  have hStart := hNumber []
  rw [List.append_nil, startsNumber.eq_def] at hStart
  split at hStart
  · next hEq => cases hEq; exact .inl rfl
  · next hEq => cases hEq; exact .inr hStart
  · cases hStart

/-- A numeral is read whole where it ends. -/
theorem plain_number {value : Number} {raw : String} {c : Char} {rest : List Char}
    (h : IsNumeral value raw) (hc : raw.toList.head? = some c) (hRest : EndsNumber rest)
    (offset : Nat) :
    plain ⟨offset, raw.toList ++ rest⟩ c = .ok (.number value raw, raw.toList.length) := by
  obtain ⟨cs, hStarts, hRaw⟩ := h.exists_text
  obtain ⟨d, ds, hTake, hName, hNumber⟩ := exists_take_of_startsNumber hStarts
  have hLength : numeralLength (raw.toList ++ rest) = raw.toList.length := by
    rw [hRaw, numeralLength_take_append hRest, List.length_take, Nat.min_eq_left (numeralLength_le cs)]
  rw [hRaw, hTake] at hc
  cases hc
  have hStart : startsNumber (raw.toList ++ rest) = true := by
    rw [hRaw, hTake]
    exact hNumber rest
  have hFollowed : (rest.head?.any isNamePart) = false := by
    cases rest with
    | nil => rfl
    | cons e rest => exact (hRest e rfl).1
  simp only [plain, hName, hStart, numeral, hLength, List.drop_left, hFollowed, List.take_left,
    h.read, text]
  simp [Option.filter]

/-- A text that is a string literal of the given value: another text starts with it. -/
def IsQuotation (value raw : String) : Prop :=
  ∃ quote cs n, (quote = '\x22' ∨ quote = '\x27') ∧
    Quotation.read (quote :: cs) = .ok (value, n) ∧ raw.toList = (quote :: cs).take n

/-- A quotation starts with its quote, and is read the same whatever follows. -/
theorem exists_cons_of_isQuotation {value raw : String} (h : IsQuotation value raw) :
    ∃ quote cs, raw.toList = quote :: cs ∧ (quote = '\x22' ∨ quote = '\x27') ∧
      ∀ rest, Quotation.read (raw.toList ++ rest) = .ok (value, raw.toList.length) := by
  obtain ⟨quote, cs, n, hQuote, hRead, hRaw⟩ := h
  obtain ⟨⟨chars, length⟩, hBody, hDone⟩ := exists_of_bind_eq_ok hRead
  cases hDone
  obtain ⟨pre, post, rfl, rfl, -, hStable⟩ := Quotation.exists_append_of_body hBody
  have hCons : raw.toList = quote :: pre := by
    rw [hRaw, Nat.add_comm, List.take_succ_cons, List.take_left]
  refine ⟨quote, pre, hCons, hQuote, fun rest => ?_⟩
  rw [hCons, List.cons_append, Quotation.read, hStable, List.length_cons, Nat.add_comm]
  rfl

/-- A quotation is read whole, whatever follows. -/
theorem plain_string {value raw : String} {c : Char} (h : IsQuotation value raw)
    (hc : raw.toList.head? = some c) (rest : List Char) (offset : Nat) :
    plain ⟨offset, raw.toList ++ rest⟩ c = .ok (.string value raw, raw.toList.length) := by
  obtain ⟨quote, cs, hCons, hQuote, hRead⟩ := exists_cons_of_isQuotation h
  rw [hCons] at hc
  cases hc
  have hName : isNameStart c = false := by rcases hQuote with rfl | rfl <;> decide
  have hNumber : startsNumber (raw.toList ++ rest) = false := by
    rw [hCons]
    rcases hQuote with rfl | rfl <;> rfl
  have hTest : (c == '\x22' || c == '\x27') = true := by simpa using hQuote
  simp only [plain, hName, hNumber, hTest, quotation, hRead, text, List.take_left]
  simp

/-- The sign does not go on here, and is no part of a number or of a comment. -/
def EndsSign (p : Punct) (rest : List Char) : Prop :=
  ∀ c ∈ rest.head?, p.goesOn c = false ∧ (p = .dot → c.isDigit = false) ∧
    (p = .binary .div → c ≠ '/' ∧ c ≠ '*')

/-- Every text ends a separator. -/
theorem endsSign_of_separator {p : Punct} (h : p ∈ Punct.separators) (rest : List Char) :
    EndsSign p rest := by
  refine fun c _ => ⟨Punct.goesOn_eq_false_of_isFinal (Punct.isFinal_of_mem_separators p h) c, ?_, ?_⟩
  · rintro rfl
    exact absurd h (by decide)
  · rintro rfl
    exact absurd h (by decide)

/-- No blank starts a name. The ranges of blanks are gone through character by character. -/
theorem isNameStart_eq_false_of_blank : ∀ range ∈ Text.blankRanges,
    ∀ k ∈ List.range' range.1 (range.2 - range.1 + 1), isNameStart (Char.ofNat k) = false := by
  decide +kernel

theorem isBlank_eq_false_of_isNameStart {c : Char} (h : isNameStart c = true) :
    Text.isBlank c = false := by
  rw [Bool.eq_false_iff]
  intro hBlank
  obtain ⟨range, hRange, hc⟩ := List.any_eq_true.1 hBlank
  simp only [Bool.and_eq_true, decide_eq_true_eq] at hc
  have hNot := isNameStart_eq_false_of_blank range hRange c.toNat (by
    rw [List.mem_range'_1]
    omega)
  rw [Char.ofNat_toNat, h] at hNot
  cases hNot

/-- Where neither a blank nor a slash comes there is no gap. -/
theorem gap_cons {c : Char} {cs : List Char} (hSlash : c ≠ '/') (hBlank : Text.isBlank c = false) :
    gap (c :: cs) = .none := by
  rw [gap]
  · simp [hBlank]
  · intro _ h
    exact absurd h hSlash
  · intro _ h
    exact absurd h hSlash

/-- What the first character of a sign is not. -/
theorem sign_head : ∀ p ∈ Punct.all, p.text.toList.head?.all (fun c => !isNameStart c &&
    !c.isDigit && c != '\x22' && c != '\x27' && c != '\x60' && !Text.isBlank c &&
    (c != '.' || p == .dot || p == .ellipsis) &&
    (c != '/' || p == .binary .div || p == .assign .div) && (c != '\x7d' || p == .closeBrace)) =
      true := by
  decide +kernel

/-- A sign starts with a character that starts no name, no quotation and no blank. -/
theorem exists_cons_of_sign {p : Punct} (hp : p ∈ Punct.all) :
    ∃ c cs, p.text.toList = c :: cs ∧ isNameStart c = false ∧ c.isDigit = false ∧ c ≠ '\x22' ∧
      c ≠ '\x27' ∧ c ≠ '\x60' ∧ Text.isBlank c = false ∧
      (c = '.' → p = .dot ∨ p = .ellipsis) ∧ (c = '/' → p = .binary .div ∨ p = .assign .div) ∧
      (c = '\x7d' → p = .closeBrace) := by
  have hNonempty : ∀ p ∈ Punct.all, p.text.toList ≠ [] := by decide +kernel
  obtain ⟨c, cs, hCons⟩ := List.exists_cons_of_ne_nil (hNonempty p hp)
  have hHead := sign_head p hp
  rw [hCons] at hHead
  simp only [List.head?_cons, Option.all_some, Bool.and_eq_true, Bool.or_eq_true, bne_iff_ne,
    Bool.not_eq_true', beq_iff_eq, ne_eq] at hHead
  refine ⟨c, cs, hCons, ?_⟩
  tauto

/-- A sign is not taken for a comment where it ends. -/
theorem gap_sign {p : Punct} {rest : List Char} (hp : p ∈ Punct.all) (hRest : EndsSign p rest) :
    gap (p.text.toList ++ rest) = .none := by
  obtain ⟨c, cs, hCons, -, -, -, -, -, hBlank, -, hSlash, -⟩ := exists_cons_of_sign hp
  by_cases hc : c = '/'
  · subst hc
    rcases hSlash rfl with rfl | rfl
    · cases rest with
      | nil => rfl
      | cons d rest =>
          obtain ⟨-, -, hDiv⟩ := hRest d rfl
          obtain ⟨hLine, hBlock⟩ := hDiv rfl
          change gap ('/' :: d :: rest) = _
          rw [gap]
          · rfl
          · intro tail _ hEq
            cases hEq
            exact hLine rfl
          · intro tail _ hEq
            cases hEq
            exact hBlock rfl
    · rfl
  · rw [hCons, List.cons_append]
    exact gap_cons hc hBlank

/-- A sign is read whole where it ends: no longer one fits there. -/
theorem plain_sign {p : Punct} {c : Char} {rest : List Char} (hp : p ∈ Punct.all)
    (hc : p.text.toList.head? = some c) (hRest : EndsSign p rest) (offset : Nat) :
    plain ⟨offset, p.text.toList ++ rest⟩ c = .ok (.punct p, p.text.toList.length) := by
  obtain ⟨d, cs, hCons, hName, hDigit, hQuote, hQuote', -, -, hPoint, -, -⟩ :=
    exists_cons_of_sign hp
  rw [hCons] at hc
  cases hc
  have hNumber : startsNumber (p.text.toList ++ rest) = false := by
    rw [hCons, List.cons_append]
    by_cases hc : c = '.'
    · subst hc
      rcases hPoint rfl with rfl | rfl
      · cases hCons
        cases rest with
        | nil => rfl
        | cons d rest => exact (hRest d rfl).2.1 rfl
      · cases hCons
        rfl
    · rw [startsNumber]
      · exact hDigit
      · intro _ _ h
        exact absurd h hc
  have hSign := Punct.ofText?_append hp fun c hc => (hRest c hc).1
  have hTest : (c == '\x22' || c == '\x27') = false := by simp [hQuote, hQuote']
  simp only [plain, hName, hNumber, hTest, hSign]
  simp [String.length_toList]

/-- A text of a template: it has no end in it and no expression, and a backslash has something after
it. -/
def isQuasi : List Char → Bool
  | [] => true
  | '\x60' :: _ => false
  | '$' :: '\x7b' :: _ => false
  | '\\' :: _ :: cs => isQuasi cs
  | ['\\'] => false
  | _ :: cs => isQuasi cs

/-- A string of a template is read up to its end, be it a backtick or the start of an expression. -/
theorem quasiLength_of_isQuasi {q rest : List Char} (hq : isQuasi q = true)
    (hRest : (∃ cs, rest = '\x60' :: cs) ∨ ∃ cs, rest = '$' :: '\x7b' :: cs) :
    quasiLength (q ++ rest) = q.length := by
  fun_induction isQuasi q with
  | case1 => rcases hRest with ⟨cs, rfl⟩ | ⟨cs, rfl⟩ <;> rfl
  | case2 => cases hq
  | case3 => cases hq
  | case4 c cs ih => 
      have := ih hq
      simp [quasiLength, this]
  | case5 => cases hq
  | case6 c cs h1 h2 h3 h4 ih =>
      have := ih hq
      rw [List.cons_append, quasiLength]
      · simp [this]
      · exact h1
      · intro tail hc hcs
        cases cs with
        | nil => rcases hRest with ⟨_, rfl⟩ | ⟨_, rfl⟩ <;> simp at hcs
        | cons d ds => exact h2 ds hc (by simp_all)
      · intro d ds hc hcs
        cases cs with
        | nil => exact h4 hc rfl
        | cons d ds => exact h3 d ds hc rfl

/-- What has been read as a string of a template is one. -/
theorem isQuasi_take {cs rest : List Char} (hRest : cs.drop (quasiLength cs) = rest)
    (hNext : rest ≠ []) : isQuasi (cs.take (quasiLength cs)) = true := by
  fun_induction quasiLength cs with
  | case1 => rfl
  | case2 => rfl
  | case3 => rfl
  | case4 c cs ih => exact ih hRest
  | case5 c cs hTick hBrace hEscape ih =>
      rw [List.take_succ_cons, isQuasi]
      · exact ih hRest
      · exact hTick
      · intro tail hc hTake
        obtain ⟨more, hMore⟩ : '\x7b' :: tail <+: cs := hTake ▸ List.take_prefix _ cs
        exact hBrace _ hc hMore.symm
      · intro d tail hc hTake
        obtain ⟨more, hMore⟩ : d :: tail <+: cs := hTake ▸ List.take_prefix _ cs
        exact hEscape _ _ hc hMore.symm
      · intro hc hTake
        cases cs with
        | nil => exact hNext hRest.symm
        | cons d cs => exact hEscape _ _ hc rfl

end Unread

end CodeShape
