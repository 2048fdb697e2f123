import CodeShape.Number.Numeral
import CodeShape.Proofs.Rounding
import Mathlib.Data.List.TakeWhile

/-!
The texts of numbers. The text of a decimal is read as the number nearest to the decimal, and the
text of a finite number is that of a decimal nearest to it; so a finite number is read back from its
text.
-/
namespace CodeShape.Number

/-! Digits. -/

theorem foldl_digits (start : Nat) (cs : List Char) :
    cs.foldl (fun n c => 10 * n + (c.toNat - '0'.toNat)) start =
      start * 10 ^ cs.length + digitsValue cs := by
  induction cs generalizing start with
  | nil => simp [digitsValue]
  | cons c cs ih =>
      rw [digitsValue, List.foldl_cons, List.foldl_cons, ih, ih (10 * 0 + _), List.length_cons]
      ring

/-- Digits are read on from the digits before. -/
theorem digitsValue_append (cs ds : List Char) :
    digitsValue (cs ++ ds) = digitsValue cs * 10 ^ ds.length + digitsValue ds := by
  rw [digitsValue, List.foldl_append, foldl_digits]
  rfl

theorem digitsValue_zeros (n : Nat) : digitsValue (List.replicate n '0') = 0 := by
  induction n with
  | zero => rfl
  | succ n ih =>
      have hZero : digitsValue ['0'] = 0 := rfl
      rw [List.replicate_succ, ← List.singleton_append, digitsValue_append, ih, hZero, zero_mul]

/-- The digits of a number are read back as the number. -/
theorem digitsValue_toDigits (n : Nat) : digitsValue (Nat.toDigits 10 n) = n := by
  have hDigit : ∀ d < 10, digitsValue [Nat.digitChar d] = d := by decide
  induction n using Nat.strongRecOn with
  | ind n ih =>
      by_cases hSmall : n < 10
      · rw [Nat.toDigits_of_lt_base hSmall, hDigit n hSmall]
      · rw [Nat.toDigits_of_base_le (by decide) (by omega), digitsValue_append,
          ih (n / 10) (by omega), hDigit _ (by omega), List.length_singleton]
        omega

def AllDigits (cs : List Char) : Prop := ∀ c ∈ cs, c.isDigit = true

theorem AllDigits.append {cs ds : List Char} (hcs : AllDigits cs) (hds : AllDigits ds) :
    AllDigits (cs ++ ds) := List.forall_mem_append.2 ⟨hcs, hds⟩

theorem allDigits_zeros (n : Nat) : AllDigits (List.replicate n '0') := by
  intro c hc
  rw [List.eq_of_mem_replicate hc]
  rfl

theorem allDigits_toDigits (n : Nat) : AllDigits (Nat.toDigits 10 n) :=
  fun c hc => Nat.isDigit_of_mem_toDigits (by decide) (by decide) hc

/-- Zeros at the end are what trimming takes away. -/
theorem exists_trimmed (cs : List Char) :
    ∃ n, cs = (cs.reverse.dropWhile (· == '0')).reverse ++ List.replicate n '0' := by
  refine ⟨(cs.reverse.takeWhile (· == '0')).length, ?_⟩
  have hZeros : (cs.reverse.takeWhile (· == '0')).reverse =
      List.replicate (cs.reverse.takeWhile (· == '0')).length '0' := by
    rw [List.eq_replicate_iff]
    refine ⟨List.length_reverse, fun c hc => ?_⟩
    have hZero := List.mem_takeWhile_imp (List.mem_reverse.1 hc)
    exact beq_iff_eq.1 hZero
  rw [← hZeros, ← List.reverse_append, List.takeWhile_append_dropWhile, List.reverse_reverse]

/-- The text of a decimal without an exponent: digits, and perhaps a point and further digits. The
decimal has the value of all digits, counted from the point. -/
structure Decimal.Spelled (d : Decimal) (whole fraction : List Char) : Prop where
  whole_ne_nil : whole ≠ []
  whole_digits : AllDigits whole
  fraction_digits : AllDigits fraction
  positional_eq : d.positional = whole ++ if fraction.isEmpty then [] else '.' :: fraction
  value_eq : (digitsValue (whole ++ fraction) : ℚ) * 10 ^ (-fraction.length : Int) =
    d.digits * 10 ^ d.exponent

theorem Decimal.spelled_of_nonneg {d : Decimal} (h : 0 ≤ d.exponent) :
    d.Spelled (Nat.toDigits 10 d.digits ++ List.replicate d.exponent.toNat '0') [] where
  whole_ne_nil := by simp [Nat.toDigits_ne_nil]
  whole_digits := (allDigits_toDigits _).append (allDigits_zeros _)
  fraction_digits := nofun
  positional_eq := by simp [positional, h]
  value_eq := by
    have hNone : (-d.exponent).toNat = 0 := by omega
    rw [List.append_nil, digitsValue_append, digitsValue_toDigits, digitsValue_zeros,
      List.length_replicate, List.length_nil, zpow_eq_div _ d.exponent, hNone]
    simp

/-- Every decimal is spelled by digits before and after a point. -/
theorem Decimal.exists_spelled (d : Decimal) : ∃ whole fraction, d.Spelled whole fraction := by
  by_cases h : 0 ≤ d.exponent
  · exact ⟨_, _, d.spelled_of_nonneg h⟩
  · obtain ⟨places, hPlaces⟩ : ∃ places : Nat, d.exponent = -places := ⟨d.exponent.natAbs, by omega⟩
    generalize hPadded : List.replicate (places + 1 - (Nat.toDigits 10 d.digits).length) '0' ++
      Nat.toDigits 10 d.digits = padded
    have hLength : places + 1 ≤ padded.length := by
      rw [← hPadded, List.length_append, List.length_replicate]
      omega
    have hDigits : AllDigits padded := hPadded ▸ (allDigits_zeros _).append (allDigits_toDigits _)
    have hValue : digitsValue padded = d.digits := by
      rw [← hPadded, digitsValue_append, digitsValue_zeros, digitsValue_toDigits, zero_mul,
        zero_add]
    generalize hWhole : padded.take (padded.length - places) = whole
    obtain ⟨n, hn⟩ := exists_trimmed (padded.drop (padded.length - places))
    generalize hFraction : ((padded.drop (padded.length - places)).reverse.dropWhile
      (· == '0')).reverse = fraction at hn
    have hAll : padded = whole ++ fraction ++ List.replicate n '0' := by
      rw [List.append_assoc, ← hn, ← hWhole, List.take_append_drop]
    have hCount : places = fraction.length + n := by
      have hDrop := congrArg List.length hn
      simp only [List.length_drop, List.length_append, List.length_replicate] at hDrop
      omega
    refine ⟨whole, fraction, ?_, ?_, ?_, ?_, ?_⟩
    · rw [← hWhole, ne_eq, ← List.length_eq_zero_iff, List.length_take]
      omega
    · exact fun c hc => hDigits c (hAll ▸ by simp [hc])
    · exact fun c hc => hDigits c (hAll ▸ by simp [hc])
    · have hToNat : (-d.exponent).toNat = places := by omega
      simp only [positional, if_neg h, hToNat, hPadded, hWhole, ← hFraction, List.isEmpty_reverse]
      split
      · rw [List.append_nil]
      · rfl
    · rw [hAll, digitsValue_append, digitsValue_zeros, List.length_replicate, add_zero] at hValue
      rw [hPlaces, ← hValue, hCount]
      push_cast
      rw [neg_add, zpow_add₀ (by norm_num), zpow_neg _ (n : Int), zpow_natCast]
      field_simp

/-! Reading. -/

/-- A run of digits ends where another character comes. -/
theorem takeWhile_digits {cs : List Char} (rest : List Char) (hcs : AllDigits cs)
    (hRest : ∀ c ∈ rest.head?, c.isDigit = false) :
    (cs ++ rest).takeWhile Char.isDigit = cs ∧ (cs ++ rest).dropWhile Char.isDigit = rest := by
  rw [List.takeWhile_append_of_pos hcs, List.dropWhile_append_of_pos hcs]
  cases rest with
  | nil => simp
  | cons c rest =>
      have hc : c.isDigit = false := hRest c rfl
      simp [hc]

/-- Digits are read as what they stand for. -/
theorem readUnsigned?_spelled (negative : Bool) {whole fraction : List Char} (hWhole : whole ≠ [])
    (hDigits : AllDigits whole) (hFraction : AllDigits fraction) :
    readUnsigned? negative (whole ++ if fraction.isEmpty then [] else '.' :: fraction) =
      some (ofDecimal negative (digitsValue (whole ++ fraction)) (-fraction.length)) := by
  have hNonempty : whole.isEmpty = false := by simpa using hWhole
  cases fraction with
  | nil =>
      obtain ⟨hTake, hDrop⟩ := takeWhile_digits [] hDigits nofun
      simp only [readUnsigned?, List.isEmpty_nil, if_true, hTake, hDrop]
      simp [hNonempty, readExponent?]
  | cons c fraction =>
      obtain ⟨hTake, hDrop⟩ := takeWhile_digits ('.' :: c :: fraction) hDigits
        (by rintro _ ⟨⟩; rfl)
      obtain ⟨hTake', hDrop'⟩ := takeWhile_digits [] hFraction nofun
      rw [List.append_nil] at hTake' hDrop'
      simp only [readUnsigned?, List.isEmpty_cons, Bool.false_eq_true, if_false, hTake, hDrop,
        hTake', hDrop']
      simp [hNonempty, readExponent?]

theorem toLower_of_isDigit {c : Char} (hc : c.isDigit = true) : c.toLower = c := by
  have hLast : c.val ≤ 57 := by
    simp only [Char.isDigit, Bool.and_eq_true, decide_eq_true_eq] at hc
    exact hc.2
  refine dif_neg ?_
  rintro ⟨hUpper, -⟩
  exact absurd (UInt32.le_trans hUpper hLast) (by decide)

/-- A text that starts with a digit has no sign and is none of the words for infinity. -/
theorem readDecimal?_digit {c : Char} {cs : List Char} (hc : c.isDigit = true) :
    readDecimal? (c :: cs) = readUnsigned? false (c :: cs) := by
  have hWord : ∀ word : String, word.toList.head? = some 'i' →
      (String.ofList ((c :: cs).map Char.toLower) == word) = false := by
    intro word hHead
    rw [beq_eq_false_iff_ne]
    rintro rfl
    rw [String.toList_ofList, List.map_cons, List.head?_cons, toLower_of_isDigit hc] at hHead
    cases hHead
    cases hc
  unfold readDecimal?
  split
  next negative rest hSign =>
  split at hSign
  · next hMinus => cases hMinus; cases hc
  · next hPlus => cases hPlus; cases hc
  · cases hSign
    simp only [hWord "inf" rfl, hWord "infinity" rfl, Bool.or_self, Bool.false_eq_true, if_false]

/-- Digits and points alone are read as a decimal. -/
theorem read?_plain {text : List Char} (h : ∀ c ∈ text, c.isDigit = true ∨ c = '.') :
    read? text = readDecimal? text := by
  have hPlain : text.filter (· != '_') = text := by
    refine List.filter_eq_self.2 fun c hc => bne_iff_ne.2 ?_
    rintro rfl
    exact absurd (h _ hc) (by decide)
  unfold read?
  rw [hPlain]
  split
  case h_7 => rfl
  all_goals exact absurd (h _ (.tail _ (.head _))) (by decide)

/-- The text of a decimal is read as the number nearest to it. -/
theorem read?_positional (d : Decimal) :
    read? d.positional = some (ofDecimal false d.digits d.exponent) := by
  obtain ⟨whole, fraction, h⟩ := d.exists_spelled
  have hChars : ∀ c ∈ d.positional, c.isDigit = true ∨ c = '.' := by
    rw [h.positional_eq]
    intro c hc
    rcases List.mem_append.1 hc with hWhole | hRest
    · exact .inl (h.whole_digits c hWhole)
    · split at hRest
      · cases hRest
      · rcases List.mem_cons.1 hRest with rfl | hFraction
        · exact .inr rfl
        · exact .inl (h.fraction_digits c hFraction)
  obtain ⟨c, cs, rfl⟩ := List.exists_cons_of_ne_nil h.whole_ne_nil
  have hDigit : c.isDigit = true := h.whole_digits c List.mem_cons_self
  rw [read?_plain hChars, h.positional_eq, List.cons_append, readDecimal?_digit hDigit,
    ← List.cons_append, readUnsigned?_spelled false h.whole_ne_nil h.whole_digits
      h.fraction_digits, ofDecimal_congr false h.value_eq]

/-! Writing. -/

/-- The text of a finite number without its sign. -/
def unsignedText (x : Number) : List Char :=
  if x.magnitude = 0 then ['0'] else x.shortestDecimal.positional

/-- A rendered number is its sign and its unsigned text. -/
theorem toList_render (x : Number) :
    x.render.toList = if x.isNegative then '-' :: x.unsignedText else x.unsignedText :=
  String.toList_ofList

theorem Decimal.head?_positional (d : Decimal) : d.positional.head? ≠ some '-' := by
  obtain ⟨whole, fraction, h⟩ := d.exists_spelled
  obtain ⟨c, cs, rfl⟩ := List.exists_cons_of_ne_nil h.whole_ne_nil
  have hDigit : c.isDigit = true := h.whole_digits c List.mem_cons_self
  rw [h.positional_eq]
  rintro ⟨⟩
  cases hDigit

theorem head?_unsignedText (x : Number) : x.unsignedText.head? ≠ some '-' := by
  unfold unsignedText
  split
  · decide
  · exact x.shortestDecimal.head?_positional

/-- The text of a finite number without its sign is read as the number without its sign. -/
theorem read?_unsignedText {x : Number} (h : x.isFinite = true) :
    read? x.unsignedText = some (ofMagnitude false x.magnitude x.defined) := by
  unfold unsignedText
  split
  · next hZero =>
    have hText : ['0'] = (⟨0, 0⟩ : Decimal).positional := by decide
    have hNumber : ofMagnitude false x.magnitude x.defined = zero false := by
      simp only [hZero, zero]
    rw [hText, read?_positional, hNumber]
    rfl
  · have hNearest := magnitude_ofDecimal_shortestDecimal h
    rw [ofDecimal_eq_nearest, nearest, magnitude_ofMagnitude_false] at hNearest
    rw [read?_positional, ofDecimal_eq_nearest]
    simp only [nearest, hNearest]

/-- The number that a text with at most one minus sign in front stands for. -/
def readSigned? : List Char → Option Number
  | '-' :: cs => (read? cs).map neg
  | cs => read? cs

theorem readSigned?_unsigned {cs : List Char} (h : cs.head? ≠ some '-') :
    readSigned? cs = read? cs := by
  unfold readSigned?
  split
  · exact absurd rfl h
  · rfl

/-- The text shows the number: it is read as the number, or it is a minus sign and a text that is
read as the number with the other sign. There is no second minus sign. -/
inductive Shows : Number → List Char → Prop where
  | plain {x : Number} {cs : List Char} (hRead : read? cs = some x) (hSign : cs.head? ≠ some '-') :
      Shows x cs
  | signed {x : Number} {cs : List Char} (hRead : read? cs = some x.neg)
      (hSign : cs.head? ≠ some '-') : Shows x ('-' :: cs)

/-- A text that shows a number is read back as it. -/
theorem Shows.readSigned?_eq {x : Number} {cs : List Char} (h : x.Shows cs) :
    readSigned? cs = some x := by
  cases h with
  | plain hRead hSign => rw [readSigned?_unsigned hSign, hRead]
  | signed hRead => rw [readSigned?, hRead, Option.map_some, Number.neg_neg]

/-- The text of a finite number shows it. -/
theorem shows_render {x : Number} (h : x.isFinite = true) : x.Shows x.render.toList := by
  rw [toList_render]
  cases hSign : x.isNegative with
  | false =>
      rw [if_neg Bool.false_ne_true]
      refine .plain ?_ x.head?_unsignedText
      rw [read?_unsignedText h, ← eq_ofMagnitude hSign]
  | true =>
      have hPositive : x.neg.isNegative = false := by
        rw [isNegative_neg, hSign]
        rfl
      rw [if_pos rfl]
      refine .signed ?_ x.head?_unsignedText
      rw [read?_unsignedText h, eq_ofMagnitude hPositive]
      simp only [magnitude_neg]

end CodeShape.Number
