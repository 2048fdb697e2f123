import CodeShape.Node.Basic
import CodeShape.Proofs.Lexemes
import Mathlib.Data.List.Forall2
import Mathlib.Data.Nat.Digits.Defs

/-!
The grammar of string literals. Between two quotes stand pieces, each of them a character or an
escape. Reading accepts the texts that start so and gives the values of the pieces; only in front of
the digits of an escape it takes a plus sign that the grammar does not have. What the library quotes
itself is read back.
-/
namespace CodeShape

theorem Text.size_eq_utf8ByteSize (cs : List Char) : size cs = (String.ofList cs).utf8ByteSize := by
  induction cs with
  | nil => simp [size]
  | cons c cs ih =>
      have hCons : String.ofList (c :: cs) = String.singleton c ++ String.ofList cs := by
        rw [String.singleton_eq_ofList, ← String.ofList_append]
        rfl
      rw [size, ih, hCons, String.utf8ByteSize_append, String.utf8ByteSize_singleton]

namespace Quotation

def quotes : List Char := ['\x22', '\x27']

def hexDigits : List Char :=
  ['0', '1', '2', '3', '4', '5', '6', '7', '8', '9', 'a', 'b', 'c', 'd', 'e', 'f']

/-- Digits of base sixteen, with letters in either case. -/
def AllHex (ds : List Char) : Prop := ∀ d ∈ ds, d.toLower ∈ hexDigits

instance (ds : List Char) : Decidable (AllHex ds) := inferInstanceAs (Decidable (∀ d ∈ ds, _))

/-- The number that digits of base sixteen stand for after those of `n`. -/
def hexNumber (n : Nat) (ds : List Char) : Nat :=
  ds.foldl (fun n d => 16 * n + hexDigits.idxOf d.toLower) n

/-- The digits of an escape and the code point they give. If `signed`, a plus sign may take the
place of the first digit. -/
inductive Hex (signed : Bool) : List Char → Nat → Prop where
  | digits {ds : List Char} (hSome : ds ≠ []) (hDigits : AllHex ds) : Hex signed ds (hexNumber 0 ds)
  | plus {ds : List Char} (hSigned : signed) (hSome : ds ≠ []) (hDigits : AllHex ds) :
      Hex signed ('+' :: ds) (hexNumber 0 ds)

/-- The control characters that have a letter or a digit for their name. -/
def controls : List (Char × Char) :=
  [('n', '\n'), ('t', '\t'), ('r', '\r'), ('b', '\x08'), ('f', '\x0c'), ('v', '\x0b'),
   ('0', '\x00')]

/-- A piece of a literal, and the characters it stands for. -/
inductive Piece (signed : Bool) (quote : Char) : List Char → List Char → Prop where
  | plain {c : Char} (hQuote : c ≠ quote) (hPlain : c ∉ ['\\', '\n', '\r']) :
      Piece signed quote [c] [c]
  | byte {ds : List Char} {code : Nat} (hHex : Hex signed ds code) (hLength : ds.length = 2) :
      Piece signed quote ('\\' :: 'x' :: ds) [charOf code]
  | unit {ds : List Char} {code : Nat} (hHex : Hex signed ds code) (hLength : ds.length = 4) :
      Piece signed quote ('\\' :: 'u' :: ds) [charOf code]
  | point {ds : List Char} {code : Nat} (hHex : Hex signed ds code) (hLength : ds.length ≤ 6) :
      Piece signed quote ('\\' :: 'u' :: '\x7b' :: (ds ++ ['\x7d'])) [charOf code]
  | lineEnd {cs : List Char} (hEnd : cs ∈ [['\n'], ['\r'], ['\r', '\n']]) :
      Piece signed quote ('\\' :: cs) []
  | other {c : Char} (hOther : c ∉ ['x', 'u', '\n', '\r']) :
      Piece signed quote ['\\', c] [(controls.lookup c).getD c]

/-- Pieces between two quotes, and the characters they stand for together. -/
def IsLiteral (signed : Bool) (quote : Char) (text : List Char) (value : String) : Prop :=
  ∃ texts values, List.Forall₂ (Piece signed quote) texts values ∧
    text = quote :: (texts.flatten ++ [quote]) ∧ value = String.ofList values.flatten

/-! Digits. -/

/-- The value of a hexadecimal digit is its place among the digits. -/
theorem digitValue?_sixteen (c : Char) :
    Number.digitValue? 16 c =
      if c.toLower ∈ hexDigits then some (hexDigits.idxOf c.toLower) else none := by
  by_cases hAscii : c.toNat < 128
  · have hAll : ∀ n < 128, Number.digitValue? 16 (Char.ofNat n) =
        if (Char.ofNat n).toLower ∈ hexDigits then some (hexDigits.idxOf (Char.ofNat n).toLower)
        else none := by
      decide +kernel
    rw [← Char.ofNat_toNat c]
    exact hAll c.toNat hAscii
  · have hLower : c.toLower = c := by
      apply dif_neg
      simp only [UInt32.le_iff_toNat_le, Char.toNat_val, Char.reduceToNat]
      omega
    have hNone : c ∉ hexDigits := by
      intro hc
      have hAll : (hexDigits.all fun d => d.toNat < 128) = true := by decide
      exact hAscii (by simpa using List.all_eq_true.1 hAll c hc)
    have hAbove : ∀ d : Char, d.toNat < 128 → ¬ c ≤ d := by
      intro d hd hLe
      have : c.toNat ≤ d.toNat := hLe
      omega
    rw [hLower, if_neg hNone]
    simp [Number.digitValue?, hAbove]

theorem hexNumber_cons (n : Nat) (d : Char) (ds : List Char) :
    hexNumber n (d :: ds) = hexNumber (16 * n + hexDigits.idxOf d.toLower) ds := List.foldl_cons ..

/-- A number is read on from the digits before. -/
theorem hexNumber_append (n : Nat) (ds es : List Char) :
    hexNumber n (ds ++ es) = hexNumber (hexNumber n ds) es := List.foldl_append

/-- Digits are read from left to right up to the first that is none. -/
theorem foldlM_digitValue? (n : Nat) (ds : List Char) :
    ds.foldlM (fun n c => (Number.digitValue? 16 c).map (16 * n + ·)) n =
      if AllHex ds then some (hexNumber n ds) else none := by
  induction ds generalizing n with
  | nil => simp [AllHex, hexNumber]
  | cons d ds ih =>
      rw [List.foldlM_cons, digitValue?_sixteen]
      by_cases hd : d.toLower ∈ hexDigits
      · have hAll : AllHex (d :: ds) ↔ AllHex ds := by simp [AllHex, hd]
        rw [if_pos hd, Option.map_some, Option.bind_eq_bind, Option.bind_some, ih, hexNumber_cons]
        simp only [hAll]
      · simp [AllHex, hd]

/-- What the reader takes for a number is one, the sign in front included. -/
theorem hexValue?_eq_some_iff {ds : List Char} {code : Nat} :
    hexValue? ds = some code ↔ Hex true ds code := by
  have hDigits : ∀ es : List Char, (if es.isEmpty then none
      else es.foldlM (fun n c => (Number.digitValue? 16 c).map (16 * n + ·)) 0) = some code ↔
      es ≠ [] ∧ AllHex es ∧ code = hexNumber 0 es := by
    intro es
    rw [foldlM_digitValue?]
    cases es with
    | nil => simp
    | cons e es => simp [eq_comm]
  unfold hexValue?
  split
  · next es =>
      rw [hDigits]
      constructor
      · rintro ⟨hSome, hHex, rfl⟩
        exact .plus rfl hSome hHex
      · intro h
        cases h with
        | digits _ hHex => exact absurd (hHex '+' (by simp)) (by decide)
        | plus _ hSome hHex => exact ⟨hSome, hHex, rfl⟩
  · next hPlus =>
      rw [hDigits]
      constructor
      · rintro ⟨hSome, hHex, rfl⟩
        exact .digits hSome hHex
      · intro h
        cases h with
        | digits hSome hHex => exact ⟨hSome, hHex, rfl⟩
        | plus => exact absurd rfl (hPlus _)

/-- The reader of an escape accepts exactly the hexadecimal numbers. -/
theorem decodeHex_eq_ok_iff {ds : List Char} {c : Char} :
    decodeHex ds = .ok c ↔ ∃ code, Hex true ds code ∧ c = charOf code := by
  unfold decodeHex
  cases hValue : hexValue? ds with
  | none =>
      constructor
      · nofun
      · rintro ⟨code, hHex, -⟩
        rw [hexValue?_eq_some_iff.2 hHex] at hValue
        cases hValue
  | some code =>
      constructor
      · intro h
        cases h
        exact ⟨code, hexValue?_eq_some_iff.1 hValue, rfl⟩
      · rintro ⟨code', hHex, rfl⟩
        rw [hexValue?_eq_some_iff.2 hHex] at hValue
        cases hValue
        rfl

/-- The reader of a fixed number of digits looks at these only. -/
theorem fixedHex_eq_ok_iff {count : Nat} {cs : List Char} {c : Char} :
    fixedHex count cs = .ok c ↔
      count ≤ cs.length ∧ ∃ code, Hex true (cs.take count) code ∧ c = charOf code := by
  unfold fixedHex
  split
  · next hLength => rw [decodeHex_eq_ok_iff, and_iff_right hLength]
  · next hLength => simp [hLength]

/-- What counts as a digit is told from all other characters of an escape. -/
theorem Hex.forall_mem {signed : Bool} {ds : List Char} {code : Nat} (h : Hex signed ds code) :
    ∀ d ∈ ds, d ≠ '\x7b' ∧ d ≠ '\x7d' := by
  have hDigits : ∀ {es : List Char}, AllHex es → ∀ d ∈ es, d ≠ '\x7b' ∧ d ≠ '\x7d' := by
    intro es hes d hd
    have hHex := hes d hd
    constructor <;> rintro rfl <;> revert hHex <;> decide
  cases h with
  | digits _ hHex => exact hDigits hHex
  | plus _ _ hHex => exact List.forall_mem_cons.2 ⟨by decide, hDigits hHex⟩

/-- A hexadecimal number has a digit. -/
theorem Hex.exists_cons {signed : Bool} {ds : List Char} {code : Nat} (h : Hex signed ds code) :
    ∃ d es, ds = d :: es := by
  cases h with
  | digits hSome => exact List.exists_cons_of_ne_nil hSome
  | plus => exact ⟨_, _, rfl⟩

/-! Reading a piece. -/

/-- What follows a fixed number of digits does not matter. -/
theorem fixedHex_append {ds : List Char} {code : Nat} (h : Hex true ds code) (rest : List Char) :
    fixedHex ds.length (ds ++ rest) = .ok (charOf code) := by
  rw [fixedHex_eq_ok_iff, List.take_left]
  exact ⟨by simp, code, h, rfl⟩

/-- An escape by two digits is read as its character. -/
theorem escape_byte {ds : List Char} {code : Nat} (h : Hex true ds code) (hLength : ds.length = 2)
    (rest : List Char) : escape ('x' :: (ds ++ rest)) = .ok ([charOf code], 3) := by
  rw [escape, ← hLength, fixedHex_append h]
  rfl

/-- An escape by four digits is read as its character. -/
theorem escape_unit {ds : List Char} {code : Nat} (h : Hex true ds code) (hLength : ds.length = 4)
    (rest : List Char) : escape ('u' :: (ds ++ rest)) = .ok ([charOf code], 5) := by
  rw [escape, ← hLength, fixedHex_append h]
  · rfl
  · obtain ⟨d, es, rfl⟩ := h.exists_cons
    rintro _ hEq
    cases hEq
    exact (h.forall_mem _ (by simp)).1 rfl

/-- An escape by digits in braces is read as its character. -/
theorem escape_point {ds : List Char} {code : Nat} (h : Hex true ds code) (hLength : ds.length ≤ 6)
    (rest : List Char) :
    escape ('u' :: '\x7b' :: (ds ++ '\x7d' :: rest)) = .ok ([charOf code], ds.length + 3) := by
  have hTake : (ds ++ '\x7d' :: rest).takeWhile (· != '\x7d') = ds := by
    rw [List.takeWhile_append_of_pos fun d hd => by simpa using (h.forall_mem d hd).2]
    simp
  have hBounds : ¬ (ds.isEmpty || decide (6 < ds.length)) = true := by
    obtain ⟨d, es, rfl⟩ := h.exists_cons
    simpa using hLength
  rw [escape, hTake, if_neg hBounds, decodeHex_eq_ok_iff.2 ⟨code, h, rfl⟩]
  rfl

/-- A backslash before a line end is read as nothing. -/
theorem escape_lineEnd {cs rest : List Char} (h : cs ∈ [['\n'], ['\r'], ['\r', '\n']])
    (hRest : rest.head? ≠ some '\n') : escape (cs ++ rest) = .ok ([], cs.length) := by
  simp only [List.mem_cons, List.not_mem_nil, or_false] at h
  rcases h with rfl | rfl | rfl
  · rfl
  · rw [List.singleton_append, escape]
    · rfl
    · rintro _ rfl
      exact hRest rfl
  · rfl

/-- A character that is none of the control letters stands for itself. -/
theorem lookup_controls {c : Char} (h : c ∉ controls.map Prod.fst) : controls.lookup c = none := by
  rw [List.lookup_eq_none_iff]
  intro pair hPair
  rw [bne_iff_ne]
  rintro rfl
  exact h (List.mem_map_of_mem hPair)

/-- Any other character after a backslash is read as its control character or as itself. -/
theorem escape_other {c : Char} {rest : List Char} (h : c ∉ ['x', 'u', '\n', '\r']) :
    escape (c :: rest) = .ok ([(controls.lookup c).getD c], 1) := by
  by_cases hControl : c ∈ controls.map Prod.fst
  · simp only [controls, List.map_cons, List.map_nil, List.mem_cons, List.not_mem_nil,
      or_false] at hControl
    rcases hControl with rfl | rfl | rfl | rfl | rfl | rfl | rfl <;> rfl
  · rw [lookup_controls hControl, escape] <;> simp_all [controls]

/-- The body of a quotation goes on after an escape with its value in place. -/
theorem body_escape {quote : Char} (hQuote : quote ≠ '\\') (text : List Char)
    {value rest : List Char} (h : escape (text ++ rest) = .ok (value, text.length)) :
    body quote ('\\' :: (text ++ rest)) =
      (body quote rest).map fun r => (value ++ r.1, ('\\' :: text).length + r.2) := by
  rw [body, if_neg (by simpa using hQuote.symm), if_neg (by decide), if_pos (by decide), h]
  simp only [bind, Except.bind, List.drop_left]
  cases body quote rest with
  | error flaw => rfl
  | ok r => simp [Except.map, pure, Except.pure, Nat.add_comm]

/-- A piece is read before anything that does not go on with it. -/
theorem body_piece {quote : Char} (hQuote : quote ≠ '\\') {text value : List Char}
    (h : Piece true quote text value) {rest : List Char} (hRest : rest.head? ≠ some '\n') :
    body quote (text ++ rest) =
      (body quote rest).map fun r => (value ++ r.1, text.length + r.2) := by
  cases h with
  | @plain c hNot hPlain =>
      simp only [List.mem_cons, List.not_mem_nil, or_false, not_or] at hPlain
      rw [List.singleton_append, body, if_neg (by simpa using hNot), if_neg (by simp [hPlain]),
        if_neg (by simp [hPlain])]
      cases body quote rest <;> rfl
  | @byte ds code hHex hLength =>
      apply body_escape hQuote ('x' :: ds)
      rw [List.cons_append, escape_byte hHex hLength, List.length_cons, hLength]
  | @unit ds code hHex hLength =>
      apply body_escape hQuote ('u' :: ds)
      rw [List.cons_append, escape_unit hHex hLength, List.length_cons, hLength]
  | @point ds code hHex hLength =>
      apply body_escape hQuote ('u' :: '\x7b' :: (ds ++ ['\x7d']))
      simpa using escape_point hHex hLength rest
  | lineEnd hEnd => exact body_escape hQuote _ (escape_lineEnd hEnd hRest)
  | @other c hOther =>
      apply body_escape hQuote [c]
      exact escape_other hOther

theorem Piece.exists_cons {signed : Bool} {quote : Char} {text value : List Char}
    (h : Piece signed quote text value) : ∃ c cs, text = c :: cs ∧ c ≠ '\n' := by
  cases h with
  | plain _ hPlain => exact ⟨_, _, rfl, fun hLine => hPlain (by simp [hLine])⟩
  | _ => exact ⟨'\\', _, rfl, by decide⟩

/-- Pieces are read one after the other. -/
theorem body_pieces {quote : Char} (hQuote : quote ≠ '\\') {texts values : List (List Char)}
    (h : List.Forall₂ (Piece true quote) texts values) {rest : List Char}
    (hRest : rest.head? ≠ some '\n') :
    body quote (texts.flatten ++ rest) =
      (body quote rest).map fun r => (values.flatten ++ r.1, texts.flatten.length + r.2) := by
  induction h with
  | nil =>
      cases hBody : body quote rest <;> simp [hBody, Except.map]
  | @cons text value texts values hPiece hPieces ih =>
      have hNext : (texts.flatten ++ rest).head? ≠ some '\n' := by
        cases hPieces with
        | nil => exact hRest
        | cons hFirst =>
            obtain ⟨c, cs, rfl, hLine⟩ := hFirst.exists_cons
            simpa using hLine
      rw [List.flatten_cons, List.append_assoc, body_piece hQuote hPiece hNext, ih]
      cases body quote rest with
      | error flaw => rfl
      | ok r => simp [Except.map, Nat.add_assoc]

/-! What is read is made of pieces. -/

/-- If something is left after the digits and one more character, that character is a brace. -/
theorem exists_brace {ds : List Char}
    (h : ('u' :: '\x7b' :: ds).drop ((ds.takeWhile (· != '\x7d')).length + 3) ≠ []) :
    ∃ rest, ds = ds.takeWhile (· != '\x7d') ++ '\x7d' :: rest := by
  cases hDrop : ds.dropWhile (· != '\x7d') with
  | nil =>
      exfalso
      apply h
      have hAll : ds.takeWhile (· != '\x7d') = ds := by
        simpa [hDrop] using List.takeWhile_append_dropWhile (p := (· != '\x7d')) (l := ds)
      rw [hAll]
      simp
  | cons d rest =>
      have hBrace := List.head?_dropWhile_not (· != '\x7d') ds
      rw [hDrop] at hBrace
      obtain rfl : d = '\x7d' := by simpa using hBrace
      exact ⟨rest, by rw [← hDrop, List.takeWhile_append_dropWhile]⟩

/-- An escape that is read is a piece, if it does not end the text. -/
theorem piece_of_escape {quote : Char} {cs value : List Char} {taken : Nat}
    (h : escape cs = .ok (value, taken)) (hMore : cs.drop taken ≠ []) :
    Piece true quote ('\\' :: cs.take taken) value := by
  unfold escape at h
  split at h
  · cases h
  iterate 7
    · cases h
      exact .other (by decide)
  iterate 3
    · cases h
      exact .lineEnd (by simp)
  · next ds =>
      obtain ⟨c, hFixed, hPair⟩ := exists_of_bind_eq_ok h
      cases hPair
      obtain ⟨hLength, code, hHex, rfl⟩ := fixedHex_eq_ok_iff.1 hFixed
      exact .byte hHex (by simpa using hLength)
  · next ds =>
      dsimp only at h
      split at h
      · cases h
      · next hBounds =>
          obtain ⟨c, hDecode, hPair⟩ := exists_of_bind_eq_ok h
          cases hPair
          obtain ⟨code, hHex, rfl⟩ := decodeHex_eq_ok_iff.1 hDecode
          obtain ⟨rest, hRest⟩ := exists_brace hMore
          generalize ds.takeWhile (· != '\x7d') = digits at hBounds hHex hRest ⊢
          subst hRest
          have hTake : ('u' :: '\x7b' :: (digits ++ '\x7d' :: rest)).take (digits.length + 3) =
              'u' :: '\x7b' :: (digits ++ ['\x7d']) := by
            simp [List.take_append, List.take_of_length_le]
          rw [hTake]
          apply Piece.point hHex
          simp only [Bool.or_eq_true, decide_eq_true_eq, not_or] at hBounds
          omega
  · next ds hBrace =>
      obtain ⟨c, hFixed, hPair⟩ := exists_of_bind_eq_ok h
      cases hPair
      obtain ⟨hLength, code, hHex, rfl⟩ := fixedHex_eq_ok_iff.1 hFixed
      exact .unit hHex (by simpa using hLength)
  · next c rest hN hT hR hB hF hV hZero hLine hReturn' hReturn hX hBrace hU =>
      cases h
      have hOther : c ∉ ['x', 'u', '\n', '\r'] := by simp_all
      have hValue : (controls.lookup c).getD c = c := by
        rw [lookup_controls (by simp_all [controls])]
        rfl
      have hPiece : Piece true quote ['\\', c] [(controls.lookup c).getD c] := .other hOther
      rwa [hValue] at hPiece

/-- The body of a quotation is read as pieces up to the quote. -/
theorem exists_pieces_of_body {quote : Char} {cs value : List Char} {n : Nat}
    (h : body quote cs = .ok (value, n)) :
    ∃ texts values rest, List.Forall₂ (Piece true quote) texts values ∧
      cs = texts.flatten ++ quote :: rest ∧ value = values.flatten ∧
      n = texts.flatten.length + 1 := by
  fun_induction body quote cs generalizing value n with
  | case1 => cases h
  | case2 c rest hc =>
      cases h
      obtain rfl := eq_of_beq hc
      exact ⟨[], [], rest, .nil, rfl, rfl, rfl⟩
  | case3 c rest hc hLine => cases h
  | case4 c rest hc hLine hEscape ih =>
      -- More is read after the escape, so it has not run over the end of the text.
      obtain ⟨⟨first, taken⟩, hTaken, h⟩ := exists_of_bind_eq_ok h
      obtain ⟨⟨more, length⟩, hBody, h⟩ := exists_of_bind_eq_ok h
      cases h
      obtain rfl := eq_of_beq hEscape
      obtain ⟨texts, values, tail, hPieces, hDrop, rfl, rfl⟩ := ih taken hBody
      have hPiece : Piece true quote ('\\' :: rest.take taken) first :=
        piece_of_escape hTaken (by simp [hDrop])
      have hLength : (rest.take taken).length = taken := by
        have hSome := congrArg List.length hDrop
        simp only [List.length_drop, List.length_append, List.length_cons] at hSome
        rw [List.length_take]
        omega
      refine ⟨('\\' :: rest.take taken) :: texts, first :: values, tail, .cons hPiece hPieces, ?_,
        rfl, ?_⟩
      · rw [List.flatten_cons, List.append_assoc, ← hDrop, List.cons_append,
          List.take_append_drop]
      · simp only [List.flatten_cons, List.length_append, List.length_cons, hLength]
        omega
  | case5 c rest hc hLine hEscape ih =>
      obtain ⟨⟨more, length⟩, hBody, h⟩ := exists_of_bind_eq_ok h
      cases h
      obtain ⟨texts, values, tail, hPieces, rfl, rfl, rfl⟩ := ih hBody
      have hPiece : Piece true quote [c] [c] := .plain (by simpa using hc) (by simp_all)
      refine ⟨[c] :: texts, [c] :: values, tail, .cons hPiece hPieces, rfl, rfl, ?_⟩
      simp only [List.flatten_cons, List.length_append, List.length_cons, List.length_nil]
      omega

theorem ne_of_mem_quotes {quote : Char} (h : quote ∈ quotes) : quote ≠ '\\' ∧ quote ≠ '\n' := by
  simp only [quotes, List.mem_cons, List.not_mem_nil, or_false] at h
  rcases h with rfl | rfl <;> decide

/-- The texts that are read, and what they are read as. -/
theorem read_eq_ok_iff {quote : Char} (hQuote : quote ∈ quotes) {cs : List Char} {value : String}
    {n : Nat} : read (quote :: cs) = .ok (value, n) ↔
      ∃ text rest, quote :: cs = text ++ rest ∧ text.length = n ∧
        IsLiteral true quote text value := by
  constructor
  · intro h
    obtain ⟨⟨chars, length⟩, hBody, hDone⟩ := exists_of_bind_eq_ok h
    cases hDone
    obtain ⟨texts, values, rest, hPieces, rfl, rfl, rfl⟩ := exists_pieces_of_body hBody
    refine ⟨quote :: (texts.flatten ++ [quote]), rest, by simp, ?_, texts, values, hPieces, rfl,
      rfl⟩
    simp only [List.length_cons, List.length_append, List.length_nil]
    omega
  · rintro ⟨_, rest, hText, rfl, texts, values, hPieces, rfl, rfl⟩
    obtain rfl : cs = texts.flatten ++ quote :: rest := by simpa using hText
    obtain ⟨hEscape, hLine⟩ := ne_of_mem_quotes hQuote
    rw [read, body_pieces hEscape hPieces (by simpa using hLine), body, if_pos (by simp)]
    simp only [Except.map, bind, Except.bind, pure, Except.pure, List.append_nil]
    congr 2
    simp only [List.length_cons, List.length_append, List.length_nil]
    omega

/-- The value of the literal that a text starts with, and the size of the literal in bytes. -/
def readSized (cs : List Char) : Except Flaw (String × Nat) :=
  (read cs).map fun r => (r.1, Text.size (cs.take r.2))

/-- The text starts with a literal of the given size in bytes. -/
def Opens (signed : Bool) (quote : Char) (cs : List Char) (value : String) (bytes : Nat) : Prop :=
  ∃ text rest, cs = text ++ rest ∧ Text.size text = bytes ∧ IsLiteral signed quote text value

/-- What the reader accepts is exactly a quotation at the start of the text. -/
theorem readSized_eq_ok_iff_opens {quote : Char} (hQuote : quote ∈ quotes) {cs : List Char}
    {value : String} {bytes : Nat} :
    readSized (quote :: cs) = .ok (value, bytes) ↔ Opens true quote (quote :: cs) value bytes := by
  constructor
  · intro h
    unfold readSized at h
    cases hRead : read (quote :: cs) with
    | error flaw =>
        rw [hRead] at h
        cases h
    | ok r =>
        obtain ⟨text, rest, hText, hLength, hLiteral⟩ := (read_eq_ok_iff hQuote).1 hRead
        rw [hRead] at h
        cases h
        refine ⟨text, rest, hText, ?_, hLiteral⟩
        rw [hText, ← hLength, List.take_left]
  · rintro ⟨text, rest, hText, rfl, hLiteral⟩
    have hRead := (read_eq_ok_iff hQuote).2 ⟨text, rest, hText, rfl, hLiteral⟩
    rw [readSized, hRead]
    simp only [Except.map, hText, List.take_left]

/-- What is a number without the sign is one where the sign is let through. -/
theorem Hex.lenient {ds : List Char} {code : Nat} (h : Hex false ds code) : Hex true ds code := by
  cases h with
  | digits hSome hDigits => exact .digits hSome hDigits
  | plus hSigned => cases hSigned

theorem Piece.lenient {quote : Char} {text value : List Char} (h : Piece false quote text value) :
    Piece true quote text value := by
  cases h with
  | plain hNot hPlain => exact .plain hNot hPlain
  | byte hHex hLength => exact .byte hHex.lenient hLength
  | unit hHex hLength => exact .unit hHex.lenient hLength
  | point hHex hLength => exact .point hHex.lenient hLength
  | lineEnd hEnd => exact .lineEnd hEnd
  | other hOther => exact .other hOther

/-- What is a literal without signs is one where they are let through. -/
theorem IsLiteral.lenient {quote : Char} {text : List Char} {value : String}
    (h : IsLiteral false quote text value) : IsLiteral true quote text value := by
  obtain ⟨texts, values, hPieces, hText, hValue⟩ := h
  exact ⟨texts, values, hPieces.imp fun _ _ h => h.lenient, hText, hValue⟩

/-- In no escape of the text a plus sign takes the place of a digit. -/
def Unsigned (cs : List Char) : Prop :=
  ∀ mark ∈ [['\\', 'x', '+'], ['\\', 'u', '+'], ['\\', 'u', '\x7b', '+']], ¬ mark <:+: cs

/-- A number that starts with no sign is one in the strict sense. -/
theorem Hex.strict {ds : List Char} {code : Nat} (h : Hex true ds code) (hHead : ¬ ['+'] <+: ds) :
    Hex false ds code := by
  cases h with
  | digits hSome hDigits => exact .digits hSome hDigits
  | plus => simp at hHead

/-- A piece of a text without signed escapes is one in the strict sense. -/
theorem Piece.strict {quote : Char} {text value cs : List Char} (h : Piece true quote text value)
    (hText : text <:+: cs) (hUnsigned : Unsigned cs) : Piece false quote text value := by
  have hMark : ∀ before ∈ [['\\', 'x'], ['\\', 'u'], ['\\', 'u', '\x7b']], ∀ ds after,
      text = before ++ (ds ++ after) → ¬ ['+'] <+: ds := by
    rintro before hBefore _ after rfl ⟨es, rfl⟩
    have hInfix : before ++ ['+'] <:+: cs := by
      refine List.IsInfix.trans ⟨[], es ++ after, ?_⟩ hText
      simp
    revert hInfix
    apply hUnsigned
    simp only [List.mem_cons, List.not_mem_nil, or_false] at hBefore
    rcases hBefore with rfl | rfl | rfl <;> simp
  cases h with
  | plain hNot hPlain => exact .plain hNot hPlain
  | @byte ds code hHex hLength =>
      exact .byte (hHex.strict (hMark ['\\', 'x'] (by simp) ds [] (by simp))) hLength
  | @unit ds code hHex hLength =>
      exact .unit (hHex.strict (hMark ['\\', 'u'] (by simp) ds [] (by simp))) hLength
  | @point ds code hHex hLength =>
      exact .point (hHex.strict (hMark ['\\', 'u', '\x7b'] (by simp) ds ['\x7d'] rfl)) hLength
  | lineEnd hEnd => exact .lineEnd hEnd
  | other hOther => exact .other hOther

/-- Where no escape is signed the two grammars agree. -/
theorem opens_iff_of_unsigned {quote : Char} {cs : List Char} (hUnsigned : Unsigned cs)
    {value : String} {bytes : Nat} :
    Opens true quote (quote :: cs) value bytes ↔ Opens false quote (quote :: cs) value bytes := by
  constructor
  · rintro ⟨text, rest, hText, hSize, texts, values, hPieces, rfl, hValue⟩
    refine ⟨_, rest, hText, hSize, texts, values, ?_, rfl, hValue⟩
    obtain rfl : cs = texts.flatten ++ quote :: rest := by simpa using hText
    rw [List.forall₂_iff_zip] at hPieces ⊢
    refine ⟨hPieces.1, fun {text value} hPair => (hPieces.2 hPair).strict ?_ hUnsigned⟩
    exact (List.infix_of_mem_flatten (List.of_mem_zip hPair).1).trans ⟨[], quote :: rest, rfl⟩
  · rintro ⟨text, rest, hText, hSize, hLiteral⟩
    exact ⟨text, rest, hText, hSize, hLiteral.lenient⟩

/-- An escape that is not one of the grammar cannot be read, whatever stands before it. -/
theorem exists_error_of_not_piece {quote : Char} (hQuote : quote ∈ quotes)
    {texts values : List (List Char)} (hPieces : List.Forall₂ (Piece true quote) texts values)
    {tail : List Char}
    (h : ∀ text value, Piece true quote text value → ¬ text <+: '\\' :: tail) :
    ∃ flaw, readSized (quote :: (texts.flatten ++ '\\' :: tail)) = .error flaw := by
  obtain ⟨hEscape, -⟩ := ne_of_mem_quotes hQuote
  have hBody : ∃ flaw, body quote ('\\' :: tail) = .error flaw := by
    cases hBody : body quote ('\\' :: tail) with
    | error flaw => exact ⟨flaw, rfl⟩
    | ok r =>
        exfalso
        obtain ⟨more, moreValues, rest, hMore, hTail, -⟩ := exists_pieces_of_body hBody
        cases hMore with
        | nil =>
            rw [List.flatten_nil, List.nil_append, List.cons.injEq] at hTail
            exact hEscape hTail.1.symm
        | @cons text value more _ hPiece =>
            apply h text value hPiece
            exact ⟨more.flatten ++ quote :: rest, by simp [hTail]⟩
  obtain ⟨flaw, hBody⟩ := hBody
  refine ⟨flaw, ?_⟩
  rw [readSized, read, body_pieces hEscape hPieces (by simp), hBody]
  rfl

/-- A text is read if it starts with a literal, and then as the values of the pieces together. Only
a plus sign that takes the place of a digit is accepted besides: where there is none, the literals
are those of the grammar. A backslash before `x` or `u` without digits after it is never read. -/
theorem reads_literals {quote : Char} (hQuote : quote ∈ quotes) (cs : List Char) :
    (∀ value bytes, readSized (quote :: cs) = .ok (value, bytes) ↔
      Opens true quote (quote :: cs) value bytes) ∧
    (Unsigned cs → ∀ value bytes, readSized (quote :: cs) = .ok (value, bytes) ↔
      Opens false quote (quote :: cs) value bytes) ∧
    ∀ texts values letter tail, List.Forall₂ (Piece true quote) texts values →
      letter ∈ ['x', 'u'] → cs = texts.flatten ++ '\\' :: letter :: tail →
      (∀ text value, Piece true quote text value → ¬ text <+: '\\' :: letter :: tail) →
      ∃ flaw, readSized (quote :: cs) = .error flaw := by
  refine ⟨fun value bytes => readSized_eq_ok_iff_opens hQuote, fun hUnsigned value bytes => ?_, ?_⟩
  · rw [readSized_eq_ok_iff_opens hQuote, opens_iff_of_unsigned hUnsigned]
  · rintro texts values letter tail hPieces - rfl hNone
    exact exists_error_of_not_piece hQuote hPieces hNone

/-- An astral code point, a line that goes on, a byte and the quote itself, with more text after the
literal. -/
theorem reads_literals_escapes :
    let cs := ['\\', 'u', '\x7b', '1', 'F', '6', '0', '0', '\x7d', '\\', '\r', '\n', '\\', 'x', '4',
      '1', '\\', '\x27', '\x27', ';']
    '\x27' ∈ quotes ∧ Unsigned cs ∧ Opens false '\x27' ('\x27' :: cs) "😀A'" 20 := by
  intro cs
  have hQuote : '\x27' ∈ quotes := by decide
  have hUnsigned : Unsigned cs := by
    unfold Unsigned
    decide +kernel
  have hRead : readSized ('\x27' :: cs) = .ok ("😀A'", 20) := by decide +kernel
  exact ⟨hQuote, hUnsigned, ((reads_literals hQuote cs).2.1 hUnsigned _ _).1 hRead⟩

/-- A byte with one digit and a plus sign is read, though no literal starts the text. -/
theorem reads_plus_sign :
    let cs := ['\x27', '\\', 'x', '+', '1', '\x27']
    readSized cs = .ok ("\x01", 6) ∧ ∀ value bytes, ¬ Opens false '\x27' cs value bytes := by
  refine ⟨by decide +kernel, ?_⟩
  rintro value bytes ⟨text, rest, hText, -, texts, values, hPieces, rfl, -⟩
  have hBody : texts.flatten ++ '\x27' :: rest = ['\\', 'x', '+', '1', '\x27'] := by
    simpa using hText.symm
  cases hPieces with
  | nil => simp at hBody
  | cons hPiece =>
      rw [List.flatten_cons, List.append_assoc] at hBody
      cases hPiece with
      | plain _ hPlain =>
          rw [List.singleton_append, List.cons.injEq] at hBody
          exact hPlain (by simp [hBody.1])
      | byte hHex =>
          cases hHex with
          | plus hSigned => cases hSigned
          | digits hSome hDigits =>
              obtain ⟨d, es, rfl⟩ := List.exists_cons_of_ne_nil hSome
              simp only [List.cons_append, List.cons.injEq] at hBody
              have hPlus := hDigits d (by simp)
              rw [hBody.2.2.1] at hPlus
              exact absurd hPlus (by decide)
      | unit => simp at hBody
      | point => simp at hBody
      | lineEnd hEnd =>
          simp only [List.mem_cons, List.not_mem_nil, or_false] at hEnd
          rcases hEnd with rfl | rfl | rfl <;> simp at hBody
      | other hOther =>
          simp only [List.cons_append, List.cons.injEq] at hBody
          exact hOther (by simp [hBody.2.1])

/-! Quoted texts. -/

/-- The digits of a number are read back as the number. -/
theorem hexNumber_toDigits (n : Nat) :
    AllHex (Nat.toDigits 16 n) ∧ hexNumber 0 (Nat.toDigits 16 n) = n := by
  have hDigit : ∀ d < 16, (Nat.digitChar d).toLower ∈ hexDigits ∧
      hexDigits.idxOf (Nat.digitChar d).toLower = d := by
    decide
  induction n using Nat.strongRecOn with
  | ind n ih =>
      by_cases hSmall : n < 16
      · rw [Nat.toDigits_of_lt_base hSmall]
        simpa [AllHex, hexNumber] using hDigit n hSmall
      · obtain ⟨hAll, hNumber⟩ := ih (n / 16) (by omega)
        obtain ⟨hLast, hIndex⟩ := hDigit (n % 16) (by omega)
        rw [Nat.toDigits_of_base_le (by decide) (by omega), hexNumber_append, hNumber]
        constructor
        · intro d hd
          rcases List.mem_append.1 hd with hFront | hBack
          · exact hAll d hFront
          · rw [List.mem_singleton.1 hBack]
            exact hLast
        · simp only [hexNumber, List.foldl_cons, List.foldl_nil, hIndex]
          omega

/-- A character is read back from its code. -/
theorem charOf_toNat (c : Char) : charOf c.toNat = c := by
  have hValid : c.toNat.isValidChar := c.valid
  rw [charOf, if_pos hValid, Char.ofNat_toNat]

/-- One character between quotes, if the given characters are written by number. -/
def escapedBy (byNumber : Char → Bool) (quote c : Char) : List Char :=
  match Text.escapeLetter? c with
  | some letter => ['\\', letter]
  | none =>
    if c == quote then ['\\', c]
    else if byNumber c then Text.numberedEscape c
    else [c]

/-- A text between quotes, if the given characters are written by number. -/
def quotedBy (byNumber : Char → Bool) (quote : Char) (cs : List Char) : List Char :=
  quote :: (cs.flatMap (escapedBy byNumber quote) ++ [quote])

theorem quoted_eq (quote : Char) (cs : List Char) : Text.quoted quote cs =
    quotedBy (fun c => Text.isCombining c || Text.isUnseen c) quote cs := rfl

/-- The code of a character has six digits at most. -/
theorem hex_toDigits (c : Char) :
    Hex false (Nat.toDigits 16 c.toNat) c.toNat ∧ (Nat.toDigits 16 c.toNat).length ≤ 6 := by
  obtain ⟨hAll, hNumber⟩ := hexNumber_toDigits c.toNat
  have hHex : Hex false (Nat.toDigits 16 c.toNat) (hexNumber 0 (Nat.toDigits 16 c.toNat)) :=
    .digits Nat.toDigits_ne_nil hAll
  rw [hNumber] at hHex
  have hBound : c.toNat < 0x110000 := by
    rcases c.valid with hLow | hHigh
    · exact hLow.trans (by decide)
    · exact hHigh.2
  exact ⟨hHex, (Nat.length_toDigits_le_iff (by decide) (by decide)).2 (hBound.trans (by decide))⟩

/-- A character is one piece of a quotation, written by number or not. -/
theorem piece_escapedBy (byNumber : Char → Bool) {quote : Char} (hQuote : quote ∈ quotes)
    (c : Char) : Piece false quote (escapedBy byNumber quote c) [c] := by
  unfold escapedBy
  cases hLetter : Text.escapeLetter? c with
  | some letter =>
      simp only [Text.escapeLetter?, beq_iff_eq] at hLetter
      split_ifs at hLetter with hNull hTab hReturn hLine hBackslash <;>
        (subst c; cases hLetter; exact .other (by decide))
  | none =>
      simp only [Text.escapeLetter?, beq_iff_eq] at hLetter
      split_ifs at hLetter with hNull hTab hReturn hLine hBackslash
      simp only
      split_ifs with hSame hNumber
      · obtain rfl := eq_of_beq hSame
        simp only [quotes, List.mem_cons, List.not_mem_nil, or_false] at hQuote
        rcases hQuote with rfl | rfl <;> exact .other (by decide)
      · obtain ⟨hHex, hLength⟩ := hex_toDigits c
        have hPoint : Piece false quote _ [charOf c.toNat] := .point hHex hLength
        rwa [charOf_toNat] at hPoint
      · apply Piece.plain
        · simpa using hSame
        · simp [hBackslash, hLine, hReturn]

/-- A quoted text is a literal for the text, whichever characters are written by number. -/
theorem isLiteral_quotedBy (byNumber : Char → Bool) {quote : Char} (hQuote : quote ∈ quotes)
    (cs : List Char) : IsLiteral false quote (quotedBy byNumber quote cs) (String.ofList cs) := by
  refine ⟨cs.map (escapedBy byNumber quote), cs.map fun c => [c], ?_, ?_, ?_⟩
  · rw [List.forall₂_map_left_iff, List.forall₂_map_right_iff, List.forall₂_same]
    exact fun c _ => piece_escapedBy byNumber hQuote c
  · rw [quotedBy, List.flatMap_def]
  · rw [← List.flatMap_def, List.flatMap_singleton']

/-- A string literal made from a text is read as that text, and to its end, before anything that may
follow. It does not matter which characters are written by number. -/
theorem reads_quoted_back (s : String) (rest : List Char) :
    readSized ((Literal.ofString s).raw.toList ++ rest) =
      .ok (s, (Literal.ofString s).raw.utf8ByteSize) ∧
    ∀ byNumber, readSized (quotedBy byNumber '\x22' s.toList ++ rest) =
      .ok (s, Text.size (quotedBy byNumber '\x22' s.toList)) := by
  have hAll : ∀ byNumber, readSized (quotedBy byNumber '\x22' s.toList ++ rest) =
      .ok (s, Text.size (quotedBy byNumber '\x22' s.toList)) := by
    intro byNumber
    have hQuote : '\x22' ∈ quotes := by decide
    have hLiteral := (isLiteral_quotedBy byNumber hQuote s.toList).lenient
    rw [String.ofList_toList] at hLiteral
    exact (readSized_eq_ok_iff_opens hQuote).2 ⟨_, rest, rfl, rfl, hLiteral⟩
  refine ⟨?_, hAll⟩
  have hRaw : (Literal.ofString s).raw.toList =
      quotedBy (fun c => Text.isCombining c || Text.isUnseen c) '\x22' s.toList := by
    simp [Literal.ofString, Text.quotedString, quoted_eq]
  rw [hRaw, hAll, ← hRaw, Text.size_eq_utf8ByteSize, String.ofList_toList]

end Quotation

end CodeShape
