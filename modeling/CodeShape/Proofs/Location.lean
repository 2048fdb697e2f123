import CodeShape.Proofs.Lossless
import CodeShape.Text.Cluster
import Mathlib.Data.List.DropRight
import Mathlib.Data.Prod.Lex

/-!
Lines and columns against offsets. A lawful segmentation cuts a text into clusters without gaps, and
every cluster that is passed moves the place on. So places are in the order of the offsets, and two
offsets share one only inside of a cluster or past the end.
-/
namespace CodeShape.Text

theorem flatten_clustersFrom (current : List Char) (t : Tail) (cs : List Char) :
    (clustersFrom current t cs).flatten = current.reverse ++ cs := by
  induction cs generalizing current t with
  | nil => simp [clustersFrom]
  | cons c cs ih =>
      rw [clustersFrom]
      split
      · rw [ih, List.reverse_cons, List.append_assoc]
        rfl
      · rw [List.flatten_cons, ih]
        rfl

theorem ne_nil_of_mem_clustersFrom {current : List Char} (h : current ≠ []) (t : Tail)
    (cs : List Char) : ∀ cluster ∈ clustersFrom current t cs, cluster ≠ [] := by
  induction cs generalizing current t with
  | nil => simpa [clustersFrom] using h
  | cons c cs ih =>
      rw [clustersFrom]
      split
      · exact ih (List.cons_ne_nil _ _) _
      · rw [List.forall_mem_cons]
        exact ⟨by simpa using h, ih (List.cons_ne_nil _ _) _⟩

/-- Clusters are consecutive and none of them is empty, so they cut every text lawfully. -/
theorem graphemes_lawful : graphemes.Lawful where
  flatten_cut cs := by
    cases cs with
    | nil => rfl
    | cons c cs => exact flatten_clustersFrom _ _ cs
  ne_nil_of_mem_cut cs := by
    cases cs with
    | nil => exact nofun
    | cons c cs => exact ne_nil_of_mem_clustersFrom (List.cons_ne_nil _ _) _ cs

/-- Each piece with the offset at which it ends, if the first one starts at `start`. -/
def endings (start : Nat) : List (List Char) → List (List Char × Nat)
  | [] => []
  | piece :: rest => (piece, start + size piece) :: endings (start + size piece) rest

/-- The pieces that end at or before the offset. -/
def endedBy (offset : Nat) (pieces : List (List Char)) : List (List Char) :=
  ((endings 0 pieces).filter (·.2 ≤ offset)).map Prod.fst

theorem start_le_of_mem_endings {start : Nat} {pieces : List (List Char)}
    {ending : List Char × Nat} (h : ending ∈ endings start pieces) : start ≤ ending.2 := by
  induction pieces generalizing start with
  | nil => cases h
  | cons piece pieces ih =>
      rcases List.mem_cons.1 h with rfl | hLater
      · exact Nat.le_add_right _ _
      · have := ih hLater
        omega

/-- Starting later moves every end by as much. -/
theorem endings_add (start shift : Nat) (pieces : List (List Char)) :
    endings (start + shift) pieces =
      (endings start pieces).map fun ending => (ending.1, ending.2 + shift) := by
  induction pieces generalizing start with
  | nil => rfl
  | cons piece pieces ih =>
      have hNext : start + shift + size piece = start + size piece + shift := by omega
      rw [endings, endings, List.map_cons, hNext, ih]

/-- A piece that ends beyond the offset has not been passed. -/
theorem endedBy_cons_of_lt {offset : Nat} {piece : List Char} (h : offset < size piece)
    (pieces : List (List Char)) : endedBy offset (piece :: pieces) = [] := by
  have hNone : (endings 0 (piece :: pieces)).filter (·.2 ≤ offset) = [] := by
    apply List.filter_eq_nil_iff.2
    intro ending hEnding
    have hLate : size piece ≤ ending.2 := by
      rcases List.mem_cons.1 hEnding with rfl | hLater
      · exact Nat.le_add_left _ _
      · have := start_le_of_mem_endings hLater
        omega
    rw [decide_eq_true_iff]
    omega
  rw [endedBy, hNone]
  rfl

/-- A piece that ends by the offset has been passed. -/
theorem endedBy_cons_of_le {offset : Nat} {piece : List Char} (h : size piece ≤ offset)
    (pieces : List (List Char)) :
    endedBy offset (piece :: pieces) = piece :: endedBy (offset - size piece) pieces := by
  have hShift : ∀ stop,
      decide (stop + size piece ≤ offset) = decide (stop ≤ offset - size piece) := by
    intro stop
    rw [decide_eq_decide]
    omega
  rw [endedBy, endings, Nat.zero_add, List.filter_cons_of_pos (by simpa using h),
    ← Nat.zero_add (size piece), endings_add, List.filter_map, List.map_cons, List.map_map, endedBy]
  simp only [Nat.zero_add, Function.comp_def, hShift]

namespace Position

/-- Lines are compared first, then columns. -/
instance : LinearOrder Position :=
  LinearOrder.lift' (fun p => toLex (p.line, p.column)) fun p q h => by
    cases p
    cases q
    cases h
    rfl

/-- Every piece moves the position on. -/
theorem lt_after (p : Position) (cluster : List Char) : p < p.after cluster := by
  show toLex (p.line, p.column) < toLex ((p.after cluster).line, (p.after cluster).column)
  rw [Prod.Lex.toLex_lt_toLex, after]
  split
  · exact .inl (Nat.lt_succ_self _)
  · exact .inr ⟨rfl, Nat.lt_succ_self _⟩

theorem advance_of_lt {offset : Nat} {cluster : List Char} (h : offset < size cluster)
    (p : Position) (rest : List (List Char)) : p.advance offset (cluster :: rest) = p := by
  rw [advance, if_pos h]

theorem advance_of_le {offset : Nat} {cluster : List Char} (h : size cluster ≤ offset)
    (p : Position) (rest : List (List Char)) :
    p.advance offset (cluster :: rest) =
      (p.after cluster).advance (offset - size cluster) rest := by
  rw [advance, if_neg (by omega)]

/-- The place moves on over the clusters that have ended, one after the other. -/
theorem advance_eq_foldl (p : Position) (offset : Nat) (pieces : List (List Char)) :
    p.advance offset pieces = (endedBy offset pieces).foldl after p := by
  induction pieces generalizing p offset with
  | nil => rfl
  | cons piece pieces ih =>
      by_cases h : offset < size piece
      · rw [advance_of_lt h, endedBy_cons_of_lt h, List.foldl_nil]
      · rw [advance_of_le (by omega), endedBy_cons_of_le (by omega), List.foldl_cons, ih]

/-- After some clusters, the line counts those that end one, the column those behind the last of
them. -/
theorem foldl_after (clusters : List (List Char)) :
    clusters.foldl after ⟨1, 1⟩ =
      ⟨1 + clusters.countP endsLine, 1 + (clusters.rtakeWhile (!endsLine ·)).length⟩ := by
  induction clusters using List.reverseRecOn with
  | nil => rfl
  | append_singleton clusters cluster ih =>
      rw [List.foldl_append, ih, List.foldl_cons, List.foldl_nil, after, List.countP_append]
      by_cases h : endsLine cluster = true
      · rw [List.rtakeWhile_concat_neg _ _ _ (by simp [h])]
        simp [h, Nat.add_assoc]
      · rw [List.rtakeWhile_concat_pos _ _ _ (by simp [h])]
        simp [h, Nat.add_assoc]

/-- Going on never moves the position back. -/
theorem le_advance (p : Position) (offset : Nat) (pieces : List (List Char)) :
    p ≤ p.advance offset pieces := by
  induction pieces generalizing p offset with
  | nil => exact le_refl p
  | cons piece pieces ih =>
      by_cases h : offset < size piece
      · rw [advance_of_lt h]
      · rw [advance_of_le (by omega)]
        exact (p.lt_after piece).le.trans (ih _ _)

/-- A place is left behind as soon as a cluster is passed. -/
theorem lt_advance {offset : Nat} {piece : List Char} (h : size piece ≤ offset) (p : Position)
    (pieces : List (List Char)) : p < p.advance offset (piece :: pieces) := by
  rw [advance_of_le h]
  exact (p.lt_after piece).trans_le (le_advance _ _ _)

/-- A later offset has a later position. -/
theorem advance_le_advance {o₁ o₂ : Nat} (h : o₁ ≤ o₂) (p : Position)
    (pieces : List (List Char)) : p.advance o₁ pieces ≤ p.advance o₂ pieces := by
  induction pieces generalizing p o₁ o₂ with
  | nil => exact le_refl p
  | cons piece pieces ih =>
      by_cases h₁ : o₁ < size piece
      · rw [advance_of_lt h₁]
        exact le_advance _ _ _
      · rw [advance_of_le (by omega), advance_of_le (by omega)]
        apply ih
        omega

end Position

/-- The offset falls in the piece that comes after the given ones. -/
def FallsIn (before : List (List Char)) (piece : List Char) (offset : Nat) : Prop :=
  size before.flatten ≤ offset ∧ offset < size before.flatten + size piece

instance (before : List (List Char)) (piece : List Char) (offset : Nat) :
    Decidable (FallsIn before piece offset) :=
  inferInstanceAs (Decidable (_ ∧ _))

/-- One of the pieces holds both offsets. -/
def ShareOne (pieces : List (List Char)) (o₁ o₂ : Nat) : Prop :=
  ∃ before piece after, pieces = before ++ piece :: after ∧
    FallsIn before piece o₁ ∧ FallsIn before piece o₂

theorem not_shareOne_nil (o₁ o₂ : Nat) : ¬ ShareOne [] o₁ o₂ := by
  rintro ⟨before, piece, after, hPieces, -⟩
  simp at hPieces

/-- Two offsets share a piece if they both lie in the first or share one after it. -/
theorem shareOne_cons {piece : List Char} {pieces : List (List Char)} {o₁ o₂ : Nat} :
    ShareOne (piece :: pieces) o₁ o₂ ↔
      (o₁ < size piece ∧ o₂ < size piece) ∨
        (size piece ≤ o₁ ∧ size piece ≤ o₂ ∧
          ShareOne pieces (o₁ - size piece) (o₂ - size piece)) := by
  constructor
  · rintro ⟨before, found, after, hPieces, h₁, h₂⟩
    cases before with
    | nil =>
        obtain ⟨rfl, -⟩ := List.cons.inj hPieces
        simp only [FallsIn, List.flatten_nil, size] at h₁ h₂
        omega
    | cons first before =>
        obtain ⟨rfl, rfl⟩ := List.cons.inj hPieces
        simp only [FallsIn, List.flatten_cons, size_append] at h₁ h₂
        refine .inr ⟨by omega, by omega, before, found, after, rfl, ?_, ?_⟩
        · constructor <;> omega
        · constructor <;> omega
  · rintro (⟨h₁, h₂⟩ | ⟨h₁, h₂, before, found, after, rfl, hFirst, hSecond⟩)
    · refine ⟨[], piece, pieces, rfl, ?_, ?_⟩
      · constructor <;> simp [size, h₁]
      · constructor <;> simp [size, h₂]
    · refine ⟨piece :: before, found, after, rfl, ?_, ?_⟩
      · obtain ⟨hLower, hUpper⟩ := hFirst
        constructor <;> rw [List.flatten_cons, size_append] <;> omega
      · obtain ⟨hLower, hUpper⟩ := hSecond
        constructor <;> rw [List.flatten_cons, size_append] <;> omega

namespace Position

/-- Two offsets are at one place if one piece holds both, or if none does. -/
theorem advance_eq_advance_iff {o₁ o₂ : Nat} (h : o₁ ≤ o₂) (p : Position)
    (pieces : List (List Char)) :
    p.advance o₁ pieces = p.advance o₂ pieces ↔
      ShareOne pieces o₁ o₂ ∨ (size pieces.flatten ≤ o₁ ∧ size pieces.flatten ≤ o₂) := by
  induction pieces generalizing p o₁ o₂ with
  | nil => simp [advance, size, not_shareOne_nil]
  | cons piece pieces ih =>
      rw [shareOne_cons, List.flatten_cons, size_append]
      by_cases h₁ : o₁ < size piece
      · rw [advance_of_lt h₁]
        by_cases h₂ : o₂ < size piece
        · rw [advance_of_lt h₂]
          simp [h₁, h₂]
        · -- the piece has ended between the two
          have hLater := (lt_advance (by omega : size piece ≤ o₂) p pieces).ne
          constructor
          · exact fun hSame => absurd hSame hLater
          · omega
      · rw [advance_of_le (by omega), advance_of_le (by omega), ih (by omega)]
        have hBoth : size piece ≤ o₁ ∧ size piece ≤ o₂ := by omega
        constructor
        · rintro (hShare | hEnd)
          · exact .inl (.inr ⟨hBoth.1, hBoth.2, hShare⟩)
          · exact .inr (by omega)
        · rintro ((hFirst | ⟨-, -, hShare⟩) | hEnd)
          · omega
          · exact .inl hShare
          · exact .inr (by omega)

/-- Places follow the offsets, whatever lawful segmentation says what a cluster is: they are in the
same order, and two offsets share a place exactly if they fall in one cluster or are both past the
end of the text. The line counts the line ends that have ended by the offset, the column the
clusters that have ended after the last of those. -/
theorem ofOffset_orders_offsets [segmentation : Segmentation] (hLawful : segmentation.Lawful)
    (text : String) {o₁ o₂ : Nat} (h : o₁ ≤ o₂) :
    ofOffset text o₁ ≤ ofOffset text o₂ ∧
      (ofOffset text o₁ = ofOffset text o₂ ↔
        ShareOne (segmentation.cut text.toList) o₁ o₂ ∨
          (size text.toList ≤ o₁ ∧ size text.toList ≤ o₂)) ∧
      ∀ offset,
        (ofOffset text offset).line =
            1 + (endedBy offset (segmentation.cut text.toList)).countP endsLine ∧
          (ofOffset text offset).column =
            1 + ((endedBy offset (segmentation.cut text.toList)).rtakeWhile (!endsLine ·)).length := by
  refine ⟨advance_le_advance h _ _, ?_, fun offset => ?_⟩
  · have hSame := advance_eq_advance_iff h ⟨1, 1⟩ (segmentation.cut text.toList)
    rwa [hLawful.flatten_cut] at hSame
  · rw [ofOffset, advance_eq_foldl, foldl_after]
    exact ⟨rfl, rfl⟩

/-- A line ends in one cluster of two characters: both of its bytes are at one place, and what
follows is on the next line. -/
theorem ofOffset_orders_offsets_lineEnd :
    ofOffset "a\r\né" 1 = ofOffset "a\r\né" 2 ∧ ofOffset "a\r\né" 2 ≠ ofOffset "a\r\né" 3 ∧
      (ofOffset "a\r\né" 3).line = 2 := by
  have hCut : graphemes.cut "a\r\né".toList = [['a'], ['\r', '\n'], ['é']] := by decide +kernel
  obtain ⟨-, hSame, hCounts⟩ :=
    ofOffset_orders_offsets graphemes_lawful "a\r\né" (by decide : 1 ≤ 2)
  obtain ⟨-, hOther, -⟩ := ofOffset_orders_offsets graphemes_lawful "a\r\né" (by decide : 2 ≤ 3)
  rw [hCut] at hSame hOther hCounts
  refine ⟨hSame.2 (.inl ?_), fun hEqual => ?_, ?_⟩
  · exact ⟨[['a']], ['\r', '\n'], [['é']], rfl, by decide, by decide⟩
  · rcases hOther.1 hEqual with hShare | ⟨hEnd, -⟩
    · simp only [shareOne_cons, not_shareOne_nil, and_false, or_false] at hShare
      revert hShare
      decide
    · revert hEnd
      decide
  · rw [(hCounts 3).1]
    decide

end Position

end CodeShape.Text
