import CodeShape.Proofs.Equivalence
import CodeShape.Proofs.Wildcards
import Mathlib.Data.List.Forall2

/-! Equality of trees is an equivalence relation, though equal trees may be written differently:
literals are compared by value, and numbers by rank. -/
namespace CodeShape

/-- Equal values are the same, or numbers of one rank. -/
theorem LiteralValue.beq_iff {v w : LiteralValue} :
    v == w ↔ v = w ∨ ∃ x y, v = .number x ∧ w = .number y ∧ x.rank = y.rank := by
  constructor
  · intro h
    cases v with
    | number x =>
        cases w with
        | number y =>
            have hRank : (x.rank == y.rank) = true := h
            exact .inr ⟨x, y, rfl, rfl, eq_of_beq hRank⟩
        | _ => cases h
    | string s =>
        cases w with
        | string t =>
            have hText : (s == t) = true := h
            exact .inl (congrArg _ (eq_of_beq hText))
        | _ => cases h
    | bool s =>
        cases w with
        | bool t =>
            have hBool : (s == t) = true := h
            exact .inl (congrArg _ (eq_of_beq hBool))
        | _ => cases h
    | null =>
        cases w with
        | null => exact .inl rfl
        | _ => cases h
  · rintro (rfl | ⟨x, y, rfl, rfl, hRank⟩)
    · exact BEq.refl v
    · change (x.rank == y.rank) = true
      exact beq_iff_eq.2 hRank

/-- Equal labels are the same, or literals of equal values. -/
theorem Label.beq_iff {l l' : Label} :
    l == l' ↔ l = l' ∨ ∃ v w, l = .literal v ∧ l' = .literal w ∧ v == w := by
  constructor
  · intro h
    change instBEqLabel.beq l l' = true at h
    rw [instBEqLabel.beq] at h
    split at h
    · split at h
      case literal => exact .inr ⟨_, _, rfl, rfl, h⟩
      all_goals simp_all
    · cases h
  · rintro (rfl | ⟨v, w, rfl, rfl, h⟩)
    · exact BEq.refl l
    · exact h

instance : PartialEquivBEq LiteralValue where
  symm h := by
    rw [LiteralValue.beq_iff] at h ⊢
    rcases h with rfl | ⟨x, y, rfl, rfl, hRank⟩
    · exact .inl rfl
    · exact .inr ⟨y, x, rfl, rfl, hRank.symm⟩
  trans h h' := by
    rw [LiteralValue.beq_iff] at h h' ⊢
    rcases h with rfl | ⟨x, y, rfl, rfl, hRank⟩
    · exact h'
    · rcases h' with rfl | ⟨_, z, hy, rfl, hRank'⟩
      · exact .inr ⟨x, y, rfl, rfl, hRank⟩
      · cases hy
        exact .inr ⟨x, z, rfl, rfl, hRank.trans hRank'⟩

instance : PartialEquivBEq Literal where
  symm {v w} h := BEq.symm (a := v.value) (b := w.value) h
  trans {u v w} h h' := BEq.trans (a := u.value) (b := v.value) (c := w.value) h h'

instance : PartialEquivBEq Label where
  symm h := by
    rw [Label.beq_iff] at h ⊢
    rcases h with rfl | ⟨v, w, rfl, rfl, h⟩
    · exact .inl rfl
    · exact .inr ⟨w, v, rfl, rfl, BEq.symm h⟩
  trans h h' := by
    rw [Label.beq_iff] at h h' ⊢
    rcases h with rfl | ⟨v, w, rfl, rfl, h⟩
    · exact h'
    · rcases h' with rfl | ⟨_, u, hw, rfl, h'⟩
      · exact .inr ⟨v, w, rfl, rfl, h⟩
      · cases hw
        exact .inr ⟨v, u, rfl, rfl, BEq.trans h h'⟩

namespace Field

variable {α β : Type}

/-- The form of a slot and the number of children in it. -/
def outline : Field α → Nat × Nat
  | one _ => (0, 1)
  | opt a => (1, a.toList.length)
  | stmt a => (2, a.toList.length)
  | seq _ as => (3, as.length)

theorem snd_outline (f : Field α) : f.outline.2 = f.toList.length := by
  cases f with
  | opt a? | stmt a? => cases a? <;> rfl
  | _ => rfl

/-- Slots fit if their outlines agree. -/
theorem fits_iff {f : Field α} {g : Field β} : f.fits g ↔ f.outline = g.outline := by
  cases f with
  | one a => cases g <;> simp [fits, outline]
  | opt a? => cases g <;> simp [fits, outline]; cases a? <;> grind
  | stmt a? => cases g <;> simp [fits, outline]; cases a? <;> grind
  | seq pairing as => cases g <;> simp [fits, outline]

/-- Rows of slots fit if all their outlines agree. -/
theorem fitAll_iff {fs : List (Field α)} {gs : List (Field β)} :
    fitAll fs gs ↔ fs.map outline = gs.map outline := by
  induction fs generalizing gs with
  | nil => cases gs <;> simp [fitAll]
  | cons f fs ih =>
      cases gs with
      | nil => simp [fitAll]
      | cons g gs => simp [fitAll, fits_iff, ih]

end Field

namespace Node

/-- Alignment is symmetric. -/
theorem aligned_symm {a b : Node} (h : a.aligned b) : b.aligned a :=
  Field.fitAll_iff.2 (Field.fitAll_iff.1 h).symm

/-- Alignment is transitive. -/
theorem aligned_trans {a b c : Node} (h : a.aligned b) (h' : b.aligned c) : a.aligned c :=
  Field.fitAll_iff.2 ((Field.fitAll_iff.1 h).trans (Field.fitAll_iff.1 h'))

theorem sameShape_symm {a b : Node} (h : a.sameShape b) : b.sameShape a := BEq.symm h

/-- Children of aligned nodes are compared one by one. -/
theorem all_zip_iff {a b : Node} (h : a.aligned b) {r : Node → Node → Bool} :
    ((a.children.zip b.children).all fun pair => r pair.1 pair.2) ↔
      List.Forall₂ (fun x y => r x y) a.children b.children := by
  rw [List.forall₂_iff_zip, List.all_eq_true]
  exact ⟨fun hAll => ⟨length_children_of_aligned h, fun hPair => hAll _ hPair⟩,
    fun hAll pair hPair => hAll.2 hPair⟩

/-- Nodes are equal if their labels are, their slots fit and their children are equal in order. -/
theorem beq_iff {a b : Node} :
    a == b ↔ a.label == b.label ∧ a.aligned b ∧
      List.Forall₂ (fun x y => x == y) a.children b.children := by
  rw [beq_eq, Bool.and_eq_true_iff, Bool.and_eq_true_iff, and_assoc]
  exact and_congr_right fun _ => and_congr_right fun hAligned => all_zip_iff hAligned

/-- A correspondence may be replaced by one that holds of the elements. -/
theorem forall₂_imp_mem {r s : Node → Node → Prop} {as bs : List Node} (h : List.Forall₂ r as bs)
    (hImp : ∀ a ∈ as, ∀ b ∈ bs, r a b → s a b) : List.Forall₂ s as bs := by
  rw [List.forall₂_iff_zip] at h ⊢
  refine ⟨h.1, fun {a b} hPair => ?_⟩
  obtain ⟨ha, hb⟩ := List.of_mem_zip hPair
  exact hImp a ha b hb (h.2 hPair)

/-- A correspondence may be turned round if it is symmetric on the elements. -/
theorem forall₂_flip_mem {r s : Node → Node → Prop} {as bs : List Node} (h : List.Forall₂ r as bs)
    (hImp : ∀ a ∈ as, ∀ b ∈ bs, r a b → s b a) : List.Forall₂ s bs as :=
  List.Forall₂.flip (forall₂_imp_mem h hImp)

instance : EquivBEq Node where
  symm {a b} h := by
    induction hSize : sizeOf a using Nat.strongRecOn generalizing a b with
    | ind size ih =>
        rw [beq_iff] at h ⊢
        obtain ⟨hLabel, hAligned, hChildren⟩ := h
        refine ⟨BEq.symm hLabel, aligned_symm hAligned, forall₂_flip_mem hChildren ?_⟩
        intro x hx y _ hEqual
        exact ih _ (hSize ▸ sizeOf_lt_of_mem_children hx) hEqual rfl
  trans {a b c} h h' := by
    induction hSize : sizeOf a using Nat.strongRecOn generalizing a b c with
    | ind size ih =>
        rw [beq_iff] at h h' ⊢
        obtain ⟨hLabel, hAligned, hChildren⟩ := h
        obtain ⟨hLabel', hAligned', hChildren'⟩ := h'
        refine ⟨BEq.trans hLabel hLabel', aligned_trans hAligned hAligned', ?_⟩
        rw [List.forall₂_iff_get] at hChildren hChildren' ⊢
        refine ⟨hChildren.1.trans hChildren'.1, fun i hx hz => ?_⟩
        have hy : i < b.children.length := hChildren.1 ▸ hx
        exact ih _ (hSize ▸ sizeOf_lt_of_mem_children (List.get_mem ..)) (hChildren.2 i hx hy)
          (hChildren'.2 i hy hz) rfl

end Node

end CodeShape
