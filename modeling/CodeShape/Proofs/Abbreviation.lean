import CodeShape.Proofs.Folding
import CodeShape.Proofs.Symmetry

/-!
Equivalence with every family of rules switched off. It is equality, but for the mark of an
abbreviated property: `{a}` and `{a: a}` are of one shape, so they are taken for each other even
then, while equality tells them apart.
-/
namespace CodeShape

/-- Every family is off. -/
def Rules.off : Rules := ⟨false, false, false, false, false⟩

namespace Label

/-- Whether a property is abbreviated. -/
def abbreviation? : Label → Option Bool
  | property _ _ shorthand _ => some shorthand
  | _ => none

/-- The label with the mark of an abbreviation, if it is that of a property. -/
def marked (mark : Option Bool) : Label → Label
  | property kind computed shorthand isMethod =>
    property kind computed (mark.getD shorthand) isMethod
  | label => label

/-- All that the shape leaves out is the mark. -/
theorem marked_unabbreviated (l : Label) : l.unabbreviated.marked l.abbreviation? = l := by
  cases l <;> rfl

/-- The shape tells whether there is a mark. -/
theorem isSome_abbreviation?_unabbreviated (l : Label) :
    l.unabbreviated.abbreviation?.isSome = l.abbreviation?.isSome := by
  cases l <;> rfl

/-- Equal labels have one shape and one mark. -/
theorem beq_iff_unabbreviated {l l' : Label} :
    l == l' ↔ l.unabbreviated == l'.unabbreviated ∧ l.abbreviation? = l'.abbreviation? := by
  constructor
  · intro h
    rcases Label.beq_iff.1 h with rfl | ⟨v, w, rfl, rfl, hValue⟩
    · exact ⟨BEq.refl _, rfl⟩
    · exact ⟨hValue, rfl⟩
  · rintro ⟨hShape, hMark⟩
    rw [← marked_unabbreviated l, ← marked_unabbreviated l', ← hMark]
    rcases Label.beq_iff.1 hShape with hSame | ⟨v, w, hv, hw, hValue⟩
    · rw [hSame]
      exact BEq.refl _
    · rw [hv, hw]
      exact hValue

/-- Labels of one shape are marked together. -/
theorem isSome_abbreviation?_eq {l l' : Label} (h : l.unabbreviated == l'.unabbreviated) :
    l.abbreviation?.isSome = l'.abbreviation?.isSome := by
  rw [← isSome_abbreviation?_unabbreviated l, ← isSome_abbreviation?_unabbreviated l',
    (beq_iff_unabbreviated.1 h).2]

end Label

theorem Field.outline_map {α β : Type} (f : α → β) (field : Field α) :
    (field.map f).outline = field.outline := by
  cases field with
  | one a => rfl
  | opt a? => cases a? <;> rfl
  | stmt a? => cases a? <;> rfl
  | seq pairing as => simp [map, outline]

namespace Node

/-- Which of the properties in a tree are abbreviated, in the order of the text. -/
def abbreviations (n : Node) : List Bool :=
  n.label.abbreviation?.toList ++ n.children.attach.flatMap fun ⟨c, h⟩ =>
    have := sizeOf_lt_of_mem_children h
    c.abbreviations
termination_by sizeOf n

/-- The marks of a tree in preorder. -/
theorem abbreviations_eq (n : Node) :
    n.abbreviations = n.label.abbreviation?.toList ++ n.children.flatMap abbreviations := by
  rw [abbreviations]
  congr 1
  rw [List.flatMap_def, List.flatMap_def]
  congr 1
  exact List.attach_map_val (l := n.children) (f := abbreviations)

/-- The node, if it is a property, without the mark of an abbreviation. -/
def unmarked : Node → Node
  | .property key value kind computed _ isMethod =>
    .property key value kind computed false isMethod
  | n => n

theorem label_unmarked (n : Node) : n.unmarked.label = n.label.unabbreviated := by
  cases n <;> rfl

theorem fields_unmarked (n : Node) : n.unmarked.fields = n.fields := by
  cases n <;> rfl

theorem children_unmarked (n : Node) : n.unmarked.children = n.children := by
  rw [children, fields_unmarked, children]

/-- The tree with no property abbreviated. -/
def spelledOut (n : Node) : Node :=
  n.unmarked.mapChildren fun c h =>
    have := sizeOf_lt_of_mem_children (n.children_unmarked ▸ h)
    c.spelledOut
termination_by sizeOf n

/-- Spelling out changes labels only by their marks. -/
theorem view_spelledOut (n : Node) :
    n.spelledOut.label = n.label.unabbreviated ∧
      n.spelledOut.fields = n.fields.map (Field.map spelledOut) := by
  have hSlots : List.Forall₂ Field.Alike n.unmarked.fields
      (n.fields.map (Field.map spelledOut)) := by
    rw [fields_unmarked, List.forall₂_map_right_iff, List.forall₂_same]
    intro field _
    simpa only [Field.map_id, id] using Field.alike_map_map id spelledOut field
  rw [spelledOut, mapChildren_eq, fields_unmarked, ← label_unmarked]
  exact view_build hSlots

theorem children_spelledOut (n : Node) : n.spelledOut.children = n.children.map spelledOut := by
  rw [children, children, n.view_spelledOut.2, List.flatMap_map, List.map_flatMap]
  congr 1
  funext field
  exact Field.toList_map spelledOut field

/-- Spelling out changes no slot. -/
theorem aligned_spelledOut {p c : Node} : p.spelledOut.aligned c.spelledOut ↔ p.aligned c := by
  have hOutlines : ∀ n : Node,
      n.spelledOut.fields.map Field.outline = n.fields.map Field.outline := by
    intro n
    rw [n.view_spelledOut.2, List.map_map]
    congr 1
    funext field
    exact Field.outline_map spelledOut field
  rw [aligned, aligned, Field.fitAll_iff, Field.fitAll_iff, hOutlines, hOutlines]

/-- Correspondences that agree on the elements may replace each other. -/
theorem forall₂_congr_mem {r s : Node → Node → Prop} {as bs : List Node}
    (h : ∀ a ∈ as, ∀ b, r a b ↔ s a b) : List.Forall₂ r as bs ↔ List.Forall₂ s as bs :=
  ⟨fun hAll => forall₂_imp_mem hAll fun a ha b _ => (h a ha b).1,
    fun hAll => forall₂_imp_mem hAll fun a ha b _ => (h a ha b).2⟩

theorem forall₂_and {r s : Node → Node → Prop} {as bs : List Node} :
    List.Forall₂ (fun a b => r a b ∧ s a b) as bs ↔ List.Forall₂ r as bs ∧ List.Forall₂ s as bs :=
  ⟨fun h => ⟨h.imp fun _ _ => And.left, h.imp fun _ _ => And.right⟩,
    fun h => h.1.mp (fun _ _ => And.intro) h.2⟩

/-- Without rules nothing is rewritten. -/
theorem alternatives_off (p c : Node) : alternatives .off p c = [] := by
  rw [alternatives.eq_def]
  split <;> simp [Rules.off, reassigned, updateAssigned]

/-- Without rules nodes are equal if they are so part by part. -/
theorem equalUnder_off_iff {p c : Node} :
    equalUnder .off p c ↔ p.sameShape c ∧ p.aligned c ∧
      List.Forall₂ (fun x y => equalUnder .off x y) p.children c.children := by
  rw [equalUnder_iff, alternatives_off, partwise_iff]
  simp

/-- Without any rule, trees are equivalent if they are equal once nothing is abbreviated. -/
theorem equalUnder_off_iff_spelledOut {p c : Node} :
    equalUnder .off p c ↔ p.spelledOut == c.spelledOut := by
  induction hSize : sizeOf p using Nat.strongRecOn generalizing p c with
  | ind size ih =>
      rw [equalUnder_off_iff, beq_iff, p.view_spelledOut.1, c.view_spelledOut.1,
        aligned_spelledOut, children_spelledOut, children_spelledOut,
        List.forall₂_map_left_iff, List.forall₂_map_right_iff]
      apply and_congr_right
      intro _
      apply and_congr_right
      intro _
      apply forall₂_congr_mem
      intro x hx y
      exact ih _ (hSize ▸ sizeOf_lt_of_mem_children hx) rfl

/-- Of two nodes of one shape both may be abbreviated or neither may. -/
theorem length_toList_abbreviation? {p c : Node} (h : p.sameShape c) :
    p.label.abbreviation?.toList.length = c.label.abbreviation?.toList.length := by
  rw [Option.length_toList, Option.length_toList, Label.isSome_abbreviation?_eq h]

/-- Equivalent trees have as many properties. -/
theorem length_abbreviations {p c : Node} (h : equalUnder .off p c) :
    p.abbreviations.length = c.abbreviations.length := by
  induction hSize : sizeOf p using Nat.strongRecOn generalizing p c with
  | ind size ih =>
      obtain ⟨hShape, -, hChildren⟩ := equalUnder_off_iff.1 h
      have hLengths : List.Forall₂ (fun x y => x.abbreviations.length = y.abbreviations.length)
          p.children c.children := by
        apply forall₂_imp_mem hChildren
        intro x hx y _ hEqual
        exact ih _ (hSize ▸ sizeOf_lt_of_mem_children hx) hEqual rfl
      have hBelow : p.children.map (fun n => n.abbreviations.length) =
          c.children.map fun n => n.abbreviations.length := by
        rwa [← List.forall₂_eq_eq_eq, List.forall₂_map_left_iff, List.forall₂_map_right_iff]
      rw [abbreviations_eq, abbreviations_eq, List.length_append, List.length_append,
        List.length_flatMap, List.length_flatMap, hBelow, length_toList_abbreviation? hShape]

/-- Lists of marks that are put together from parts of the same lengths are equal part by part. -/
theorem flatMap_abbreviations_eq_iff {ps cs : List Node}
    (h : List.Forall₂ (fun x y => x.abbreviations.length = y.abbreviations.length) ps cs) :
    ps.flatMap abbreviations = cs.flatMap abbreviations ↔
      List.Forall₂ (fun x y => x.abbreviations = y.abbreviations) ps cs := by
  induction h with
  | nil => simp
  | cons hLength _ ih =>
      rw [List.flatMap_cons, List.flatMap_cons, List.forall₂_cons, ← ih]
      exact ⟨fun h => List.append_inj h hLength, fun ⟨h, hRest⟩ => by rw [h, hRest]⟩

/-- The marks of a node and of all below it. -/
theorem abbreviations_eq_iff {p c : Node} (hShape : p.sameShape c)
    (hChildren : List.Forall₂ (fun x y => equalUnder .off x y) p.children c.children) :
    p.abbreviations = c.abbreviations ↔ p.label.abbreviation? = c.label.abbreviation? ∧
      List.Forall₂ (fun x y => x.abbreviations = y.abbreviations) p.children c.children := by
  -- The marks of trees that are equivalent are as many, so the lists come apart at the same places.
  rw [← flatMap_abbreviations_eq_iff (hChildren.imp fun _ _ h => length_abbreviations h),
    abbreviations_eq, abbreviations_eq]
  constructor
  · intro h
    obtain ⟨hMark, hBelow⟩ := List.append_inj h (length_toList_abbreviation? hShape)
    refine ⟨?_, hBelow⟩
    simpa only [Option.head?_toList] using congrArg List.head? hMark
  · rintro ⟨hMark, hBelow⟩
    rw [hMark, hBelow]

/-- Equal trees are those that are equivalent without any rule and abbreviate alike. -/
theorem beq_iff_equalUnder_off {p c : Node} :
    p == c ↔ equalUnder .off p c ∧ p.abbreviations = c.abbreviations := by
  induction hSize : sizeOf p using Nat.strongRecOn generalizing p c with
  | ind size ih =>
      have hBoth : List.Forall₂ (fun x y => x == y) p.children c.children ↔
          List.Forall₂ (fun x y => equalUnder .off x y) p.children c.children ∧
            List.Forall₂ (fun x y => x.abbreviations = y.abbreviations) p.children c.children := by
        rw [← forall₂_and]
        apply forall₂_congr_mem
        intro x hx y
        exact ih _ (hSize ▸ sizeOf_lt_of_mem_children hx) rfl
      rw [beq_iff, equalUnder_off_iff, Label.beq_iff_unabbreviated, hBoth]
      constructor
      · rintro ⟨⟨hShape, hMark⟩, hAligned, hChildren, hBelow⟩
        exact ⟨⟨hShape, hAligned, hChildren⟩,
          (abbreviations_eq_iff hShape hChildren).2 ⟨hMark, hBelow⟩⟩
      · rintro ⟨⟨hShape, hAligned, hChildren⟩, hMarks⟩
        obtain ⟨hMark, hBelow⟩ := (abbreviations_eq_iff hShape hChildren).1 hMarks
        exact ⟨⟨hShape, hMark⟩, hAligned, hChildren, hBelow⟩

/-- With every family off, trees are equivalent if they are equal once nothing in them is
abbreviated. That is less than equality by nothing but the marks of abbreviated properties. -/
theorem equivalent_off (p c : Node) :
    equivalent (some .off) p c = equivalent none p.spelledOut c.spelledOut ∧
      equivalent none p c =
        (equivalent (some .off) p c && decide (p.abbreviations = c.abbreviations)) := by
  constructor
  · rw [Bool.eq_iff_iff]
    exact equalUnder_off_iff_spelledOut
  · rw [Bool.eq_iff_iff, Bool.and_eq_true, decide_eq_true_eq]
    exact beq_iff_equalUnder_off

/-- `{a}` and `{a: a}` are equivalent with every family off, and not equal. -/
theorem equivalent_off_abbreviated :
    let literal (shorthand : Bool) : Node :=
      .object [.property (.ident "a") (.ident "a") .init false shorthand false]
    equivalent (some .off) (literal true) (literal false) = true ∧
      equivalent none (literal true) (literal false) = false := by
  decide +kernel

end Node

end CodeShape
