import CodeShape.Node.Walk
import Mathlib.Data.List.Basic

/-! Places in a tree. A path leads to at most one node, so sites below one top are the same as soon
as their paths are, and sites on paths of which neither extends the other have nothing in common. -/
namespace CodeShape

namespace Field

variable {α β : Type}

theorem toList_number (start : Nat) (field : Field α) :
    (field.number start).toList = (field.toList.zipIdx start).map fun (c, i) => (i, c) := by
  cases field with
  | one child => rfl
  | opt child => cases child <;> rfl
  | stmt child => cases child <;> rfl
  | seq pairing children => rfl

/-- The children of all slots are numbered in one sequence. -/
theorem flatMap_toList_numberAll (start : Nat) (fields : List (Field α)) :
    (numberAll start fields).flatMap toList =
      ((fields.flatMap toList).zipIdx start).map fun (c, i) => (i, c) := by
  induction fields generalizing start with
  | nil => rfl
  | cons field rest ih =>
      simp [numberAll, toList_number, ih, List.zipIdx_append]

end Field

namespace Node

/-- A node is higher by one than its highest child. -/
theorem height_eq (n : Node) : n.height = (n.children.map height).foldl max 0 + 1 := by
  rw [height]
  congr 2
  exact List.attach_map_val (l := n.children) (f := height)

theorem le_foldl_max {x start : Nat} {items : List Nat} (h : x ∈ items ∨ x ≤ start) :
    x ≤ items.foldl max start := by
  induction items generalizing start with
  | nil => simpa using h
  | cons y items ih =>
      apply ih
      rcases h with hMem | hStart
      · rcases List.mem_cons.1 hMem with rfl | hTail
        · exact .inr (Nat.le_max_right _ _)
        · exact .inl hTail
      · exact .inr (Nat.le_trans hStart (Nat.le_max_left _ _))

/-- Children are lower than their node. Recursions over trees end by this. -/
theorem height_lt_of_mem_children {n c : Node} (h : c ∈ n.children) : c.height < n.height := by
  rw [height_eq n]
  exact Nat.lt_succ_of_le (le_foldl_max (.inl (List.mem_map_of_mem h)))

theorem height_pos (n : Node) : 0 < n.height := by
  rw [height_eq]
  exact Nat.succ_pos _

/-- A path leads where its two parts lead one after the other. -/
theorem at?_append (n : Node) (p q : List Nat) :
    n.at? (p ++ q) = (n.at? p).bind (·.at? q) := by
  induction p generalizing n with
  | nil => rfl
  | cons i p ih =>
      simp only [List.cons_append, at?]
      cases n.children[i]? with
      | none => rfl
      | some c => exact ih c

end Node

namespace Site

/-- The children of a site, each with its number at the end of its path. -/
theorem children_eq (s : Site) :
    s.children = s.node.children.zipIdx.map fun (c, i) => s.below (i, c) := by
  have h : ∀ fields : List (Field (Nat × Node)),
      (fields.map (Field.map s.below)).flatMap Field.toList =
        (fields.flatMap Field.toList).map s.below := by
    intro fields
    induction fields with
    | nil => rfl
    | cons field rest ih => simp [ih]
  rw [children, fields, h, Field.flatMap_toList_numberAll, List.map_map]
  rfl

/-- The children of a site are the children of its node, at its path and their numbers. -/
theorem mem_children_iff {s c : Site} :
    c ∈ s.children ↔ ∃ i, s.node.children[i]? = some c.node ∧ c.path = s.path ++ [i] := by
  rw [children_eq, List.mem_map]
  constructor
  · rintro ⟨⟨n, i⟩, hMem, rfl⟩
    exact ⟨i, List.mem_zipIdx_iff_getElem?.1 hMem, rfl⟩
  · rintro ⟨i, hNode, hPath⟩
    refine ⟨(c.node, i), List.mem_zipIdx_iff_getElem?.2 hNode, ?_⟩
    cases c
    simp_all [below]

/-- The sites of a tree in preorder. -/
theorem descendants_eq (s : Site) : s.descendants = s :: s.children.flatMap descendants := by
  rw [descendants]
  congr 1
  rw [List.flatMap_def, List.flatMap_def]
  congr 1
  exact List.attach_map_val (l := s.children) (f := descendants)

theorem mem_descendants_self (s : Site) : s ∈ s.descendants := by
  rw [descendants_eq]
  exact List.mem_cons_self

theorem mem_descendants_of_child {s c d : Site} (hChild : c ∈ s.children)
    (h : d ∈ c.descendants) : d ∈ s.descendants := by
  rw [descendants_eq]
  exact List.mem_cons_of_mem _ (List.mem_flatMap.2 ⟨c, hChild, h⟩)

/-- The sites at and below a site are those that a path leads to from it. -/
theorem mem_descendants_iff {s d : Site} :
    d ∈ s.descendants ↔ ∃ q, d.path = s.path ++ q ∧ s.node.at? q = some d.node := by
  constructor
  · intro h
    fun_induction descendants s generalizing d with
    | case1 s ih =>
        rcases List.mem_cons.1 h with rfl | hBelow
        · exact ⟨[], by simp [Node.at?]⟩
        · obtain ⟨⟨c, hChild⟩, -, hMem⟩ := List.mem_flatMap.1 hBelow
          obtain ⟨q, hPath, hNode⟩ := ih c hChild hMem
          obtain ⟨i, hAt, hStep⟩ := mem_children_iff.1 hChild
          exact ⟨i :: q, by simp [hPath, hStep], by simp [Node.at?, hAt, hNode]⟩
  · rintro ⟨q, hPath, hNode⟩
    induction q generalizing s with
    | nil =>
        have : d = s := by
          cases d; cases s; simp_all [Node.at?]
        exact this ▸ mem_descendants_self s
    | cons i q ih =>
        obtain ⟨n, hChild, hRest⟩ := Option.bind_eq_some_iff.1 hNode
        have hMem : s.below (i, n) ∈ s.children := mem_children_iff.2 ⟨i, hChild, rfl⟩
        exact mem_descendants_of_child hMem (ih (by simp [hPath, below]) hRest)

/-- What lies below a site below another lies below that. -/
theorem mem_descendants_trans {s c d : Site} (hUpper : c ∈ s.descendants)
    (hLower : d ∈ c.descendants) : d ∈ s.descendants := by
  obtain ⟨p, hp, hpNode⟩ := mem_descendants_iff.1 hUpper
  obtain ⟨q, hq, hqNode⟩ := mem_descendants_iff.1 hLower
  refine mem_descendants_iff.2 ⟨p ++ q, by simp [hp, hq], ?_⟩
  rw [Node.at?_append, hpNode]
  exact hqNode

theorem mem_descendants_child {s c : Site} (h : c ∈ s.children) : c ∈ s.descendants :=
  mem_descendants_of_child h (mem_descendants_self c)

/-- Below one top, the path tells which site it is. -/
theorem eq_of_path_eq {top s t : Site} (hs : s ∈ top.descendants) (ht : t ∈ top.descendants)
    (h : s.path = t.path) : s = t := by
  obtain ⟨p, hp, hpNode⟩ := mem_descendants_iff.1 hs
  obtain ⟨q, hq, hqNode⟩ := mem_descendants_iff.1 ht
  have hpq : p = q := List.append_cancel_left (hp.symm.trans (h.trans hq))
  subst hpq
  have hNode : s.node = t.node := Option.some.inj (hpNode.symm.trans hqNode)
  cases s; cases t; simp_all

theorem height_lt_of_mem_children {s c : Site} (h : c ∈ s.children) :
    c.node.height < s.node.height :=
  Node.height_lt_of_mem_children (s.map_node_children ▸ List.mem_map_of_mem h)

/-- No site of a tree is higher than its root. -/
theorem height_le_of_mem_descendants {s d : Site} (h : d ∈ s.descendants) :
    d.node.height ≤ s.node.height := by
  fun_induction descendants s generalizing d with
  | case1 s ih =>
      rcases List.mem_cons.1 h with rfl | hBelow
      · exact Nat.le_refl _
      · obtain ⟨⟨c, hChild⟩, -, hMem⟩ := List.mem_flatMap.1 hBelow
        have hLower := height_lt_of_mem_children hChild
        have hBelow := ih c hChild hMem
        omega

theorem mem_children_of_field {s c : Site} {field : Field Site} (hField : field ∈ s.fields)
    (h : c ∈ field.toList) : c ∈ s.children :=
  List.mem_flatMap.2 ⟨field, hField, h⟩

/-- The body of a program or block is its only slot. -/
theorem fields_of_body {s : Site} {body : List Node}
    (h : s.node = .program body ∨ s.node = .block body) :
    s.fields = [.seq .statements s.children] := by
  have hFields : s.node.fields = [.seq .statements body] := by
    rcases h with h | h <;> rw [h] <;> rfl
  simp [children, fields, hFields, Field.numberAll, Field.number, Field.map, Field.toList]

/-- Where a nested statement list is found: it is a whole list of statements, or one statement that
stands by itself. -/
theorem mem_nestedLists {s : Site} {list : List Site} (h : list ∈ s.nestedLists) :
    ∃ d ∈ s.descendants, .seq .statements list ∈ d.fields ∨
      ∃ c, .stmt (some c) ∈ d.fields ∧ list = [c] := by
  -- what is found below a child is found below the site
  have lift : ∀ {s c : Site}, c ∈ s.children →
      (∃ d ∈ c.descendants, .seq .statements list ∈ d.fields ∨
        ∃ c, .stmt (some c) ∈ d.fields ∧ list = [c]) →
      ∃ d ∈ s.descendants, .seq .statements list ∈ d.fields ∨
        ∃ c, .stmt (some c) ∈ d.fields ∧ list = [c] := by
    rintro s c hChild ⟨d, hd, hList⟩
    exact ⟨d, mem_descendants_of_child hChild hd, hList⟩
  fun_induction nestedLists s with
  | case1 s body hNode =>
      rw [List.mem_singleton.1 h]
      exact ⟨s, mem_descendants_self s, .inl (by simp [fields_of_body (.inl hNode)])⟩
  | case2 s body hNode =>
      rw [List.mem_singleton.1 h]
      exact ⟨s, mem_descendants_self s, .inl (by simp [fields_of_body (.inr hNode)])⟩
  | case3 s _ _ ihOne ihOpt ihSeq =>
      obtain ⟨⟨field, hField⟩, -, hMem⟩ := List.mem_flatMap.1 h
      cases field with
      | one child =>
          exact lift (mem_children_of_field hField (by simp [Field.toList]))
            (ihOne child hField hMem)
      | opt child =>
          cases child with
          | none => simp at hMem
          | some child =>
              exact lift (mem_children_of_field hField (by simp [Field.toList]))
                (ihOpt child hField hMem)
      | seq pairing items =>
          obtain ⟨⟨child, hChild⟩, -, hList⟩ := List.mem_flatMap.1 hMem
          exact lift (mem_children_of_field hField hChild)
            (ihSeq pairing items hField child hChild hList)
      | stmt child =>
          obtain ⟨c, hc, rfl⟩ := List.mem_map.1 hMem
          obtain rfl := Option.mem_toList.1 hc
          rw [statements]
          split
          · next body hNode =>
              refine ⟨c, mem_descendants_child (mem_children_of_field hField hc), .inl ?_⟩
              simp [fields_of_body (.inr hNode)]
          · exact ⟨s, mem_descendants_self s, .inr ⟨c, hField, rfl⟩⟩

/-- A nested statement is a child of a node at or below the site. -/
theorem exists_parent_of_mem_nestedLists {s t : Site} {list : List Site}
    (hList : list ∈ s.nestedLists) (h : t ∈ list) : ∃ d ∈ s.descendants, t ∈ d.children := by
  obtain ⟨d, hd, hSeq | ⟨c, hStmt, rfl⟩⟩ := mem_nestedLists hList
  · exact ⟨d, hd, mem_children_of_field hSeq h⟩
  · exact ⟨d, hd, mem_children_of_field hStmt (by simpa [Field.toList] using h)⟩

/-- What stands in a nested list lies below. -/
theorem mem_descendants_of_mem_nestedLists {s t : Site} {list : List Site}
    (hList : list ∈ s.nestedLists) (h : t ∈ list) : t ∈ s.descendants := by
  obtain ⟨d, hd, hChild⟩ := exists_parent_of_mem_nestedLists hList h
  exact mem_descendants_trans hd (mem_descendants_child hChild)

/-- Nested statements are lower than the node they are nested in. -/
theorem height_lt_of_mem_nestedLists {s t : Site} {list : List Site}
    (hList : list ∈ s.nestedLists) (h : t ∈ list) : t.node.height < s.node.height := by
  obtain ⟨d, hd, hChild⟩ := exists_parent_of_mem_nestedLists hList h
  exact Nat.lt_of_lt_of_le (height_lt_of_mem_children hChild) (height_le_of_mem_descendants hd)

end Site

namespace Node

theorem mem_descendants_self (n : Node) : n ∈ n.descendants :=
  List.mem_map.2 ⟨.root n, Site.mem_descendants_self _, rfl⟩

/-- What is in a tree is the top or in the tree of a child. -/
theorem mem_descendants_iff {n x : Node} :
    x ∈ n.descendants ↔ x = n ∨ ∃ c ∈ n.children, x ∈ c.descendants := by
  have hPath : ∀ m : Node, x ∈ m.descendants ↔ ∃ path, m.at? path = some x := by
    intro m
    rw [descendants, List.mem_map]
    constructor
    · rintro ⟨s, hs, rfl⟩
      obtain ⟨path, -, hNode⟩ := Site.mem_descendants_iff.1 hs
      exact ⟨path, hNode⟩
    · rintro ⟨path, hNode⟩
      exact ⟨⟨path, x⟩, Site.mem_descendants_iff.2 ⟨path, rfl, hNode⟩, rfl⟩
  constructor
  · intro h
    obtain ⟨path, hNode⟩ := (hPath n).1 h
    cases path with
    | nil => exact .inl (Option.some.inj hNode).symm
    | cons i path =>
        obtain ⟨c, hChild, hNode⟩ := Option.bind_eq_some_iff.1 hNode
        exact .inr ⟨c, List.mem_of_getElem? hChild, (hPath c).2 ⟨path, hNode⟩⟩
  · rintro (rfl | ⟨c, hc, h⟩)
    · exact mem_descendants_self x
    · obtain ⟨i, hi⟩ := List.mem_iff_getElem?.1 hc
      obtain ⟨path, hNode⟩ := (hPath c).1 h
      exact (hPath n).2 ⟨i :: path, Option.bind_eq_some_iff.2 ⟨c, hi, hNode⟩⟩

theorem mem_descendants_of_child {n c x : Node} (hc : c ∈ n.children) (hx : x ∈ c.descendants) :
    x ∈ n.descendants :=
  mem_descendants_iff.2 (.inr ⟨c, hc, hx⟩)

end Node

end CodeShape
