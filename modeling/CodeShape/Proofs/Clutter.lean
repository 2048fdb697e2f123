import CodeShape.Proofs.Instances
import CodeShape.Proofs.Positions

/-! Programs with further statements. Statements may be put in anywhere into the bodies of programs
and blocks, except at and below some places. Whatever was at or below a site is then still there, and
what followed a statement in its list still follows it. -/
namespace CodeShape

/-- Lists that correspond do so without anything between. -/
theorem sublistForall₂_of_forall₂ {α β : Type} {r : α → β → Prop} {as : List α} {bs : List β}
    (h : List.Forall₂ r as bs) : List.SublistForall₂ r as bs :=
  List.sublistForall₂_iff.2 ⟨bs, h, List.Sublist.refl bs⟩

theorem exists_mem_of_sublistForall₂ {α β : Type} {r : α → β → Prop} {as : List α} {bs : List β}
    (h : List.SublistForall₂ r as bs) {a : α} (ha : a ∈ as) : ∃ b ∈ bs, r a b := by
  induction h with
  | nil => cases ha
  | @cons x y as bs hxy _ ih =>
      rcases List.mem_cons.1 ha with rfl | ha
      · exact ⟨y, List.mem_cons_self, hxy⟩
      · obtain ⟨b, hb, hab⟩ := ih ha
        exact ⟨b, List.mem_cons_of_mem _ hb, hab⟩
  | cons_right _ ih =>
      obtain ⟨b, hb, hab⟩ := ih ha
      exact ⟨b, List.mem_cons_of_mem _ hb, hab⟩

namespace Field

variable {α β γ : Type}

/-- Slots of one kind with related children. A list of statements may have further ones between
them. -/
inductive Padded (r : α → β → Prop) : Field α → Field β → Prop where
  | related {f : Field α} {g : Field β} (h : Related r f g) : Padded r f g
  | statements {as : List α} {bs : List β} (h : List.SublistForall₂ r as bs) :
      Padded r (.seq .statements as) (.seq .statements bs)

theorem related_map {r : α → β → Prop} {f : α → β} (h : ∀ a, r a (f a)) (field : Field α) :
    Related r field (field.map f) := by
  cases field with
  | one a => exact .one (h a)
  | opt a? =>
      cases a? with
      | none => exact .optNone
      | some a => exact .optSome (h a)
  | stmt a? =>
      cases a? with
      | none => exact .stmtNone
      | some a => exact .stmtSome (h a)
  | seq pairing as => exact .seq (List.forall₂_map_right_iff.2 (List.forall₂_same.2 fun a _ => h a))

theorem Related.of_map {r : α → β → Prop} {f : γ → β} {field : Field α} {field' : Field γ}
    (h : Related r field (field'.map f)) : Related (fun a c => r a (f c)) field field' := by
  generalize hField : field'.map f = image at h
  cases h with
  | one h =>
      cases field' <;> cases hField
      exact .one h
  | optNone =>
      rcases field' with _ | (_ | c) | (_ | c) | _ <;> cases hField
      exact .optNone
  | optSome h =>
      rcases field' with _ | (_ | c) | (_ | c) | _ <;> cases hField
      exact .optSome h
  | stmtNone =>
      rcases field' with _ | (_ | c) | (_ | c) | _ <;> cases hField
      exact .stmtNone
  | stmtSome h =>
      rcases field' with _ | (_ | c) | (_ | c) | _ <;> cases hField
      exact .stmtSome h
  | seq h =>
      cases field' <;> cases hField
      exact .seq (List.forall₂_map_right_iff.1 h)

theorem Padded.of_map {r : α → β → Prop} {f : γ → β} {field : Field α} {field' : Field γ}
    (h : Padded r field (field'.map f)) : Padded (fun a c => r a (f c)) field field' := by
  generalize hField : field'.map f = image at h
  cases h with
  | related h => exact .related (hField ▸ h).of_map
  | statements h =>
      cases field' <;> cases hField
      exact .statements (List.sublistForall₂_map_right_iff.1 h)

/-- Every child of the first slot has one that it is related to. -/
theorem Padded.exists_child {r : α → β → Prop} {f : Field α} {g : Field β} (h : Padded r f g)
    {a : α} (ha : a ∈ f.toList) : ∃ b ∈ g.toList, r a b := by
  cases h with
  | statements h => exact exists_mem_of_sublistForall₂ h ha
  | related h =>
      cases h with
      | optNone | stmtNone => cases ha
      | one h | optSome h | stmtSome h =>
          exact ⟨_, List.mem_singleton_self _, List.mem_singleton.1 ha ▸ h⟩
      | seq h => exact exists_mem_of_sublistForall₂ (sublistForall₂_of_forall₂ h) ha

end Field

namespace Site

/-- The node is what was at the site, with any statements put into the bodies of programs and blocks.
Nothing is put in at or below the end of a path that is kept. -/
inductive Cluttered (kept : List (List Nat)) : Site → Node → Prop where
  | same (s : Site) : Cluttered kept s s.node
  | grown {s : Site} {n : Node} (hOpen : s.path ∉ kept) (hLabel : n.label = s.node.label)
      (hSlots : List.Forall₂ (Field.Padded (Cluttered kept)) s.fields n.fields) :
      Cluttered kept s n

/-- Clutter leaves the kind of a node. -/
theorem Cluttered.label_eq {kept : List (List Nat)} {s : Site} {n : Node} (h : Cluttered kept s n) :
    n.label = s.node.label := by
  cases h with
  | same => rfl
  | grown _ hLabel => exact hLabel

/-- The second site holds what was at the first, with any statements put in. -/
def Echoes (kept : List (List Nat)) (s t : Site) : Prop := Cluttered kept s t.node

namespace Echoes

variable {kept : List (List Nat)} {s t : Site}

/-- What is kept is as it was. -/
theorem node_eq (h : Echoes kept s t) (hs : s.path ∈ kept) : t.node = s.node := by
  unfold Echoes at h
  generalize t.node = n at h
  cases h with
  | same => rfl
  | grown hOpen => exact absurd hs hOpen

theorem label_eq (h : Echoes kept s t) : t.node.label = s.node.label := Cluttered.label_eq h

/-- The slots of an echo are those of the site, with clutter in its lists. -/
theorem slots (h : Echoes kept s t) :
    List.Forall₂ (Field.Padded (Echoes kept)) s.fields t.fields := by
  have hNodes : List.Forall₂ (Field.Padded (Cluttered kept)) s.fields t.node.fields := by
    unfold Echoes at h
    generalize t.node = n at h
    cases h with
    | same =>
        rw [← s.map_node_fields]
        refine List.forall₂_map_right_iff.2 (List.forall₂_same.2 fun field _ => ?_)
        exact .related (Field.related_map Cluttered.same field)
    | grown _ _ hSlots => exact hSlots
  rw [← t.map_node_fields] at hNodes
  exact (List.forall₂_map_right_iff.1 hNodes).imp fun _ _ hSlot => hSlot.of_map

/-- Every slot of a site has its slot in the echo. -/
theorem exists_slot (h : Echoes kept s t) {f : Field Site} (hf : f ∈ s.fields) :
    ∃ g ∈ t.fields, Field.Padded (Echoes kept) f g :=
  exists_mem_of_sublistForall₂ (sublistForall₂_of_forall₂ h.slots) hf

/-- Whatever was below a site is still there. -/
theorem exists_descendant (h : Echoes kept s t) {d : Site} (hd : d ∈ s.descendants) :
    ∃ e ∈ t.descendants, Echoes kept d e := by
  induction hSize : sizeOf s.node using Nat.strongRecOn generalizing s t with
  | ind size ih =>
      rw [descendants_eq] at hd
      rcases List.mem_cons.1 hd with rfl | hd
      · exact ⟨t, mem_descendants_self t, h⟩
      · obtain ⟨c, hc, hd⟩ := List.mem_flatMap.1 hd
        obtain ⟨f, hf, hcf⟩ := List.mem_flatMap.1 hc
        obtain ⟨g, hg, hSlot⟩ := h.exists_slot hf
        obtain ⟨c', hc', hChild⟩ := hSlot.exists_child hcf
        obtain ⟨e, he, hEcho⟩ := ih _ (hSize ▸ sizeOf_lt_of_mem_children hc) hChild hd rfl
        exact ⟨e, mem_descendants_of_child (mem_children_of_field hg hc') he, hEcho⟩

/-- Between the statements of a body there may be others. -/
theorem children_of_body (h : Echoes kept s t) (hs : s.fields = [.seq .statements s.children]) :
    List.SublistForall₂ (Echoes kept) s.children t.children := by
  have hSlots := h.slots
  rw [hs] at hSlots
  obtain ⟨g, gs, hSlot, hNone, hFields⟩ := List.forall₂_cons_left_iff.1 hSlots
  cases hNone
  have hChildren : t.children = g.toList := by
    rw [children, hFields, List.flatMap_cons, List.flatMap_nil, List.append_nil]
  rw [hChildren]
  generalize s.children = cs at hSlot
  cases hSlot with
  | statements h => exact h
  | related h =>
      cases h with
      | seq h => exact sublistForall₂_of_forall₂ h

end Echoes

/-- The node is a program or a block. -/
def HoldsBody (s : Site) : Prop := s.node.label = .program ∨ s.node.label = .block

theorem HoldsBody.exists_body {s : Site} (h : s.HoldsBody) :
    ∃ body, s.node = .program body ∨ s.node = .block body := by
  unfold HoldsBody at h
  generalize s.node = n at h
  cases n with
  | program body => exact ⟨body, .inl rfl⟩
  | block body => exact ⟨body, .inr rfl⟩
  | _ => rcases h with h | h <;> cases h

theorem HoldsBody.fields_eq {s : Site} (h : s.HoldsBody) :
    s.fields = [.seq .statements s.children] := by
  obtain ⟨body, hNode⟩ := h.exists_body
  exact fields_of_body hNode

theorem statements_of_block {s : Site} (h : s.node.label = .block) : s.statements = s.children := by
  obtain ⟨body, hNode | hNode⟩ := HoldsBody.exists_body (.inr h)
  · rw [hNode] at h
    cases h
  · rw [statements, hNode]

theorem statements_of_other {s : Site} (h : s.node.label ≠ .block) : s.statements = [s] := by
  unfold statements
  split
  · next body hNode =>
      rw [hNode] at h
      exact absurd rfl h
  · rfl

/-- The statement lists that a slot leads to. -/
def listsOf : Field Site → List (List Site)
  | .stmt child => child.toList.map statements
  | field => field.toList.flatMap nestedLists

theorem nestedLists_of_body {s : Site} (h : s.HoldsBody) : s.nestedLists = [s.children] := by
  obtain ⟨body, hNode⟩ := h.exists_body
  rw [nestedLists]
  split
  · rfl
  · rfl
  · next hProgram hBlock => exact (hNode.elim (hProgram body) (hBlock body)).elim

theorem nestedLists_of_other {s : Site} (h : ¬ s.HoldsBody) :
    s.nestedLists = s.fields.flatMap listsOf := by
  rw [nestedLists]
  split
  · next body hNode => exact absurd (.inl (by rw [hNode]; rfl)) h
  · next body hNode => exact absurd (.inr (by rw [hNode]; rfl)) h
  · rw [List.flatMap_def, List.flatMap_def, ← List.attach_map_val (l := s.fields)]
    congr 2
    funext slot
    obtain ⟨field, hField⟩ := slot
    cases field with
    | one child => simp [listsOf, Field.toList]
    | opt child => cases child <;> simp [listsOf, Field.toList]
    | stmt child => rfl
    | seq pairing items =>
        simp only [listsOf, Field.toList, List.flatMap_def]
        congr 1
        exact List.attach_map_val (l := items) (f := nestedLists)

namespace Echoes

variable {kept : List (List Nat)} {s t : Site}

theorem holdsBody_iff (h : Echoes kept s t) : t.HoldsBody ↔ s.HoldsBody := by
  rw [HoldsBody, HoldsBody, h.label_eq]

theorem statements (h : Echoes kept s t) :
    List.SublistForall₂ (Echoes kept) s.statements t.statements := by
  by_cases hBlock : s.node.label = .block
  · rw [statements_of_block hBlock, statements_of_block (h.label_eq.trans hBlock)]
    exact h.children_of_body (HoldsBody.fields_eq (.inr hBlock))
  · have hOther : t.node.label ≠ .block := fun hLabel => hBlock (h.label_eq.symm.trans hLabel)
    rw [statements_of_other hBlock, statements_of_other hOther]
    exact .cons h .nil

/-- Every statement list below the site is still there, with others among its statements. -/
theorem exists_nestedList (h : Echoes kept s t) {list : List Site} (hList : list ∈ s.nestedLists) :
    ∃ list' ∈ t.nestedLists, List.SublistForall₂ (Echoes kept) list list' := by
  induction hSize : sizeOf s.node using Nat.strongRecOn generalizing s t with
  | ind size ih =>
      by_cases hBody : s.HoldsBody
      · rw [nestedLists_of_body hBody] at hList
        rw [nestedLists_of_body (h.holdsBody_iff.2 hBody)]
        refine ⟨t.children, List.mem_singleton_self _, ?_⟩
        rw [List.mem_singleton.1 hList]
        exact h.children_of_body hBody.fields_eq
      · have hBody' : ¬ t.HoldsBody := fun hHolds => hBody (h.holdsBody_iff.1 hHolds)
        rw [nestedLists_of_other hBody] at hList
        rw [nestedLists_of_other hBody']
        obtain ⟨f, hf, hList⟩ := List.mem_flatMap.1 hList
        obtain ⟨g, hg, hSlot⟩ := h.exists_slot hf
        -- a list below a child is a list below what the child has become
        have hBelow : ∀ {c d : Site}, c ∈ f.toList → Echoes kept c d → list ∈ c.nestedLists →
            ∃ list' ∈ d.nestedLists, List.SublistForall₂ (Echoes kept) list list' :=
          fun hc hEcho hMem => ih _ (hSize ▸ sizeOf_lt_of_mem_children
            (mem_children_of_field hf hc)) hEcho hMem rfl
        have hFound : ∃ list' ∈ listsOf g, List.SublistForall₂ (Echoes kept) list list' := by
          cases hSlot with
          | statements hItems =>
              obtain ⟨c, hc, hMem⟩ := List.mem_flatMap.1 hList
              obtain ⟨d, hd, hEcho⟩ := exists_mem_of_sublistForall₂ hItems hc
              obtain ⟨list', hMem', hLists⟩ := hBelow hc hEcho hMem
              exact ⟨list', List.mem_flatMap.2 ⟨d, hd, hMem'⟩, hLists⟩
          | related hRelated =>
              cases hRelated with
              | optNone | stmtNone => cases hList
              | stmtSome hEcho =>
                  refine ⟨_, List.mem_singleton_self _, ?_⟩
                  rw [List.mem_singleton.1 hList]
                  exact hEcho.statements
              | one hEcho | optSome hEcho =>
                  obtain ⟨c, hc, hMem⟩ := List.mem_flatMap.1 hList
                  obtain rfl := List.mem_singleton.1 hc
                  obtain ⟨list', hMem', hLists⟩ := hBelow hc hEcho hMem
                  exact ⟨list', List.mem_flatMap.2 ⟨_, List.mem_singleton_self _, hMem'⟩, hLists⟩
              | seq hItems =>
                  obtain ⟨c, hc, hMem⟩ := List.mem_flatMap.1 hList
                  obtain ⟨d, hd, hEcho⟩ :=
                    exists_mem_of_sublistForall₂ (sublistForall₂_of_forall₂ hItems) hc
                  obtain ⟨list', hMem', hLists⟩ := hBelow hc hEcho hMem
                  exact ⟨list', List.mem_flatMap.2 ⟨d, hd, hMem'⟩, hLists⟩
        obtain ⟨list', hMem', hLists⟩ := hFound
        exact ⟨list', List.mem_flatMap.2 ⟨g, hg, hMem'⟩, hLists⟩

end Echoes

end Site

namespace Spot

open Site

/-- The same place, with any statements put in below it and after it. -/
structure Echoes (kept : List (List Nat)) (spot spot' : Spot) : Prop where
  site : Site.Echoes kept spot.site spot'.site
  following : List.SublistForall₂ (Site.Echoes kept) spot.following spot'.following

variable {kept : List (List Nat)} {cs cs' : List Site}

theorem exists_echo_of_mem_ofList (h : List.SublistForall₂ (Site.Echoes kept) cs cs') {spot : Spot}
    (hSpot : spot ∈ ofList cs) : ∃ spot' ∈ ofList cs', spot.Echoes kept spot' := by
  induction h with
  | nil => cases hSpot
  | @cons c c' cs cs' hEcho hRest ih =>
      rcases List.mem_cons.1 hSpot with rfl | hSpot
      · exact ⟨⟨c', cs'⟩, List.mem_cons_self, hEcho, hRest⟩
      · obtain ⟨spot', hSpot', hFound⟩ := ih hSpot
        exact ⟨spot', List.mem_cons_of_mem _ hSpot', hFound⟩
  | cons_right _ ih =>
      obtain ⟨spot', hSpot', hFound⟩ := ih hSpot
      exact ⟨spot', List.mem_cons_of_mem _ hSpot', hFound⟩

theorem Echoes.exists_below {spot spot' inner : Spot} (h : spot.Echoes kept spot')
    (hInner : inner ∈ spot.everywhere) : ∃ inner' ∈ spot'.everywhere, inner.Echoes kept inner' := by
  induction hHeight : spot.site.node.height using Nat.strongRecOn generalizing spot spot' with
  | ind height ih =>
      rw [everywhere_eq] at hInner
      rw [everywhere_eq]
      rcases List.mem_cons.1 hInner with rfl | hBelow
      · exact ⟨spot', List.mem_cons_self, h⟩
      · obtain ⟨list, hList, hBelow⟩ := List.mem_flatMap.1 hBelow
        obtain ⟨next, hNext, hBelow⟩ := List.mem_flatMap.1 hBelow
        obtain ⟨list', hList', hLists⟩ := h.site.exists_nestedList hList
        obtain ⟨next', hNext', hEcho⟩ := exists_echo_of_mem_ofList hLists hNext
        have hLower := height_lt_of_mem_nestedLists hList (site_mem_of_mem_ofList hNext)
        obtain ⟨inner', hInner', hFound⟩ := ih _ (hHeight ▸ hLower) hEcho hBelow rfl
        refine ⟨inner', List.mem_cons_of_mem _ ?_, hFound⟩
        exact List.mem_flatMap.2 ⟨list', hList', List.mem_flatMap.2 ⟨next', hNext', hInner'⟩⟩

/-- Every place that a statement list offered is still offered. -/
theorem exists_echo_of_mem_positions (h : List.SublistForall₂ (Site.Echoes kept) cs cs')
    {spot : Spot} (hSpot : spot ∈ positions true cs) :
    ∃ spot' ∈ positions true cs', spot.Echoes kept spot' := by
  rw [positions_true] at hSpot ⊢
  obtain ⟨start, hStart, hBelow⟩ := List.mem_flatMap.1 hSpot
  obtain ⟨start', hStart', hEcho⟩ := exists_echo_of_mem_ofList h hStart
  obtain ⟨spot', hSpot', hFound⟩ := hEcho.exists_below hBelow
  exact ⟨spot', List.mem_flatMap.2 ⟨start', hStart', hSpot'⟩, hFound⟩

end Spot

end CodeShape
