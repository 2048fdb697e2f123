import CodeShape.Proofs.Clutter
import CodeShape.Proofs.Order
import Mathlib.Data.List.Flatten

/-! The order of a dive. A dive into a statement list goes from list to list through whatever stands
between them; it meets the statements of the walk through the trees, each once and in the order of
the text. -/
namespace CodeShape

namespace Site

/-- The site is a statement right below its parent: a member of a body, or what is no block in a
statement slot. -/
def Offers (parent s : Site) : Prop :=
  (parent.HoldsBody ∧ s ∈ parent.children) ∨
    (.stmt (some s) ∈ parent.fields ∧ s.node.label ≠ .block)

/-- What a dive meets strictly below a site. -/
def dive (s : Site) : List Site :=
  s.nestedLists.flatMap fun list =>
    ((Spot.ofList list).flatMap Spot.everywhere).map Spot.site

end Site

namespace Spot

theorem map_site_ofList (list : List Site) : (ofList list).map site = list := by
  induction list with
  | nil => rfl
  | cons s rest ih => rw [ofList, List.map_cons, ih]

/-- The spots below a spot are the sites that a dive meets. -/
theorem map_site_everywhere (spot : Spot) :
    spot.everywhere.map site = spot.site :: spot.site.dive := by
  rw [everywhere_eq, List.map_cons, List.map_flatMap]
  rfl

/-- The sites of a dive depend on the members of the list alone. -/
theorem map_site_flatMap_everywhere (list : List Site) :
    ((ofList list).flatMap everywhere).map site = list.flatMap fun s => s :: s.dive := by
  have hSites : (fun spot : Spot => spot.everywhere.map site) =
      fun spot => spot.site :: spot.site.dive := funext map_site_everywhere
  rw [List.map_flatMap, hSites]
  nth_rewrite 2 [← map_site_ofList list]
  rw [List.flatMap_map]

end Spot

namespace Site

/-- A dive goes through the nested lists of a site, each element before what is below it. -/
theorem dive_eq (s : Site) :
    s.dive = s.nestedLists.flatMap fun list => list.flatMap fun t => t :: t.dive := by
  rw [dive]
  congr 1
  exact funext Spot.map_site_flatMap_everywhere

/-- In a body a dive meets every statement and what is below it. -/
theorem dive_of_body {s : Site} (h : s.HoldsBody) :
    s.dive = s.children.flatMap fun c => c :: c.dive := by
  rw [dive_eq, nestedLists_of_body h, List.flatMap_singleton]

/-- What a dive meets through a slot. -/
def diveInto : Field Site → List Site
  | .stmt child => child.toList.flatMap fun c => c.statements.flatMap fun t => t :: t.dive
  | field => field.toList.flatMap dive

theorem flatMap_listsOf (field : Field Site) :
    ((listsOf field).flatMap fun list => list.flatMap fun t => t :: t.dive) = diveInto field := by
  have hOther : ∀ cs : List Site,
      ((cs.flatMap nestedLists).flatMap fun list => list.flatMap fun t => t :: t.dive) =
        cs.flatMap dive := by
    intro cs
    rw [List.flatMap_assoc]
    congr 1
    exact funext fun c => (dive_eq c).symm
  cases field with
  | stmt child => exact List.flatMap_map statements _ _
  | one child | opt child | seq pairing children => exact hOther _

/-- Elsewhere a dive goes through the slots in order. -/
theorem dive_of_other {s : Site} (h : ¬ s.HoldsBody) : s.dive = s.fields.flatMap diveInto := by
  rw [dive_eq, nestedLists_of_other h, List.flatMap_assoc]
  congr 1
  exact funext flatMap_listsOf

/-- A dive into a block skips the block itself. -/
theorem flatMap_statements_of_block {c : Site} (h : c.node.label = .block) :
    (c.statements.flatMap fun t => t :: t.dive) = c.dive := by
  rw [statements_of_block h, dive_of_body (.inr h)]

/-- A dive into another statement meets it first. -/
theorem flatMap_statements_of_other {c : Site} (h : c.node.label ≠ .block) :
    (c.statements.flatMap fun t => t :: t.dive) = c :: c.dive := by
  rw [statements_of_other h, List.flatMap_singleton]

/-- What a dive meets through a slot. -/
theorem mem_diveInto {field : Field Site} {t : Site} :
    t ∈ diveInto field ↔
      (field = .stmt (some t) ∧ t.node.label ≠ .block) ∨ ∃ c ∈ field.toList, t ∈ c.dive := by
  cases field with
  | one child | opt child | seq pairing children => simp [diveInto, Field.toList]
  | stmt child =>
      cases child with
      | none => simp [diveInto, Field.toList]
      | some c =>
          rw [diveInto, Option.toList_some, List.flatMap_singleton]
          by_cases h : c.node.label = .block
          · rw [flatMap_statements_of_block h]
            constructor
            · exact fun ht => .inr ⟨c, List.mem_singleton_self c, ht⟩
            · rintro (⟨hSame, hOther⟩ | ⟨d, hd, ht⟩)
              · cases hSame
                exact absurd h hOther
              · exact List.mem_singleton.1 hd ▸ ht
          · rw [flatMap_statements_of_other h, List.mem_cons]
            constructor
            · rintro (rfl | ht)
              · exact .inl ⟨rfl, h⟩
              · exact .inr ⟨c, List.mem_singleton_self c, ht⟩
            · rintro (⟨hSame, -⟩ | ⟨d, hd, ht⟩)
              · cases hSame
                exact .inl rfl
              · exact .inr (List.mem_singleton.1 hd ▸ ht)

/-- One step of a dive: the statements right below the site, and what is met below its children. -/
theorem mem_dive_step {s t : Site} :
    t ∈ s.dive ↔ s.Offers t ∨ ∃ c ∈ s.children, t ∈ c.dive := by
  by_cases hBody : s.HoldsBody
  · -- all members of a body are statements
    rw [dive_of_body hBody, List.mem_flatMap]
    constructor
    · rintro ⟨c, hc, ht⟩
      rcases List.mem_cons.1 ht with rfl | ht
      · exact .inl (.inl ⟨hBody, hc⟩)
      · exact .inr ⟨c, hc, ht⟩
    · rintro ((⟨-, ht⟩ | ⟨ht, -⟩) | ⟨c, hc, ht⟩)
      · exact ⟨t, ht, List.mem_cons_self⟩
      · exact ⟨t, mem_children_of_field ht (by simp [Field.toList]), List.mem_cons_self⟩
      · exact ⟨c, hc, List.mem_cons_of_mem _ ht⟩
  · -- elsewhere only what is in a statement slot can be one
    rw [dive_of_other hBody, List.mem_flatMap]
    constructor
    · rintro ⟨field, hField, ht⟩
      rcases mem_diveInto.1 ht with ⟨rfl, hOther⟩ | ⟨c, hc, ht⟩
      · exact .inl (.inr ⟨hField, hOther⟩)
      · exact .inr ⟨c, mem_children_of_field hField hc, ht⟩
    · rintro ((⟨hHolds, -⟩ | ⟨ht, hOther⟩) | ⟨c, hc, ht⟩)
      · exact absurd hHolds hBody
      · exact ⟨_, ht, mem_diveInto.2 (.inl ⟨rfl, hOther⟩)⟩
      · obtain ⟨field, hField, hc⟩ := List.mem_flatMap.1 hc
        exact ⟨field, hField, mem_diveInto.2 (.inr ⟨c, hc, ht⟩)⟩

/-- A dive meets the statements at any depth, and nothing else. -/
theorem mem_dive_iff {s t : Site} : t ∈ s.dive ↔ ∃ parent ∈ s.descendants, parent.Offers t := by
  induction hSize : sizeOf s.node using Nat.strongRecOn generalizing s with
  | ind size ih =>
      have hChild : ∀ c ∈ s.children, t ∈ c.dive ↔ ∃ parent ∈ c.descendants, parent.Offers t :=
        fun c hc => ih _ (hSize ▸ sizeOf_lt_of_mem_children hc) rfl
      rw [mem_dive_step, descendants_eq]
      constructor
      · rintro (h | ⟨c, hc, ht⟩)
        · exact ⟨s, List.mem_cons_self, h⟩
        · obtain ⟨parent, hParent, h⟩ := (hChild c hc).1 ht
          exact ⟨parent, List.mem_cons_of_mem _ (List.mem_flatMap.2 ⟨c, hc, hParent⟩), h⟩
      · rintro ⟨parent, hParent, h⟩
        rcases List.mem_cons.1 hParent with rfl | hBelow
        · exact .inl h
        · obtain ⟨c, hc, hParent⟩ := List.mem_flatMap.1 hBelow
          exact .inr ⟨c, hc, (hChild c hc).2 ⟨parent, hParent, h⟩⟩

/-- A site and what a dive meets below it are in preorder. -/
theorem cons_dive_sublist {s : Site} (h : s.dive.Sublist (s.children.flatMap descendants)) :
    (s :: s.dive).Sublist s.descendants := by
  rw [descendants_eq]
  exact h.cons_cons s

/-- What a dive meets through a slot is in preorder. -/
theorem diveInto_sublist {field : Field Site}
    (h : ∀ c ∈ field.toList, c.dive.Sublist (c.children.flatMap descendants)) :
    (diveInto field).Sublist (field.toList.flatMap descendants) := by
  have hBelow : ∀ c ∈ field.toList, c.dive.Sublist c.descendants :=
    fun c hc => (List.sublist_cons_self c _).trans (cons_dive_sublist (h c hc))
  cases field with
  | one child | opt child | seq pairing children => exact .flatMap_right _ hBelow
  | stmt child =>
      refine .flatMap_right _ fun c hc => ?_
      by_cases hBlock : c.node.label = .block
      · rw [flatMap_statements_of_block hBlock]
        exact hBelow c hc
      · rw [flatMap_statements_of_other hBlock]
        exact cons_dive_sublist (h c hc)

/-- A dive keeps the order of the walk through the tree. -/
theorem dive_sublist (s : Site) : s.dive.Sublist (s.children.flatMap descendants) := by
  induction hSize : sizeOf s.node using Nat.strongRecOn generalizing s with
  | ind size ih =>
      have hChild : ∀ c ∈ s.children, c.dive.Sublist (c.children.flatMap descendants) :=
        fun c hc => ih _ (hSize ▸ sizeOf_lt_of_mem_children hc) c rfl
      by_cases hBody : s.HoldsBody
      · rw [dive_of_body hBody]
        exact .flatMap_right _ fun c hc => cons_dive_sublist (hChild c hc)
      · rw [dive_of_other hBody, children, List.flatMap_assoc]
        refine .flatMap_right _ fun field hField => diveInto_sublist fun c hc => ?_
        exact hChild c (mem_children_of_field hField hc)

/-- In trees that are apart no place is walked through twice. -/
theorem nodup_paths {list : List Site} (h : list.Pairwise Apart) :
    ((list.flatMap descendants).map path).Nodup := by
  rw [List.nodup_iff_pairwise_ne, List.pairwise_map, List.pairwise_flatMap]
  refine ⟨fun s _ => ?_, h.imp fun hApart x hx y hy hSame => ?_⟩
  · refine s.pairwise_descendants.imp fun {x y} hLess hSame => ?_
    rw [hSame] at hLess
    exact List.lt_irrefl _ hLess
  · exact hApart.descendants hx hy x.path (List.prefix_refl _) (hSame ▸ List.prefix_refl _)

end Site

namespace Spot

/-- A dive into a list of places that are apart, deep enough for the highest of them, meets the
statements in the order of the walk through the trees and none twice: the members of the list, and
at any depth, inside whatever it may be, the members of a body and the statements that stand by
themselves. -/
theorem within_enumerates_statements {list : List Site} {depth : Nat}
    (hApart : list.Pairwise Site.Apart) (hDepth : ∀ s ∈ list, s.node.height ≤ depth) :
    ((within depth list).map site).Sublist (list.flatMap Site.descendants) ∧
      (((within depth list).map site).map Site.path).Nodup ∧
      ∀ s, s ∈ (within depth list).map site ↔
        s ∈ list ∨ ∃ top ∈ list, ∃ parent ∈ top.descendants, parent.Offers s := by
  have hSites : (within depth list).map site = list.flatMap fun s => s :: s.dive := by
    rw [within_eq hDepth, map_site_flatMap_everywhere]
  have hOrder : ((within depth list).map site).Sublist (list.flatMap Site.descendants) := by
    rw [hSites]
    exact .flatMap_right _ fun s _ => Site.cons_dive_sublist s.dive_sublist
  refine ⟨hOrder, (Site.nodup_paths hApart).sublist (hOrder.map Site.path), fun s => ?_⟩
  rw [hSites, List.mem_flatMap]
  constructor
  · rintro ⟨top, hTop, hs⟩
    rcases List.mem_cons.1 hs with rfl | hs
    · exact .inl hTop
    · exact .inr ⟨top, hTop, Site.mem_dive_iff.1 hs⟩
  · rintro (hs | ⟨top, hTop, hParent⟩)
    · exact ⟨s, hs, List.mem_cons_self⟩
    · exact ⟨top, hTop, List.mem_cons_of_mem _ (Site.mem_dive_iff.2 hParent)⟩

/-- The dive into `while (x) f(() => { g(); });` meets the statement of the arrow function. -/
theorem within_enumerates_statements_callback :
    let call (name : String) (arguments : List Node) : Node := .expr (.call (.ident name) arguments)
    let arrow : Node := .function .arrow none [] (.block [call "g" []])
    let program : Node := .program [.whileLoop (.ident "x") (call "f" [arrow]), call "h" []]
    let list := (Site.root program).children
    list.Pairwise Site.Apart ∧ (∀ s ∈ list, s.node.height ≤ program.height) ∧
      ⟨[0, 1, 0, 1, 0, 0], call "g" []⟩ ∈ (within program.height list).map site := by
  intro call arrow program list
  have hApart : list.Pairwise Site.Apart := (Site.precedes_children _).imp Site.Precedes.apart
  have hDepth : ∀ s ∈ list, s.node.height ≤ program.height :=
    fun s hs => (Site.height_lt_of_mem_children hs).le
  have hBlock : ⟨[0, 1, 0, 1, 0], .block [call "g" []]⟩ ∈
      (⟨[0], .whileLoop (.ident "x") (call "f" [arrow])⟩ : Site).descendants :=
    Site.mem_descendants_iff.2 ⟨[1, 0, 1, 0], rfl, rfl⟩
  refine ⟨hApart, hDepth, ((within_enumerates_statements hApart hDepth).2.2 _).2 (.inr ?_)⟩
  refine ⟨_, List.mem_cons_self, _, hBlock, .inl ⟨.inr rfl, ?_⟩⟩
  exact Site.mem_children_iff.2 ⟨0, rfl, rfl⟩

end Spot

end CodeShape
