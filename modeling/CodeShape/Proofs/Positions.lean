import CodeShape.Match.Sequence
import CodeShape.Proofs.Tree

/-! The places that a statement list offers. A list is searched in depth-first order, without a
bound on the depth; each place is a tail of the list itself or of a statement list nested below. -/
namespace CodeShape

namespace Spot

/-- A spot of a list is a tail of it. -/
theorem suffix_of_mem_ofList {list : List Site} {spot : Spot} (h : spot ∈ ofList list) :
    spot.site :: spot.following <:+ list := by
  induction list with
  | nil => simp [ofList] at h
  | cons s rest ih =>
      rcases List.mem_cons.1 h with rfl | hRest
      · exact List.suffix_rfl
      · exact (ih hRest).trans (List.suffix_cons s rest)

/-- The site of a spot is one of the list. -/
theorem site_mem_of_mem_ofList {list : List Site} {spot : Spot} (h : spot ∈ ofList list) :
    spot.site ∈ list :=
  (suffix_of_mem_ofList h).subset List.mem_cons_self

/-- Every member of a list with the members after it, from the front. -/
def along (list : List Site) : List Spot := list.zipWith mk list.tails.tail

/-- Pairing the sites with the tails after them gives the spots of the list. -/
theorem along_eq_ofList (list : List Site) : along list = ofList list := by
  induction list with
  | nil => rfl
  | cons s rest ih =>
      rw [ofList, ← ih]
      cases rest <;> rfl

/-- A spot and what follows it is the end of the list. -/
theorem suffix_of_mem_along {list : List Site} {spot : Spot} (h : spot ∈ along list) :
    spot.site :: spot.following <:+ list :=
  suffix_of_mem_ofList (along_eq_ofList list ▸ h)

/-- The site of a spot along a list is one of the list. -/
theorem site_mem_of_mem_along {list : List Site} {spot : Spot} (h : spot ∈ along list) :
    spot.site ∈ list :=
  (suffix_of_mem_along h).subset List.mem_cons_self

/-- A spot and every spot in the statement lists below it, each followed by what is below it in
turn. -/
def everywhere (spot : Spot) : List Spot :=
  spot :: spot.site.nestedLists.attach.flatMap fun ⟨list, hList⟩ =>
    (along list).attach.flatMap fun ⟨inner, hInner⟩ =>
      have := Site.height_lt_of_mem_nestedLists hList (site_mem_of_mem_along hInner)
      inner.everywhere
termination_by spot.site.node.height

/-- The spots at or below a spot are the spot, then those of each list nested in its site. -/
theorem everywhere_eq (spot : Spot) :
    spot.everywhere =
      spot :: spot.site.nestedLists.flatMap fun list => (ofList list).flatMap everywhere := by
  rw [everywhere]
  congr 1
  rw [List.flatMap_def, List.flatMap_def, ← List.attach_map_val (l := spot.site.nestedLists)]
  congr 2
  funext ⟨list, hList⟩
  simp only [List.flatMap_def, ← along_eq_ofList]
  congr 1
  exact List.attach_map_val (l := along list) (f := everywhere)

/-- Every place that a list offers to the first element of a pattern, in the order in which they are
tried. -/
def positions (dive : Bool) (list : List Site) : List Spot :=
  if dive then (along list).flatMap everywhere else along list

/-- Without diving, the positions are the spots of the list. -/
theorem positions_false (list : List Site) : positions false list = ofList list :=
  along_eq_ofList list

/-- A numbered spot of a list is one of its positions. -/
theorem mem_positions_of_mem_zipIdx {list : List Site} {place : Spot × Nat}
    (h : place ∈ (ofList list).zipIdx) : place.1 ∈ positions false list := by
  rw [positions_false]
  exact List.fst_mem_of_mem_zipIdx h

/-- With diving, the positions are the spots of the list, each with those below it. -/
theorem positions_true (list : List Site) :
    positions true list = (ofList list).flatMap everywhere := by
  rw [← along_eq_ofList]
  rfl

/-- A depth that covers the height of every member reaches all spots. -/
theorem within_eq {depth : Nat} {list : List Site} (h : ∀ s ∈ list, s.node.height ≤ depth) :
    within depth list = (ofList list).flatMap everywhere := by
  induction depth generalizing list with
  | zero =>
      cases list with
      | nil => rfl
      | cons s rest => exact absurd (h s (by simp)) (Nat.not_le_of_lt s.node.height_pos)
  | succ depth ih =>
      rw [within, List.flatMap_def, List.flatMap_def]
      congr 1
      apply List.map_congr_left
      intro spot hSpot
      rw [everywhere_eq, List.flatMap_def, List.flatMap_def]
      congr 2
      apply List.map_congr_left
      intro inner hInner
      apply ih
      intro s hs
      have hLower := Site.height_lt_of_mem_nestedLists hInner hs
      have hUpper := h spot.site (site_mem_of_mem_ofList hSpot)
      omega

/-- Searching to the height of a list reaches all its positions, so the depth given to the search is
no bound. -/
theorem within_eq_positions {dive : Bool} {depth : Nat} {list : List Site}
    (h : ∀ s ∈ list, s.node.height ≤ depth) :
    within (if dive then depth else 0) list = positions dive list := by
  cases dive with
  | true =>
      rw [positions_true]
      exact within_eq h
  | false => exact (positions_false list).symm

/-- A spot below another is a tail of a statement list nested below it. -/
theorem mem_everywhere {start spot : Spot} (h : spot ∈ start.everywhere) :
    spot = start ∨ ∃ s ∈ start.site.descendants, ∃ inner ∈ s.nestedLists,
      spot.site :: spot.following <:+ inner := by
  fun_induction everywhere start with
  | case1 start ih =>
      rcases List.mem_cons.1 h with rfl | hBelow
      · exact .inl rfl
      · obtain ⟨⟨inner, hInner⟩, -, hList⟩ := List.mem_flatMap.1 hBelow
        obtain ⟨⟨next, hNext⟩, -, hEvery⟩ := List.mem_flatMap.1 hList
        refine .inr ?_
        rcases ih inner hInner next hNext hEvery with rfl | ⟨s, hs, found, hFound, hTail⟩
        · exact ⟨start.site, Site.mem_descendants_self _, inner, hInner, suffix_of_mem_along hNext⟩
        · have hSite :=
            Site.mem_descendants_of_mem_nestedLists hInner (site_mem_of_mem_along hNext)
          exact ⟨s, Site.mem_descendants_trans hSite hs, found, hFound, hTail⟩

/-- Spots are tails of the list or of a statement list nested below one of its members. -/
theorem mem_positions {dive : Bool} {list : List Site} {spot : Spot}
    (h : spot ∈ positions dive list) :
    spot.site :: spot.following <:+ list ∨
      ∃ upper ∈ list, ∃ s ∈ upper.descendants, ∃ inner ∈ s.nestedLists,
        spot.site :: spot.following <:+ inner := by
  cases dive with
  | false => exact .inl (suffix_of_mem_along h)
  | true =>
      obtain ⟨start, hStart, hEvery⟩ := List.mem_flatMap.1 h
      rcases mem_everywhere hEvery with rfl | hNested
      · exact .inl (suffix_of_mem_along hStart)
      · exact .inr ⟨start.site, site_mem_of_mem_along hStart, hNested⟩

/-- What stands at or after a spot is at or below the list. -/
theorem mem_descendants_of_mem_positions {dive : Bool} {list : List Site} {spot : Spot} {s : Site}
    (h : spot ∈ positions dive list) (hs : s ∈ spot.site :: spot.following) :
    ∃ upper ∈ list, s ∈ upper.descendants := by
  rcases mem_positions h with hTail | ⟨upper, hUpper, t, ht, inner, hInner, hTail⟩
  · exact ⟨s, hTail.subset hs, Site.mem_descendants_self s⟩
  · refine ⟨upper, hUpper, Site.mem_descendants_trans ht ?_⟩
    exact Site.mem_descendants_of_mem_nestedLists hInner (hTail.subset hs)

end Spot

end CodeShape
