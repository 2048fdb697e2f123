import CodeShape.Proofs.Choices
import CodeShape.Proofs.Enumeration

/-! Scanning a list for a pattern without globs. The elements of the pattern are found along a chain of
places: each is on offer in what follows the one before it in its list, and each element matches at
its place, from the bindings that the one before it left. The scan comes by these chains in the
lexicographic order of the places and of the ways to match there. -/
namespace CodeShape

namespace Spot

/-- A place in the list or, if the search may dive, in a statement list nested below a member. -/
inductive Offered (dive : Bool) : List Site → Spot → Prop where
  | here {list : List Site} {spot : Spot} (h : spot.site :: spot.following <:+ list) :
      Offered dive list spot
  | nested {list inner : List Site} {s : Site} {spot : Spot} (hDive : dive = true) (hs : s ∈ list)
      (hInner : inner ∈ s.nestedLists) (h : Offered dive inner spot) : Offered dive list spot

/-- The spots along a list are its ends. -/
theorem mem_along_iff {list : List Site} {spot : Spot} :
    spot ∈ along list ↔ spot.site :: spot.following <:+ list := by
  refine ⟨suffix_of_mem_along, fun h => ?_⟩
  rw [along_eq_ofList]
  induction list with
  | nil => cases List.suffix_nil.1 h
  | cons s rest ih =>
      rcases List.suffix_cons_iff.1 h with hSame | hRest
      · obtain ⟨rfl, rfl⟩ := List.cons.inj hSame
        exact List.mem_cons_self
      · exact List.mem_cons_of_mem _ (ih hRest)

/-- What is found below a place is offered there, or is the place itself. -/
theorem offered_of_mem_everywhere {list : List Site} {start spot : Spot}
    (hStart : start.site ∈ list) (h : spot ∈ start.everywhere) :
    spot = start ∨ Offered true list spot := by
  fun_induction everywhere start generalizing list with
  | case1 start ih =>
      rcases List.mem_cons.1 h with rfl | hBelow
      · exact .inl rfl
      · obtain ⟨⟨inner, hInner⟩, -, hList⟩ := List.mem_flatMap.1 hBelow
        obtain ⟨⟨next, hNext⟩, -, hEvery⟩ := List.mem_flatMap.1 hList
        refine .inr (.nested rfl hStart hInner ?_)
        rcases ih inner hInner next hNext (site_mem_of_mem_along hNext) hEvery with rfl | hOffered
        · exact .here (suffix_of_mem_along hNext)
        · exact hOffered

/-- The places that are tried are those on offer. -/
theorem mem_positions_iff {dive : Bool} {list : List Site} {spot : Spot} :
    spot ∈ positions dive list ↔ Offered dive list spot := by
  constructor
  · intro h
    cases dive with
    | false => exact .here (suffix_of_mem_along h)
    | true =>
        obtain ⟨start, hStart, hEvery⟩ := List.mem_flatMap.1 h
        rcases offered_of_mem_everywhere (site_mem_of_mem_along hStart) hEvery with rfl | hOffered
        · exact .here (suffix_of_mem_along hStart)
        · exact hOffered
  · intro h
    induction h with
    | @here list spot hSuffix =>
        have hMem := mem_along_iff.2 hSuffix
        cases dive with
        | false => exact hMem
        | true =>
            refine List.mem_flatMap.2 ⟨spot, hMem, ?_⟩
            rw [everywhere_eq]
            exact List.mem_cons_self
    | @nested list inner s spot hDive hs hInner _ ih =>
        subst hDive
        obtain ⟨before, after, rfl⟩ := List.append_of_mem hs
        have hStart : (⟨s, after⟩ : Spot) ∈ along (before ++ s :: after) :=
          mem_along_iff.2 (List.suffix_append before (s :: after))
        refine List.mem_flatMap.2 ⟨⟨s, after⟩, hStart, ?_⟩
        rw [everywhere_eq]
        exact List.mem_cons_of_mem _ (List.mem_flatMap.2 ⟨inner, hInner, positions_true inner ▸ ih⟩)

/-- Places one after the other: the first is on offer in the list, each further one in what follows the
last one in its list. The numbers tell which of the places on offer they are. -/
inductive Trail (dive : Bool) : List Site → List Nat → List Spot → Prop where
  | nil {list : List Site} : Trail dive list [] []
  | cons {list : List Site} {i : Nat} {numbers : List Nat} {spot : Spot} {spots : List Spot}
      (hSpot : (positions dive list)[i]? = some spot)
      (hRest : Trail dive spot.following numbers spots) :
      Trail dive list (i :: numbers) (spot :: spots)

/-- The place of a member, by its number in the list. -/
def ofNumber? (list : List Site) (i : Nat) : Option Spot :=
  list[i]?.map fun s => ⟨s, list.drop (i + 1)⟩

theorem getElem?_ofList (list : List Site) (i : Nat) : (ofList list)[i]? = ofNumber? list i := by
  induction list generalizing i with
  | nil => rfl
  | cons s rest ih =>
      cases i with
      | zero => rfl
      | succ i => exact ih i

/-- Places in what follows a member are places in the list. -/
theorem ofNumber?_drop (list : List Site) (n i : Nat) :
    ofNumber? (list.drop n) i = ofNumber? list (n + i) := by
  rw [ofNumber?, ofNumber?, List.getElem?_drop, List.drop_drop, Nat.add_assoc]

theorem following_of_ofNumber? {list : List Site} {i : Nat} {spot : Spot}
    (h : ofNumber? list i = some spot) : spot.following = list.drop (i + 1) := by
  obtain ⟨s, -, rfl⟩ := Option.map_eq_some_iff.1 h
  rfl

/-- Without diving, places one after the other are those of increasing numbers in the list. -/
theorem trail_iff_increasing {list : List Site} {spots : List Spot} :
    (∃ numbers, Trail false list numbers spots) ↔
      ∃ indices : List Nat, indices.Pairwise (· < ·) ∧
        indices.map (ofNumber? list) = spots.map some := by
  constructor
  · rintro ⟨numbers, hTrail⟩
    induction hTrail with
    | nil => exact ⟨[], .nil, rfl⟩
    | @cons list i numbers spot spots hSpot _ ih =>
        obtain ⟨indices, hIncreasing, hPlaces⟩ := ih
        have hHere : ofNumber? list i = some spot := by
          rw [← getElem?_ofList, ← positions_false]
          exact hSpot
        -- numbers in what follows the place, counted from the start of the list
        refine ⟨i :: indices.map (i + 1 + ·), ?_, ?_⟩
        · refine List.pairwise_cons.2 ⟨?_, List.pairwise_map.2 (hIncreasing.imp ?_)⟩
          · intro n hn
            obtain ⟨k, -, rfl⟩ := List.mem_map.1 hn
            omega
          · intro k k' hLess
            omega
        · rw [List.map_cons, List.map_cons, hHere, List.map_map, ← hPlaces,
            following_of_ofNumber? hHere]
          congr 1
          exact List.map_congr_left fun k _ => (ofNumber?_drop list (i + 1) k).symm
  · rintro ⟨indices, hIncreasing, hPlaces⟩
    induction spots generalizing list indices with
    | nil => exact ⟨[], .nil⟩
    | cons spot spots ih =>
        cases indices with
        | nil => cases hPlaces
        | cons i indices =>
            obtain ⟨hHere, hLater⟩ := List.cons.inj hPlaces
            obtain ⟨hFirst, hRest⟩ := List.pairwise_cons.1 hIncreasing
            obtain ⟨numbers, hTrail⟩ := @ih spot.following (indices.map (· - (i + 1)))
              (by
                refine List.pairwise_map.2 (hRest.imp_of_mem fun {k k'} hk hk' hLess => ?_)
                have := hFirst k hk
                omega)
              (by
                rw [List.map_map, ← hLater, following_of_ofNumber? hHere]
                refine List.map_congr_left fun k hk => ?_
                have := hFirst k hk
                rw [Function.comp, ofNumber?_drop]
                congr 1
                omega)
            refine ⟨i :: numbers, .cons ?_ hTrail⟩
            rw [← hHere, positions_false]
            exact getElem?_ofList list i

end Spot

namespace Conditions

/-- Elements of a pattern that match at places, each from the bindings that the one before it left.
The numbers tell which of the ways to match there are taken. -/
inductive MatchesAlong (conditions : Conditions) :
    List Node → List Spot → Branch → List Nat → Branch → Prop where
  | nil {b : Branch} : MatchesAlong conditions [] [] b [] b
  | cons {p : Node} {ps : List Node} {spot : Spot} {spots : List Spot} {b b' b'' : Branch} {j : Nat}
      {numbers : List Nat}
      (hWay : (conditions.node p spot.site (b.anchor (some spot.site))).solutions[j]? = some b')
      (hRest : MatchesAlong conditions ps spots b' numbers b'') :
      MatchesAlong conditions (p :: ps) (spot :: spots) b (j :: numbers) b''

def interleave : List Nat → List Nat → List Nat
  | i :: is, j :: js => i :: j :: interleave is js
  | _, _ => []

/-- The elements match along the places, which are on offer one after the other. The choices are the
number of the first place, that of the way to match there, the number of the second place, and so on. -/
def Chain (conditions : Conditions) (dive : Bool) (ps : List Node) (cs : List Site) (b : Branch)
    (spots : List Spot) (choices : List Nat) (b' : Branch) : Prop :=
  ∃ places ways, Spot.Trail dive cs places spots ∧ conditions.MatchesAlong ps spots b ways b' ∧
    choices = interleave places ways

variable {conditions : Conditions} {dive : Bool} {p : Node} {ps : List Node} {cs : List Site}
variable {b b' : Branch} {choices : List Nat}

theorem chain_nil_iff {spots : List Spot} :
    conditions.Chain dive [] cs b spots choices b' ↔ spots = [] ∧ choices = [] ∧ b' = b := by
  constructor
  · rintro ⟨places, ways, hTrail, hMatches, rfl⟩
    cases hMatches
    cases hTrail
    exact ⟨rfl, rfl, rfl⟩
  · rintro ⟨rfl, rfl, rfl⟩
    exact ⟨[], [], .nil, .nil, rfl⟩

theorem exists_chain_cons_iff :
    (∃ spots, conditions.Chain dive (p :: ps) cs b spots choices b') ↔
      ∃ i spot rest, (Spot.positions dive cs)[i]? = some spot ∧
        (∃ j next rest', (conditions.ways p spot.site (b.anchor (some spot.site)))[j]? = some next ∧
          (∃ spots, conditions.Chain dive ps spot.following next spots rest' b') ∧
            rest = j :: rest') ∧
        choices = i :: rest := by
  simp only [← solutions_node]
  constructor
  · rintro ⟨spots, places, ways, hTrail, hMatches, rfl⟩
    cases hMatches with
    | @cons _ _ spot spots _ next _ j ways hWay hMatches =>
        cases hTrail with
        | @cons _ i places _ _ hSpot hTrail =>
            exact ⟨i, spot, _, hSpot, ⟨j, next, _, hWay,
              ⟨spots, places, ways, hTrail, hMatches, rfl⟩, rfl⟩, rfl⟩
  · rintro ⟨i, spot, _, hSpot, ⟨j, next, _, hWay, ⟨spots, places, ways, hTrail, hMatches, rfl⟩,
      rfl⟩, rfl⟩
    exact ⟨spot :: spots, i :: places, j :: ways, .cons hSpot hTrail, .cons hWay hMatches, rfl⟩

/-- Every place is gone on from, and an element takes one statement at a time. -/
theorem scan_cons_free (hFree : conditions.orderMatters = false)
    (hWhole : dive = true → conditions.splitsDeclarations = false) (hGlob : p.glob? = none)
    (cs : List Site) (b : Branch) :
    conditions.enumeration.scan dive (p :: ps) cs b =
      (Spot.positions dive cs).flatMap fun spot =>
        (conditions.ways p spot.site (b.anchor (some spot.site))).flatMap fun b =>
          conditions.enumeration.scan dive ps spot.following b := by
  have hNoSplit : (dive && conditions.rules.any Rules.declarationSplit) = false := by
    cases dive with
    | false => rfl
    | true => exact hWhole rfl
  rw [Enumeration.scan_cons _ dive hGlob, Enumeration.chosen]
  simp only [enumeration, hFree, Bool.false_eq_true, if_false]
  refine List.flatMap_congr fun spot _ => ?_
  simp only [Enumeration.scanFrom, Enumeration.atSpot, hNoSplit, Bool.false_eq_true, if_false,
    List.append_nil, List.flatMap_map, List.drop_zero]

/-- A scan in any order lists its chains in lexicographic order. The induction is on the
patterns. -/
theorem enumerates_scan (hFree : conditions.orderMatters = false)
    (hWhole : dive = true → conditions.splitsDeclarations = false)
    (hGlobs : ∀ p ∈ ps, p.glob? = none) (cs : List Site) (b : Branch) :
    Enumerates (conditions.enumeration.scan dive ps cs b) fun choices b' =>
      ∃ spots, conditions.Chain dive ps cs b spots choices b' := by
  induction ps generalizing cs b with
  | nil =>
      rw [Enumeration.scan_nil]
      refine (Enumerates.one b).congr fun choices b' => ?_
      simp [chain_nil_iff]
  | cons p ps ih =>
      obtain ⟨hGlob, hGlobs⟩ := List.forall_mem_cons.1 hGlobs
      rw [scan_cons_free hFree hWhole hGlob]
      have hWays := fun spot : Spot => Enumerates.flatMap (fun b => ih hGlobs spot.following b)
        (conditions.ways p spot.site (b.anchor (some spot.site)))
      refine (Enumerates.flatMap hWays (Spot.positions dive cs)).congr fun choices b' => ?_
      exact exists_chain_cons_iff.symm

/-- What scanning a list means. For a pattern without globs, where order does not matter and no
declaration is split, the search comes by the ends of the chains of places along which the elements
match, in the lexicographic order of the first place, the way to match there, the second place and so
on; whatever follows, it stops at the least chain that is not turned down. The places are those of
the list and, if the search dives, of all statement lists nested below its members; without diving
they are the members at increasing numbers. -/
theorem scan_follows_chains (conditions : Conditions) {dive : Bool} {ps : List Node}
    {cs : List Site} {height : Nat} (hFree : conditions.orderMatters = false)
    (hWhole : dive = true → conditions.splitsDeclarations = false)
    (hGlobs : ∀ p ∈ ps, p.glob? = none) (hHeight : ∀ c ∈ cs, c.node.height ≤ height) (b : Branch) :
    (ListMatcher.scan ⟨conditions, conditions.nodeAt height, height⟩ dive ps cs b).InOrderOf
        (fun choices b' => ∃ spots, conditions.Chain dive ps cs b spots choices b') ∧
      (∀ list spot, spot ∈ Spot.positions dive list ↔ Spot.Offered dive list spot) ∧
      (dive = false → ∀ spots, (∃ numbers, Spot.Trail dive cs numbers spots) ↔
        ∃ indices : List Nat, indices.Pairwise (· < ·) ∧
          indices.map (Spot.ofNumber? cs) = spots.map some) := by
  refine ⟨Search.inOrderOf ?_, fun list spot => Spot.mem_positions_iff, ?_⟩
  · rw [(conditions.nodeAt_lists height).scan_eq dive hHeight]
    exact enumerates_scan hFree hWhole hGlobs cs b
  · rintro rfl spots
    exact Spot.trail_iff_increasing

/-- The first call fits by itself, but only the calls in the block have the same argument. -/
theorem scan_follows_chains_nested :
    let call (name : String) (argument : Node) : Node := .expr (.call (.ident name) [argument])
    let x : Node := .wildcard ⟨some "x", .scalar⟩
    let patterns : List Node := [call "f" x, call "g" x]
    let program : Node := .program [call "f" (.int 1), .block [call "f" (.int 2), call "g" (.int 2)]]
    let candidates : List Site := (Site.root program).children
    let conditions : Conditions := ⟨[], none, false⟩
    ∃ b, ((ListMatcher.scan ⟨conditions, conditions.nodeAt 5, 5⟩ true patterns candidates .start).stopAt
        fun _ => true).1 = some b ∧
      ∃ choices, (∃ spots, conditions.Chain true patterns candidates .start spots choices b) ∧
        ∀ choices' spots b', conditions.Chain true patterns candidates .start spots choices' b' →
          ¬ choices' < choices := by
  intro call x patterns program candidates conditions
  have hFound : ((ListMatcher.scan ⟨conditions, conditions.nodeAt 5, 5⟩ true patterns candidates
      .start).stopAt fun _ => true).1.isSome = true := by
    decide +kernel
  obtain ⟨b, hb⟩ := Option.isSome_iff_exists.1 hFound
  have hChains := (@scan_follows_chains conditions true patterns candidates 5 rfl (fun _ => rfl)
    (by decide +kernel) (by decide +kernel) .start).1
  obtain ⟨-, choices, hChain, hLeast⟩ := (hChains.stops _ b).1 hb
  exact ⟨b, hb, choices, hChain, fun choices' spots b' hOther =>
    hLeast choices' b' ⟨spots, hOther⟩ rfl⟩

end Conditions

end CodeShape
