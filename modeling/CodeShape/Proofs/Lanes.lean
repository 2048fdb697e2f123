import CodeShape.Proofs.Depth
import Mathlib.Data.List.Nodup

/-! Lists of neighbours in a tree. Sites of one list are apart, and only those with successive
numbers are side by side; sites in different slots of a node are neither. -/
namespace CodeShape

namespace Site

/-- Nothing is at or below both sites. -/
def Apart (s t : Site) : Prop := ∀ path, s.path <+: path → ¬ t.path <+: path

theorem Apart.ne {s t : Site} (h : Apart s t) : s ≠ t := by
  rintro rfl
  exact h s.path (List.prefix_refl _) (List.prefix_refl _)

/-- The path of a site starts the paths of all below it. -/
theorem path_leads {s x : Site} (h : x ∈ s.descendants) : s.path <+: x.path := by
  obtain ⟨q, hPath, -⟩ := mem_descendants_iff.1 h
  exact ⟨q, hPath.symm⟩

/-- What lies below sites apart lies apart. -/
theorem Apart.descendants {s t x y : Site} (h : Apart s t) (hx : x ∈ s.descendants)
    (hy : y ∈ t.descendants) : Apart x y :=
  fun path hxPath hyPath =>
    h path ((path_leads hx).trans hxPath) ((path_leads hy).trans hyPath)

theorem apart_of_paths {s t : Site} {q : List Nat} {i j : Nat} (hs : s.path = q ++ [i])
    (ht : t.path = q ++ [j]) (hij : i ≠ j) : Apart s t := by
  rintro path ⟨r, hr⟩ ⟨r', hr'⟩
  rw [hs, ← hr', ht, List.append_assoc, List.append_assoc] at hr
  have hHead := List.append_cancel_left hr
  exact hij (List.cons.inj hHead).1

/-- The second site comes right after the first in a list of the tree. -/
def Beside (top s t : Site) : Prop :=
  ∃ d ∈ top.descendants, ∃ pairing list, .seq pairing list ∈ d.fields ∧ [s, t] <:+: list

/-- The children in one list have successive numbers. -/
theorem path_of_seq {d : Site} {pairing : Pairing} {list : List Site}
    (h : .seq pairing list ∈ d.fields) :
    ∃ start, ∀ {i s}, list[i]? = some s → s.path = d.path ++ [start + i] := by
  have hNumber : ∀ (start : Nat) (fields : List (Field Node)) (items : List (Nat × Node)),
      .seq pairing items ∈ Field.numberAll start fields →
      ∃ (first : Nat) (children : List Node),
        items = (children.zipIdx first).map fun pair => (pair.2, pair.1) := by
    intro start fields items hItems
    induction fields generalizing start with
    | nil => cases hItems
    | cons field fields ih =>
        rcases List.mem_cons.1 hItems with hField | hRest
        · cases field with
          | seq _ children =>
              cases hField
              exact ⟨start, children, rfl⟩
          | _ => cases hField
        · exact ih _ hRest
  obtain ⟨field, hField, hMap⟩ := List.mem_map.1 h
  cases field with
  | seq pairing' items =>
      cases hMap
      obtain ⟨first, children, rfl⟩ := hNumber 0 _ _ hField
      refine ⟨first, ?_⟩
      intro i s hs
      rw [List.map_map, List.getElem?_map] at hs
      obtain ⟨⟨c, k⟩, hItem, rfl⟩ := Option.map_eq_some_iff.1 hs
      rw [List.getElem?_zipIdx] at hItem
      obtain ⟨c', -, hPair⟩ := Option.map_eq_some_iff.1 hItem
      cases hPair
      rfl
  | _ => cases hMap

/-- Neighbours are numbered one after the other below one site. -/
theorem Beside.paths {top s t : Site} (h : Beside top s t) :
    ∃ q i, s.path = q ++ [i] ∧ t.path = q ++ [i + 1] := by
  obtain ⟨d, -, pairing, list, hField, left, right, rfl⟩ := h
  obtain ⟨start, hPath⟩ := path_of_seq hField
  refine ⟨d.path, start + left.length, hPath ?_, ?_⟩
  · simp
  · rw [Nat.add_assoc]
    refine hPath ?_
    simp

/-- Only the tops of two parts of a tree that are apart can be side by side. -/
theorem eq_of_beside {top c d x y : Site} (hc : c ∈ top.descendants) (hd : d ∈ top.descendants)
    (hApart : Apart c d) (hx : x ∈ c.descendants) (hy : y ∈ d.descendants)
    (h : Beside top x y ∨ Beside top y x) : x = c ∧ y = d := by
  -- a site strictly below its top has its neighbours below that top, too
  have hTop : ∀ {c z : Site} {q q' : List Nat} {i j : Nat}, z.path = c.path ++ q' →
      z.path = q ++ [i] → q' ≠ [] → c.path <+: q ++ [j] := by
    intro c z q q' i j hz hzi hne
    obtain ⟨init, last, rfl⟩ := List.eq_nil_or_concat q' |>.resolve_left hne
    rw [hz, List.concat_eq_append, ← List.append_assoc] at hzi
    have hq : c.path ++ init = q := (List.append_inj' hzi rfl).1
    exact ⟨init ++ [j], by rw [← hq, List.append_assoc]⟩
  obtain ⟨p, hp, -⟩ := mem_descendants_iff.1 hx
  obtain ⟨r, hr, -⟩ := mem_descendants_iff.1 hy
  obtain ⟨q, i, j, hxPath, hyPath⟩ :
      ∃ q i j, x.path = q ++ [i] ∧ y.path = q ++ [j] := by
    rcases h with h | h
    · obtain ⟨q, i, hxPath, hyPath⟩ := h.paths
      exact ⟨q, i, i + 1, hxPath, hyPath⟩
    · obtain ⟨q, i, hyPath, hxPath⟩ := h.paths
      exact ⟨q, i + 1, i, hxPath, hyPath⟩
  constructor
  · by_cases hne : p = []
    · rw [hne, List.append_nil] at hp
      exact eq_of_path_eq (mem_descendants_trans hc hx) hc hp
    · have hPrefix := hTop (j := j) hp hxPath hne
      rw [← hyPath] at hPrefix
      exact absurd (path_leads hy) (hApart _ hPrefix)
  · by_cases hne : r = []
    · rw [hne, List.append_nil] at hr
      exact eq_of_path_eq (mem_descendants_trans hd hy) hd hr
    · have hPrefix := hTop (j := i) hr hyPath hne
      rw [← hxPath] at hPrefix
      exact absurd hPrefix (hApart _ (path_leads hx))

/-- Apart and not side by side. -/
structure Remote (top s t : Site) : Prop where
  apart : Apart s t
  before : ¬ Beside top s t
  after : ¬ Beside top t s

/-- What lies below remote sites is remote. -/
theorem Remote.descendants {top c d x y : Site} (h : Remote top c d) (hc : c ∈ top.descendants)
    (hd : d ∈ top.descendants) (hx : x ∈ c.descendants) (hy : y ∈ d.descendants) :
    Remote top x y := by
  refine ⟨h.apart.descendants hx hy, fun hBeside => ?_, fun hBeside => ?_⟩
  · obtain ⟨rfl, rfl⟩ := eq_of_beside hc hd h.apart hx hy (.inl hBeside)
    exact h.before hBeside
  · obtain ⟨rfl, rfl⟩ := eq_of_beside hc hd h.apart hx hy (.inr hBeside)
    exact h.after hBeside

theorem nodup_children (d : Site) : d.children.Nodup := by
  refine List.Nodup.of_map path ?_
  rw [children_eq, List.map_map]
  change (d.node.children.zipIdx.map ((fun i => d.path ++ [i]) ∘ Prod.snd)).Nodup
  rw [← List.map_map, List.zipIdx_map_snd, ← List.range_eq_range']
  exact List.nodup_range.map fun i j h => (List.cons.inj (List.append_cancel_left h)).1

/-- The slots of a site share no part. -/
theorem disjoint_fields (d : Site) :
    d.fields.Pairwise fun g g' => ∀ s ∈ g.toList, s ∉ g'.toList := by
  have hNodup : (d.fields.flatMap Field.toList).Nodup := d.nodup_children
  have hPairs := (List.nodup_flatMap.1 hNodup).2
  exact hPairs.imp fun {g g'} hDisjoint s hs hs' => hDisjoint hs hs'

/-- Children in different slots are remote. -/
theorem remote_fields {top d : Site} (hd : d ∈ top.descendants) :
    d.fields.Pairwise fun g g' => ∀ s ∈ g.toList, ∀ t ∈ g'.toList, Remote top s t := by
  have hDisjoint := d.disjoint_fields
  -- a slot with a member in common with two slots would be both of them
  have hSlot : ∀ {i j : Nat} (hi : i < d.fields.length) (hj : j < d.fields.length) {x : Site},
      x ∈ d.fields[i].toList → x ∈ d.fields[j].toList → i = j := by
    intro i j hi hj x hxi hxj
    rcases Nat.lt_trichotomy i j with hLess | hEq | hMore
    · exact absurd hxj (List.pairwise_iff_getElem.1 hDisjoint i j hi hj hLess x hxi)
    · exact hEq
    · exact absurd hxi (List.pairwise_iff_getElem.1 hDisjoint j i hj hi hMore x hxj)
  rw [List.pairwise_iff_getElem]
  intro i j hi hj hij s hs t ht
  have hsChild : s ∈ d.children := mem_children_of_field (List.getElem_mem hi) hs
  have htChild : t ∈ d.children := mem_children_of_field (List.getElem_mem hj) ht
  obtain ⟨k, hsNode, hsPath⟩ := mem_children_iff.1 hsChild
  obtain ⟨l, htNode, htPath⟩ := mem_children_iff.1 htChild
  have hNumber : k ≠ l := by
    rintro rfl
    have hSame : s = t := eq_of_path_eq (mem_descendants_child hsChild)
      (mem_descendants_child htChild) (hsPath.trans htPath.symm)
    exact Nat.ne_of_lt hij (hSlot hi hj hs (hSame ▸ ht))
  -- a list that holds both would be a slot of the same node
  have hBeside : ∀ {x y : Site}, x ∈ d.children → Beside top x y → ∃ m,
      ∃ hm : m < d.fields.length, x ∈ d.fields[m].toList ∧ y ∈ d.fields[m].toList := by
    rintro x y hxChild ⟨e, he, pairing, list, hField, hInfix⟩
    have hx : x ∈ list := hInfix.subset (by simp)
    have hy : y ∈ list := hInfix.subset (by simp)
    obtain ⟨_, -, hxPath⟩ := mem_children_iff.1 hxChild
    obtain ⟨_, -, hxPath'⟩ := mem_children_iff.1 (mem_children_of_field hField hx)
    have hPath : e.path = d.path := (List.append_inj' (hxPath'.symm.trans hxPath) rfl).1
    obtain rfl : e = d := eq_of_path_eq he hd hPath
    obtain ⟨m, hm, hAt⟩ := List.getElem_of_mem hField
    exact ⟨m, hm, by rw [hAt]; exact hx, by rw [hAt]; exact hy⟩
  refine ⟨apart_of_paths hsPath htPath hNumber, fun h => ?_, fun h => ?_⟩
  · obtain ⟨m, hm, hsm, htm⟩ := hBeside hsChild h
    exact Nat.ne_of_lt hij ((hSlot hi hm hs hsm).trans (hSlot hj hm ht htm).symm)
  · obtain ⟨m, hm, htm, hsm⟩ := hBeside htChild h
    exact Nat.ne_of_lt hij ((hSlot hi hm hs hsm).trans (hSlot hj hm ht htm).symm)

/-- Where a run of neighbours can stand: a list in the tree, a statement of its own, or the top. -/
inductive Houses (top : Site) : List Site → Prop where
  | seq {d : Site} {pairing : Pairing} {list : List Site} (hd : d ∈ top.descendants)
      (hField : .seq pairing list ∈ d.fields) : Houses top list
  | stmt {d s : Site} (hd : d ∈ top.descendants) (hField : .stmt (some s) ∈ d.fields) :
      Houses top [s]
  | whole : Houses top [top]

theorem Houses.mem_descendants {top s : Site} {list : List Site} (h : Houses top list)
    (hs : s ∈ list) : s ∈ top.descendants := by
  cases h with
  | seq hd hField =>
      exact mem_descendants_trans hd (mem_descendants_child (mem_children_of_field hField hs))
  | stmt hd hField =>
      refine mem_descendants_trans hd (mem_descendants_child (mem_children_of_field hField ?_))
      simpa [Field.toList] using hs
  | whole => exact List.mem_singleton.1 hs ▸ mem_descendants_self top

/-- A tail of a list in which a run can stand. -/
def Lane (top : Site) (cs : List Site) : Prop := ∃ list, Houses top list ∧ cs <:+ list

namespace Lane

variable {top s t u : Site} {cs cs' : List Site}

theorem suffix (h : Lane top cs) (hTail : cs' <:+ cs) : Lane top cs' := by
  obtain ⟨list, hList, hcs⟩ := h
  exact ⟨list, hList, hTail.trans hcs⟩

theorem mem_descendants (h : Lane top cs) (hs : s ∈ cs) : s ∈ top.descendants := by
  obtain ⟨list, hList, hcs⟩ := h
  exact hList.mem_descendants (hcs.subset hs)

/-- Unless there is just one member, the members are numbered in succession. -/
theorem consecutive (h : Lane top cs) :
    cs.length ≤ 1 ∨ ∃ q start, ∀ {i} {s : Site}, cs[i]? = some s → s.path = q ++ [start + i] := by
  obtain ⟨list, hList, left, hLeft⟩ := h
  cases hList with
  | @seq d _ _ hd hField =>
      obtain ⟨start, hPath⟩ := path_of_seq hField
      refine .inr ⟨d.path, start + left.length, ?_⟩
      intro i s hs
      rw [Nat.add_assoc]
      refine hPath ?_
      rw [← hLeft, List.getElem?_append_right (Nat.le_add_right _ _), Nat.add_sub_cancel_left]
      exact hs
  | stmt | whole =>
      have hLength := congrArg List.length hLeft
      simp only [List.length_append, List.length_singleton] at hLength
      exact .inl (by omega)

/-- A later member has a greater number. -/
theorem paths (h : Lane top (s :: cs)) {i : Nat} (ht : cs[i]? = some t) :
    ∃ q k, s.path = q ++ [k] ∧ t.path = q ++ [k + (i + 1)] := by
  rcases h.consecutive with hOne | ⟨q, start, hPath⟩
  · simp only [List.length_cons] at hOne
    have hNone : cs = [] := List.eq_nil_of_length_eq_zero (by omega)
    rw [hNone] at ht
    cases ht
  · exact ⟨q, start, by simpa using hPath (i := 0) rfl, hPath (i := i + 1) (by simpa using ht)⟩

/-- The sites of a lane lie apart. -/
theorem apart (h : Lane top (s :: cs)) (ht : t ∈ cs) : Apart s t := by
  obtain ⟨i, ht⟩ := List.mem_iff_getElem?.1 ht
  obtain ⟨q, k, hs, ht⟩ := h.paths ht
  exact apart_of_paths hs ht (by omega)

/-- In a lane no site is beside one before it. -/
theorem not_beside_back (h : Lane top (s :: cs)) (ht : t ∈ cs) : ¬ Beside top t s := by
  intro hBeside
  obtain ⟨i, ht⟩ := List.mem_iff_getElem?.1 ht
  obtain ⟨q, k, hs, ht⟩ := h.paths ht
  obtain ⟨q', k', ht', hs'⟩ := hBeside.paths
  have hNumbers := (List.append_inj' (hs'.symm.trans hs) rfl).2
  have hNumbers' := (List.append_inj' (ht'.symm.trans ht) rfl).2
  simp only [List.cons.injEq, and_true] at hNumbers hNumbers'
  omega

/-- In a lane only the next site is beside one. -/
theorem not_beside_far (h : Lane top (s :: t :: cs)) (hu : u ∈ cs) : ¬ Beside top s u := by
  intro hBeside
  obtain ⟨i, hu⟩ := List.mem_iff_getElem?.1 hu
  obtain ⟨q, k, hs, hu⟩ := h.paths (i := i + 1) (by simpa using hu)
  obtain ⟨q', k', hs', hu'⟩ := hBeside.paths
  have hNumbers := (List.append_inj' (hs'.symm.trans hs) rfl).2
  have hNumbers' := (List.append_inj' (hu'.symm.trans hu) rfl).2
  simp only [List.cons.injEq, and_true] at hNumbers hNumbers'
  omega

/-- No site is twice in a lane. -/
theorem nodup (h : Lane top cs) : cs.Nodup := by
  induction cs with
  | nil => exact .nil
  | cons s cs ih =>
      refine List.nodup_cons.2 ⟨fun hMem => ?_, ih (h.suffix (List.suffix_cons s cs))⟩
      exact (h.apart hMem).ne rfl

/-- What comes earlier is apart from what comes later, and never right after it. -/
theorem apart_append (h : Lane top (cs ++ cs')) (hs : s ∈ cs) (ht : t ∈ cs') :
    Apart s t ∧ ¬ Beside top t s := by
  obtain ⟨left, right, rfl⟩ := List.append_of_mem hs
  have hTail : Lane top (s :: (right ++ cs')) := h.suffix ⟨left, by simp⟩
  have hMem : t ∈ right ++ cs' := List.mem_append_right _ ht
  exact ⟨hTail.apart hMem, hTail.not_beside_back hMem⟩

/-- Only the first of what comes later can be right after something earlier. -/
theorem not_beside_append (h : Lane top (cs ++ t :: cs')) (hs : s ∈ cs) (hu : u ∈ cs') :
    ¬ Beside top s u := by
  obtain ⟨left, right, rfl⟩ := List.append_of_mem hs
  have hTail : Lane top (s :: (right ++ t :: cs')) := h.suffix ⟨left, by simp⟩
  cases right with
  | nil => exact hTail.not_beside_far hu
  | cons r right => exact hTail.not_beside_far (by simp [hu])

theorem not_beside_self : ¬ Beside top s s := by
  intro hBeside
  obtain ⟨q, k, hs, hs'⟩ := hBeside.paths
  have hNumbers := (List.append_inj' (hs.symm.trans hs') rfl).2
  simp only [List.cons.injEq, and_true] at hNumbers
  omega

/-- The places of a list with what follows them are lanes. -/
theorem of_mem_positions {dive : Bool} {spot : Spot} (h : Lane top cs)
    (hSpot : spot ∈ Spot.positions dive cs) : Lane top (spot.site :: spot.following) := by
  rcases Spot.mem_positions hSpot with hTail | ⟨upper, hUpper, d, hd, inner, hInner, hTail⟩
  · exact h.suffix hTail
  · have hdTop := mem_descendants_trans (h.mem_descendants hUpper) hd
    obtain ⟨e, he, hSeq | ⟨c, hStmt, rfl⟩⟩ := mem_nestedLists hInner
    · exact ⟨inner, .seq (mem_descendants_trans hdTop he) hSeq, hTail⟩
    · exact ⟨[c], .stmt (mem_descendants_trans hdTop he) hStmt, hTail⟩

end Lane

end Site

namespace Duty

/-- Different duties are about remote places. -/
def Remote (top : Site) (duty duty' : Duty) : Prop :=
  ∀ s ∈ duty.sites, ∀ t ∈ duty'.sites, Site.Remote top s t

/-- What holds between the slots of a node, and whatever is below them, holds between the duties. -/
theorem pairwise_of_ofFields? {r : Site → Site → Prop} {whole : Bool} {fs : List (Field Node)}
    {gs : List (Field Site)} {duties : List Duty} (h : ofFields? whole fs gs = some duties)
    (hSlots : gs.Pairwise fun g g' => ∀ c ∈ g.toList, ∀ d ∈ g'.toList,
      ∀ s ∈ c.descendants, ∀ t ∈ d.descendants, r s t) :
    duties.Pairwise fun duty duty' => ∀ s ∈ duty.sites, ∀ t ∈ duty'.sites, r s t := by
  induction fs generalizing gs duties with
  | nil =>
      cases h
      exact .nil
  | cons f fs ih =>
      cases gs with
      | nil =>
          cases h
          exact .nil
      | cons g gs =>
          obtain ⟨first, rest, hFirst, hRest, rfl⟩ := ofFields?_cons h
          obtain ⟨hHead, hTail⟩ := List.pairwise_cons.1 hSlots
          refine List.pairwise_append.2 ⟨?_, ih hRest hTail, ?_⟩
          · obtain ⟨p, c, -, rfl⟩ | ⟨p, c, -, -, rfl⟩ | ⟨_, _, ps, cs, -, -, rfl⟩ | ⟨-, rfl⟩ :=
              ofSlots?_cases hFirst
            · exact List.pairwise_singleton _ _
            · exact List.pairwise_singleton _ _
            · exact List.pairwise_singleton _ _
            · exact .nil
          · intro duty hDuty duty' hDuty' s hs t ht
            have hSlot : ofFields? whole [f] [g] = some first := by
              simp [ofFields?, hFirst]
            obtain ⟨g₁, hg₁, c, hc, hsBelow⟩ := exists_child_of_mem_sites hSlot hDuty hs
            obtain ⟨g₂, hg₂, d, hd, htBelow⟩ := exists_child_of_mem_sites hRest hDuty' ht
            obtain rfl := List.mem_singleton.1 hg₁
            exact hHead g₂ hg₂ c hc d hd s hsBelow t htBelow

/-- The duties of a site are about remote places. -/
theorem remote_of_ofNodes? {top c : Site} {p : Node} {duties : List Duty}
    (hc : c ∈ top.descendants) (h : ofNodes? p c = some duties) :
    duties.Pairwise (Remote top) := by
  rw [ofNodes?_eq] at h
  have hTop : ∀ g ∈ c.fields, ∀ s ∈ g.toList, s ∈ top.descendants := fun g hg s hs =>
    Site.mem_descendants_trans hc (Site.mem_descendants_child (Site.mem_children_of_field hg hs))
  refine pairwise_of_ofFields? h ((Site.remote_fields hc).imp_of_mem ?_)
  intro g g' hg hg' hRemote d hd e he s hs t ht
  exact (hRemote d hd e he).descendants (hTop g hg d hd) (hTop g' hg' e he) hs ht

/-- The candidates of a duty are in the tree; those of a list are neighbours there. -/
def Along (top : Site) : Duty → Prop
  | exact _ c | below _ c => c ∈ top.descendants
  | list _ _ cs => Site.Lane top cs

theorem Along.mem_descendants {top : Site} {duty : Duty} (h : duty.Along top) {s : Site}
    (hs : s ∈ duty.sites) : s ∈ top.descendants := by
  cases duty with
  | exact p c | below p c => exact List.mem_singleton.1 hs ▸ h
  | list pairing ps cs => exact Site.Lane.mem_descendants h hs

theorem along_of_ofFields? {top : Site} {whole : Bool} {fs : List (Field Node)}
    {gs : List (Field Site)} {duties : List Duty} (h : ofFields? whole fs gs = some duties)
    {d : Site} (hd : d ∈ top.descendants) (hSlots : gs ⊆ d.fields) :
    ∀ duty ∈ duties, duty.Along top := by
  induction fs generalizing gs duties with
  | nil =>
      cases h
      simp
  | cons f fs ih =>
      cases gs with
      | nil =>
          cases h
          simp
      | cons g gs =>
          obtain ⟨first, rest, hFirst, hRest, rfl⟩ := ofFields?_cons h
          have hg : g ∈ d.fields := hSlots List.mem_cons_self
          have hBelow : ∀ s ∈ g.toList, s ∈ top.descendants := fun s hs =>
            Site.mem_descendants_trans hd
              (Site.mem_descendants_child (Site.mem_children_of_field hg hs))
          refine List.forall_mem_append.2 ⟨?_, ih hRest (List.subset_of_cons_subset hSlots)⟩
          intro duty hDuty
          rcases ofSlots?_cases hFirst with
            ⟨p, c, hPair, rfl⟩ | ⟨p, c, rfl, rfl, rfl⟩ | ⟨_, _, ps, cs, rfl, rfl, rfl⟩ | ⟨-, rfl⟩
          · obtain rfl := List.mem_singleton.1 hDuty
            have hc : c ∈ top.descendants := by
              rcases hPair with ⟨-, rfl⟩ | ⟨-, rfl⟩ <;> exact hBelow c (by simp [Field.toList])
            cases whole <;> exact hc
          · obtain rfl := List.mem_singleton.1 hDuty
            rw [Along, Site.statements]
            split
            · next body hNode =>
                have hField : .seq .statements c.children ∈ c.fields := by
                  rw [Site.fields_of_body (.inr hNode)]
                  exact List.mem_singleton_self _
                exact ⟨c.children, .seq (hBelow c (by simp [Field.toList])) hField,
                  List.suffix_rfl⟩
            · exact ⟨[c], .stmt hd hg, List.suffix_rfl⟩
          · obtain rfl := List.mem_singleton.1 hDuty
            exact ⟨cs, .seq hd hg, List.suffix_rfl⟩
          · cases hDuty

end Duty

end CodeShape
