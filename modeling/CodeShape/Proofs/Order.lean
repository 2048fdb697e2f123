import CodeShape.Proofs.Placement
import CodeShape.Proofs.Records

/-! The order of a match. The parts of a pattern are matched with parts of the program in the order
of the text: what an earlier wildcard meets comes before what a later one meets, and after a
statement the search stays in its list and below. -/
namespace CodeShape

namespace Site

/-- The paths part at some node, and the first site is to the left there. -/
def Precedes (s t : Site) : Prop :=
  ∃ q i j, i < j ∧ q ++ [i] <+: s.path ∧ q ++ [j] <+: t.path

namespace Precedes

variable {s t x y : Site}

/-- Of two sites below one the one with the lower number comes first. -/
theorem of_paths {q : List Nat} {i j : Nat} (hs : s.path = q ++ [i]) (ht : t.path = q ++ [j])
    (hij : i < j) : Precedes s t :=
  ⟨q, i, j, hij, hs ▸ List.prefix_refl _, ht ▸ List.prefix_refl _⟩

/-- What lies below sites in order is in that order. -/
theorem descendants (h : Precedes s t) (hx : x ∈ s.descendants) (hy : y ∈ t.descendants) :
    Precedes x y := by
  obtain ⟨q, i, j, hij, hs, ht⟩ := h
  exact ⟨q, i, j, hij, hs.trans (path_leads hx), ht.trans (path_leads hy)⟩

/-- Sites in order lie apart. -/
theorem apart (h : Precedes s t) : Apart s t := by
  obtain ⟨q, i, j, hij, hs, ht⟩ := h
  intro path hsPath htPath
  have hSame : q ++ [i] = q ++ [j] := by
    refine List.IsPrefix.eq_of_length (List.prefix_of_prefix_length_le (hs.trans hsPath)
      (ht.trans htPath) ?_) ?_ <;> simp
  have hNumber := List.append_cancel_left hSame
  simp only [List.cons.injEq, and_true] at hNumber
  omega

/-- Sites in order have their paths in order. -/
theorem path_lt (h : Precedes s t) : s.path < t.path := by
  obtain ⟨q, i, j, hij, ⟨u, hs⟩, ⟨v, ht⟩⟩ := h
  rw [← hs, ← ht, List.append_assoc, List.append_assoc]
  exact List.append_left_lt (List.cons_lt_cons_iff.2 (.inl hij))

end Precedes

/-- The children of a site stand in order. -/
theorem precedes_children (d : Site) : d.children.Pairwise Precedes := by
  rw [children_eq, List.pairwise_map]
  have hNumbers : (d.node.children.zipIdx.map Prod.snd).Pairwise (· < ·) := by
    rw [List.zipIdx_map_snd]
    exact List.pairwise_lt_range'
  refine (List.pairwise_map.1 hNumbers).imp fun {a b} hLess => ?_
  exact Precedes.of_paths (q := d.path) rfl rfl hLess

/-- Children in different slots are in the order of the slots. -/
theorem precedes_fields (d : Site) :
    d.fields.Pairwise fun g g' => ∀ s ∈ g.toList, ∀ t ∈ g'.toList, Precedes s t :=
  (List.pairwise_flatMap.1 d.precedes_children).2

/-- The first site of a lane comes before the others. -/
theorem Lane.precedes {top s t : Site} {cs : List Site} (h : Lane top (s :: cs)) (ht : t ∈ cs) :
    Precedes s t := by
  obtain ⟨i, ht⟩ := List.mem_iff_getElem?.1 ht
  obtain ⟨q, k, hs, ht⟩ := h.paths ht
  exact .of_paths hs ht (by omega)

/-- The sites at the front of a lane come before those at its end. -/
theorem Lane.precedes_append {top s t : Site} {cs cs' : List Site} (h : Lane top (cs ++ cs'))
    (hs : s ∈ cs) (ht : t ∈ cs') : Precedes s t := by
  obtain ⟨left, right, rfl⟩ := List.append_of_mem hs
  have hTail : Lane top (s :: (right ++ cs')) := h.suffix ⟨left, by simp⟩
  exact hTail.precedes (List.mem_append_right _ ht)

/-- A tree is walked through in the order of the paths. -/
theorem pairwise_descendants (s : Site) : s.descendants.Pairwise fun x y => x.path < y.path := by
  induction hSize : sizeOf s.node using Nat.strongRecOn generalizing s with
  | ind size ih =>
      rw [descendants_eq, List.pairwise_cons, List.pairwise_flatMap]
      refine ⟨fun x hx => ?_, fun c hc => ?_, ?_⟩
      · obtain ⟨c, hc, hx⟩ := List.mem_flatMap.1 hx
        obtain ⟨i, -, hPath⟩ := mem_children_iff.1 hc
        obtain ⟨q, hq⟩ := path_leads hx
        rw [← hq, hPath, List.append_assoc]
        have hLess : s.path ++ [] < s.path ++ i :: q := List.append_left_lt (List.nil_lt_cons i q)
        simpa using hLess
      · exact ih _ (hSize ▸ sizeOf_lt_of_mem_children hc) c rfl
      · exact s.precedes_children.imp fun hLess x hx y hy => (hLess.descendants hx hy).path_lt

/-- In the walk through the tree, the first site is strictly before the second, and neither is inside
the other. -/
structure Before (top s t : Site) : Prop where
  visited : [s, t].Sublist top.descendants
  outside : t ∉ s.descendants
  inside : s ∉ t.descendants

/-- Sites in order come one before the other in any tree that holds them. -/
theorem Precedes.before {top s t : Site} (h : Precedes s t) (hs : s ∈ top.descendants)
    (ht : t ∈ top.descendants) : Before top s t where
  visited := by
    -- two different members of a list are in it in one order or the other
    have hOrder : ∀ items : List Site, s ∈ items → t ∈ items →
        s = t ∨ [s, t].Sublist items ∨ [t, s].Sublist items := by
      intro items
      induction items with
      | nil => intro hs; cases hs
      | cons x items ih =>
          intro hsMem htMem
          rcases List.mem_cons.1 hsMem with rfl | hs <;> rcases List.mem_cons.1 htMem with rfl | ht
          · exact .inl rfl
          · exact .inr (.inl (.cons_cons _ (List.singleton_sublist.2 ht)))
          · exact .inr (.inr (.cons_cons _ (List.singleton_sublist.2 hs)))
          · rcases ih hs ht with hSame | hThere | hBack
            · exact .inl hSame
            · exact .inr (.inl (.cons _ hThere))
            · exact .inr (.inr (.cons _ hBack))
    rcases hOrder top.descendants hs ht with rfl | hThere | hBack
    · exact absurd h.path_lt (List.lt_irrefl _)
    · exact hThere
    · have hLess := List.pairwise_iff_forall_sublist.1 top.pairwise_descendants hBack
      exact absurd hLess (List.lt_asymm h.path_lt)
  outside hMem := h.apart _ (path_leads hMem) (List.prefix_refl _)
  inside hMem := h.apart _ (List.prefix_refl _) (path_leads hMem)

/-- The second site is the first, or a statement in a list nested below it. -/
def Nests (u t : Site) : Prop := t = u ∨ ∃ d ∈ u.descendants, ∃ inner ∈ d.nestedLists, t ∈ inner

/-- What is nested in a site lies below it. -/
theorem Nests.mem_descendants {u t : Site} (h : Nests u t) : t ∈ u.descendants := by
  rcases h with rfl | ⟨d, hd, inner, hInner, ht⟩
  · exact mem_descendants_self t
  · exact mem_descendants_trans hd (mem_descendants_of_mem_nestedLists hInner ht)

/-- Nesting goes on inside of what is nested. -/
theorem Nests.trans {u v t : Site} (h : Nests u v) (h' : Nests v t) : Nests u t := by
  rcases h' with rfl | ⟨d, hd, hNested⟩
  · exact h
  · exact .inr ⟨d, mem_descendants_trans h.mem_descendants hd, hNested⟩

/-- The second site is in the sibling list of the first and after it, or a statement nested below one
of those later siblings. -/
def Follows (top s t : Site) : Prop :=
  ∃ later, Lane top (s :: later) ∧ ∃ u ∈ later, Nests u t

theorem Follows.before {top s t : Site} (h : Follows top s t) : Before top s t := by
  obtain ⟨later, hLane, u, hu, hNests⟩ := h
  have hBelow := hNests.mem_descendants
  refine ((hLane.precedes hu).descendants (mem_descendants_self s) hBelow).before ?_ ?_
  · exact hLane.mem_descendants List.mem_cons_self
  · exact mem_descendants_trans (hLane.mem_descendants (List.mem_cons_of_mem _ hu)) hBelow

end Site

open Site

/-- Every place that a list offers, and whatever follows it there, is nested below a member. -/
theorem Spot.exists_nests {dive : Bool} {cs : List Site} {spot : Spot}
    (h : spot ∈ positions dive cs) {s : Site} (hs : s ∈ spot.site :: spot.following) :
    ∃ u ∈ cs, Nests u s := by
  rcases mem_positions h with hTail | ⟨u, hu, d, hd, inner, hInner, hTail⟩
  · exact ⟨s, hTail.subset hs, .inl rfl⟩
  · exact ⟨u, hu, .inr ⟨d, hd, inner, hInner, hTail.subset hs⟩⟩

/-- The candidates of a task are in the tree, and its duties are about places in order. -/
def Task.Along (top : Site) : Task → Prop
  | node _ c => c ∈ top.descendants
  | duty d => d.Along top
  | duties ds => (∀ d ∈ ds, d.Along top) ∧
      ds.Pairwise fun d d' => ∀ s ∈ d.sites, ∀ t ∈ d'.sites, Precedes s t
  | fixed _ cs | scan _ _ cs => Lane top cs
  | spot _ _ _ place _ _ => Lane top (place.site :: place.following)

theorem Task.Along.mem_descendants {top : Site} {task : Task} (h : task.Along top) {s : Site}
    (hs : s ∈ task.sites) : s ∈ top.descendants := by
  cases task with
  | node p c => exact List.mem_singleton.1 hs ▸ h
  | duty d => exact Duty.Along.mem_descendants h hs
  | duties ds =>
      obtain ⟨d, hd, hs⟩ := List.mem_flatMap.1 hs
      exact (h.1 d hd).mem_descendants hs
  | fixed ps cs | scan dive ps cs => exact Lane.mem_descendants h hs
  | spot dive p ps place np nc =>
      refine Lane.mem_descendants h ?_
      rcases List.mem_cons.1 hs with rfl | hs
      · exact List.mem_cons_self
      · exact List.mem_cons_of_mem _ (List.mem_of_mem_take hs)

/-- The duties of a site in the tree are about sites in the tree. -/
theorem Task.along_of_ofNodes? {top c : Site} {p : Node} {ds : List Duty}
    (hc : c ∈ top.descendants) (h : Duty.ofNodes? p c = some ds) : (Task.duties ds).Along top := by
  rw [Duty.ofNodes?_eq] at h
  refine ⟨Duty.along_of_ofFields? h hc (List.Subset.refl _), Duty.pairwise_of_ofFields? h ?_⟩
  refine c.precedes_fields.imp ?_
  intro g g' hSlots d hd e he s hs t ht
  exact (hSlots d hd e he).descendants hs ht

namespace Log

/-- What is met lies below the sites of a region, and it is met in order. -/
structure InOrder (region : List Site) (captures : List (Wildcard × Binding)) : Prop where
  inside : ∀ entry ∈ captures, ∀ s ∈ entry.2.sites, ∃ c ∈ region, s ∈ c.descendants
  ordered : captures.Pairwise fun entry entry' =>
    ∀ s ∈ entry.2.sites, ∀ t ∈ entry'.2.sites, Precedes s t

namespace InOrder

variable {region region' : List Site} {captures captures' : List (Wildcard × Binding)}

theorem nil : InOrder region [] := ⟨by simp, .nil⟩

/-- One binding is in order by itself. -/
theorem one (w : Wildcard) (value : Binding) : InOrder value.sites [(w, value)] where
  inside entry hEntry s hs := by
    obtain rfl := List.mem_singleton.1 hEntry
    exact ⟨s, hs, mem_descendants_self s⟩
  ordered := List.pairwise_singleton _ _

/-- A region may be replaced by one that holds it. -/
theorem widen (h : InOrder region captures)
    (hWide : ∀ c ∈ region, ∃ c' ∈ region', c ∈ c'.descendants) : InOrder region' captures where
  inside entry hEntry s hs := by
    obtain ⟨c, hc, hBelow⟩ := h.inside entry hEntry s hs
    obtain ⟨c', hc', hAbove⟩ := hWide c hc
    exact ⟨c', hc', mem_descendants_trans hAbove hBelow⟩
  ordered := h.ordered

/-- Captures in one region come before those in a later one. -/
theorem append (h : InOrder region captures) (h' : InOrder region' captures')
    (hRegions : ∀ c ∈ region, ∀ c' ∈ region', Precedes c c') :
    InOrder (region ++ region') (captures ++ captures') where
  inside := by
    refine List.forall_mem_append.2 ⟨fun entry hEntry s hs => ?_, fun entry hEntry s hs => ?_⟩
    · obtain ⟨c, hc, hBelow⟩ := h.inside entry hEntry s hs
      exact ⟨c, List.mem_append_left _ hc, hBelow⟩
    · obtain ⟨c, hc, hBelow⟩ := h'.inside entry hEntry s hs
      exact ⟨c, List.mem_append_right _ hc, hBelow⟩
  ordered := by
    refine List.pairwise_append.2 ⟨h.ordered, h'.ordered, ?_⟩
    intro entry hEntry entry' hEntry' s hs t ht
    obtain ⟨c, hc, hsBelow⟩ := h.inside entry hEntry s hs
    obtain ⟨c', hc', htBelow⟩ := h'.inside entry' hEntry' t ht
    exact (hRegions c hc c' hc').descendants hsBelow htBelow

end InOrder

/-- The elements of a list are matched with members of a list, or with statements nested below them,
each after the one before it. -/
structure Lined (top : Site) (cs : List Site) (elements : List (Node × List Site)) : Prop where
  reached : ∀ element ∈ elements, ∀ t ∈ element.2, ∃ u ∈ cs, Nests u t
  single : ∀ element ∈ elements, element.1.glob? = none → ∃ s, element.2 = [s]
  following : elements.Pairwise fun element element' =>
    ∀ s ∈ element.2, ∀ t ∈ element'.2, Follows top s t

namespace Lined

variable {top : Site} {cs : List Site} {elements : List (Node × List Site)}

theorem nil : Lined top cs [] := ⟨by simp, by simp, .nil⟩

/-- The next element takes the front of a lane, and the others come after it. -/
theorem cons (p : Node) (run : List Site) {later : List Site} (hLane : Lane top (run ++ later))
    (hRun : p.glob? = none → ∃ s, run = [s]) (h : Lined top later elements) :
    Lined top (run ++ later) ((p, run) :: elements) where
  reached := by
    refine List.forall_mem_cons.2 ⟨fun t ht => ⟨t, List.mem_append_left _ ht, .inl rfl⟩, ?_⟩
    intro element hElement t ht
    obtain ⟨u, hu, hNests⟩ := h.reached element hElement t ht
    exact ⟨u, List.mem_append_right _ hu, hNests⟩
  single := List.forall_mem_cons.2 ⟨hRun, h.single⟩
  following := by
    refine List.pairwise_cons.2 ⟨fun element hElement s hs t ht => ?_, h.following⟩
    obtain ⟨u, hu, hNests⟩ := h.reached element hElement t ht
    obtain ⟨left, right, rfl⟩ := List.append_of_mem hs
    have hTail : Lane top (s :: (right ++ later)) := hLane.suffix ⟨left, by simp⟩
    exact ⟨right ++ later, hTail, u, List.mem_append_right _ hu, hNests⟩

/-- What is in order from a spot on is in order in the list of the spot. -/
theorem of_spot {dive : Bool} {spot : Spot} (hSpot : spot ∈ Spot.positions dive cs)
    (h : Lined top (spot.site :: spot.following) elements) : Lined top cs elements where
  reached element hElement t ht := by
    obtain ⟨u, hu, hNests⟩ := h.reached element hElement t ht
    obtain ⟨v, hv, hUpper⟩ := Spot.exists_nests hSpot hu
    exact ⟨v, hv, hUpper.trans hNests⟩
  single := h.single
  following := h.following

end Lined

end Log

/-- The elements of the list that a task scans. -/
def Task.elements : Task → List Node
  | scan _ ps _ => ps
  | _ => []

namespace Conditions.Records

variable {conditions : Conditions} {top : Site} {task : Task} {b b' : Branch} {log : Log}

/-- Whatever a search comes past, it comes past it in order. -/
theorem inOrder (h : conditions.Records task b b' log) (hAlong : task.Along top) :
    Log.InOrder task.sites log.captures := by
  -- an element and what follows it in its list
  have hOnward : ∀ {s : Site} {later : List Site} {first rest : List (Wildcard × Binding)},
      Lane top (s :: later) → Log.InOrder [s] first → Log.InOrder later rest →
      Log.InOrder (s :: later) (first ++ rest) := by
    intro s later first rest hLane hFirst hRest
    refine hFirst.append hRest fun s hs t ht => ?_
    rw [List.mem_singleton.1 hs]
    exact hLane.precedes ht
  induction h with
  | @wildcard w c =>
      have hOne := Log.InOrder.one w (w.valueAt c)
      rwa [w.sites_valueAt c] at hOne
  | hole | noDuties | fixedNil | scanNil => exact .nil
  | @form p form c duties b b' log _ _ _ hDuties _ ih =>
      refine (ih (Task.along_of_ofNodes? hAlong hDuties)).widen fun s hs => ?_
      obtain ⟨duty, hDuty, hs⟩ := List.mem_flatMap.1 hs
      rw [Duty.ofNodes?_eq] at hDuties
      obtain ⟨g, hg, x, hx, hBelow⟩ := Duty.exists_child_of_mem_sites hDuties hDuty hs
      exact ⟨c, List.mem_singleton_self c,
        mem_descendants_of_child (mem_children_of_field hg hx) hBelow⟩
  | @consDuties duty duties b b' b'' log log' _ _ ihFirst ihRest =>
      obtain ⟨hEach, hOrder⟩ := hAlong
      obtain ⟨hFirst, hRest⟩ := List.pairwise_cons.1 hOrder
      refine (ihFirst (hEach duty List.mem_cons_self)).append
        (ihRest ⟨fun d hd => hEach d (List.mem_cons_of_mem _ hd), hRest⟩) ?_
      intro s hs t ht
      obtain ⟨d, hd, ht⟩ := List.mem_flatMap.1 ht
      exact hFirst d hd s hs t ht
  | exact _ ih | fixed _ ih | ordered _ ih | statements _ ih => exact ih hAlong
  | @within p c d b b' log hd _ _ ih =>
      refine (ih (mem_descendants_trans hAlong hd)).widen fun s hs => ?_
      exact ⟨c, List.mem_singleton_self c, List.mem_singleton.1 hs ▸ hd⟩
  | @fixedLast p w cs => exact Log.InOrder.one w (.many cs)
  | @fixedGlob p q qs w run rest b b' b'' log _ _ _ ih =>
      exact (Log.InOrder.one w (.many run)).append (ih (hAlong.suffix (List.suffix_append run rest)))
        fun s hs t ht => hAlong.precedes_append hs ht
  | @fixedCons p ps c cs b b' b'' log log' _ _ _ ihFirst ihRest =>
      exact hOnward hAlong (ihFirst (hAlong.mem_descendants List.mem_cons_self))
        (ihRest (hAlong.suffix (List.suffix_cons c cs)))
  | @scanCons dive p ps cs spot b b' b'' log log' _ hSpot _ _ ihFirst ihRest =>
      have hLane := hAlong.of_mem_positions hSpot
      have hBoth := hOnward hLane (ihFirst (hLane.mem_descendants List.mem_cons_self))
        (ihRest (hLane.suffix (List.suffix_cons _ _)))
      exact hBoth.widen fun s hs => Spot.mem_descendants_of_mem_positions hSpot hs
  | @scanLast dive p w cs => exact Log.InOrder.one w (.many cs)
  | @scanGlob dive p q qs w run spot b b' b'' b''' log log' _ _ _ _ ihFirst ihRest =>
      have hLane : Lane top (spot.site :: spot.following) :=
        hAlong.suffix (List.suffix_append run _)
      have hBoth := hOnward hLane (ihFirst (hLane.mem_descendants List.mem_cons_self))
        (ihRest (hLane.suffix (List.suffix_cons _ _)))
      exact (Log.InOrder.one w (.many run)).append hBoth
        fun s hs t ht => hAlong.precedes_append hs ht

/-- A record of a scan lists the elements of the pattern; no other record has an open list. -/
theorem elements_eq (h : conditions.Records task b b' log) :
    log.elements.map Prod.fst = task.elements := by
  induction h with
  | wildcard | hole | noDuties | ordered | statements | fixedNil | fixedLast | scanNil => rfl
  | form _ _ _ _ _ ih | exact _ ih | within _ _ _ ih | fixed _ ih => exact ih
  | consDuties _ _ ihFirst ihRest | fixedCons _ _ _ ihFirst ihRest =>
      simp [ihFirst, ihRest, Task.elements]
  | fixedGlob _ _ _ ih => simp [ih, Task.elements, Log.met]
  | scanCons _ _ _ _ ihFirst ihRest =>
      simp [ihFirst, ihRest, Task.elements, Log.element]
  | scanLast => simp [Task.elements, Log.element, Log.met]
  | scanGlob _ _ _ _ ihFirst ihRest =>
      simp [ihFirst, ihRest, Task.elements, Log.element, Log.met]

/-- A single node has no statements of a list to record. -/
theorem elements_of_node {p : Node} {c : Site} (h : conditions.Records (.node p c) b b' log) :
    log.elements = [] :=
  List.map_eq_nil_iff.1 h.elements_eq

/-- A scan matches its elements one after the other. -/
theorem lined {dive : Bool} {ps : List Node} {cs : List Site}
    (h : conditions.Records (.scan dive ps cs) b b' log) (hLane : Lane top cs) :
    Log.Lined top cs log.elements := by
  generalize hTask : Task.scan dive ps cs = task at h
  induction h generalizing ps cs with
  | scanNil => exact .nil
  | @scanCons dive p ps cs spot b b' b'' log log' _ hSpot first _ _ ihRest =>
      cases hTask
      have hHere := hLane.of_mem_positions hSpot
      have hRest := ihRest (hHere.suffix (List.suffix_cons _ _)) rfl
      refine .of_spot hSpot ?_
      have hBoth : Log.Lined top (spot.site :: spot.following) ((p, [spot.site]) :: log'.elements) :=
        .cons p [spot.site] hHere (fun _ => ⟨spot.site, rfl⟩) hRest
      simpa [Log.element, first.elements_of_node] using hBoth
  | @scanLast dive p w cs b b' hGlob =>
      cases hTask
      have hAll : Lane top (cs ++ []) := (List.append_nil cs).symm ▸ hLane
      have hOne := Log.Lined.nil.cons p cs hAll (by simp [hGlob])
      rwa [List.append_nil] at hOne
  | @scanGlob dive p q qs w run spot b b' b'' b''' log log' hGlob _ first _ _ ihRest =>
      cases hTask
      have hHere : Lane top (spot.site :: spot.following) :=
        hLane.suffix (List.suffix_append run _)
      have hRest := ihRest (hHere.suffix (List.suffix_cons _ _)) rfl
      have hBoth : Log.Lined top (spot.site :: spot.following) ((q, [spot.site]) :: log'.elements) :=
        .cons q [spot.site] hHere (fun _ => ⟨spot.site, rfl⟩) hRest
      simpa [Log.element, Log.met, first.elements_of_node] using
        hBoth.cons p run hLane (by simp [hGlob])
  | _ => cases hTask

/-- The elements of every statement list in the pattern are matched one after the other. -/
theorem bodies_lined (h : conditions.Records task b b' log) (hAlong : task.Along top) :
    ∀ body ∈ log.bodies, ∃ cs, Log.Lined top cs body := by
  induction h with
  | wildcard | hole | noDuties | fixedNil | fixedLast | scanNil | scanLast =>
      intro body hBody
      cases hBody
  | form _ _ _ hDuties _ ih => exact ih (Task.along_of_ofNodes? hAlong hDuties)
  | consDuties _ _ ihFirst ihRest =>
      obtain ⟨hEach, hOrder⟩ := hAlong
      refine List.forall_mem_append.2 ⟨ihFirst (hEach _ List.mem_cons_self), ihRest ⟨?_, ?_⟩⟩
      · exact fun d hd => hEach d (List.mem_cons_of_mem _ hd)
      · exact (List.pairwise_cons.1 hOrder).2
  | exact _ ih | fixed _ ih | ordered _ ih => exact ih hAlong
  | statements done ih =>
      exact List.forall_mem_cons.2 ⟨⟨_, done.lined hAlong⟩, ih hAlong⟩
  | within hd _ _ ih => exact ih (mem_descendants_trans hAlong hd)
  | fixedGlob _ _ _ ih => exact ih (hAlong.suffix (List.suffix_append _ _))
  | fixedCons _ _ _ ihFirst ihRest =>
      exact List.forall_mem_append.2 ⟨ihFirst (hAlong.mem_descendants List.mem_cons_self),
        ihRest (hAlong.suffix (List.suffix_cons _ _))⟩
  | scanCons _ hSpot _ _ ihFirst ihRest =>
      have hLane := hAlong.of_mem_positions hSpot
      exact List.forall_mem_append.2 ⟨ihFirst (hLane.mem_descendants List.mem_cons_self),
        ihRest (hLane.suffix (List.suffix_cons _ _))⟩
  | scanGlob _ _ _ _ ihFirst ihRest =>
      have hLane := hAlong.suffix (List.suffix_append _ _)
      refine List.forall_mem_append.2 ⟨fun body hBody => (nomatch hBody), ?_⟩
      exact List.forall_mem_append.2 ⟨ihFirst (hLane.mem_descendants List.mem_cons_self),
        ihRest (hLane.suffix (List.suffix_cons _ _))⟩

end Conditions.Records

/-- The statements are the body of a program or block in the tree. -/
def Node.HasBody (n : Node) (ps : List Node) : Prop :=
  .program ps ∈ n.descendants ∨ .block ps ∈ n.descendants

/-- A body of a node is its own or one of a child. -/
theorem Node.hasBody_iff {n : Node} {ps : List Node} :
    n.HasBody ps ↔ (n = .program ps ∨ n = .block ps) ∨ ∃ c ∈ n.children, c.HasBody ps := by
  rw [HasBody, mem_descendants_iff, mem_descendants_iff]
  constructor
  · rintro ((h | ⟨c, hc, h⟩) | (h | ⟨c, hc, h⟩))
    · exact .inl (.inl h.symm)
    · exact .inr ⟨c, hc, .inl h⟩
    · exact .inl (.inr h.symm)
    · exact .inr ⟨c, hc, .inr h⟩
  · rintro ((h | h) | ⟨c, hc, h | h⟩)
    · exact .inl (.inl h.symm)
    · exact .inr (.inl h.symm)
    · exact .inl (.inr ⟨c, hc, h⟩)
    · exact .inr (.inr ⟨c, hc, h⟩)

namespace Duty

/-- The statements are a list that the duty scans for, or a body in its patterns. -/
def HasBody (duty : Duty) (ps : List Node) : Prop :=
  (∃ cs, duty = .list .statements ps cs) ∨ ∃ p ∈ duty.patterns, p.HasBody ps

/-- A body in a slot is searched by one of the slot's duties or lies deeper. -/
theorem exists_hasBody_of_ofSlots? {whole : Bool} {f : Field Node} {g : Field Site}
    {duties : List Duty} (h : ofSlots? whole f g = some duties) {ps : List Node}
    (hBody : f = .seq .statements ps ∨ ∃ p ∈ f.toList, p.HasBody ps) :
    ∃ duty ∈ duties, duty.HasBody ps := by
  rcases ofSlots?_cases h with
    ⟨q, c, hSlots, rfl⟩ | ⟨q, c, rfl, -, rfl⟩ | ⟨_, _, qs, cs, rfl, -, rfl⟩ | ⟨hNone, rfl⟩
  · refine ⟨_, List.mem_singleton_self _, .inr ⟨q, by cases whole <;> simp [patterns], ?_⟩⟩
    rcases hSlots with ⟨rfl, -⟩ | ⟨rfl, -⟩ <;> simpa [Field.toList] using hBody
  · refine ⟨_, List.mem_singleton_self _, ?_⟩
    have hq : q.HasBody ps := by simpa [Field.toList] using hBody
    unfold statements
    split
    · next body =>
        rcases Node.hasBody_iff.1 hq with (hSelf | hSelf) | ⟨p, hp, hInner⟩
        · cases hSelf
        · cases hSelf
          exact .inl ⟨_, rfl⟩
        · exact .inr ⟨p, by
            simpa [Node.children, Node.fields, Field.toList, patterns] using hp, hInner⟩
    · exact .inr ⟨q, List.mem_singleton_self q, hq⟩
  · refine ⟨_, List.mem_singleton_self _, ?_⟩
    rcases hBody with hBody | ⟨p, hp, hInner⟩
    · cases hBody
      exact .inl ⟨cs, rfl⟩
    · exact .inr ⟨p, hp, hInner⟩
  · rcases hNone with rfl | rfl <;> simp [Field.toList] at hBody

/-- A body in a row of slots is searched by one of their duties or lies deeper. -/
theorem exists_hasBody_of_ofFields? {whole : Bool} {fs : List (Field Node)}
    {gs : List (Field Site)} {duties : List Duty} (h : ofFields? whole fs gs = some duties)
    (hLength : fs.length = gs.length) {f : Field Node} (hf : f ∈ fs) {ps : List Node}
    (hBody : f = .seq .statements ps ∨ ∃ p ∈ f.toList, p.HasBody ps) :
    ∃ duty ∈ duties, duty.HasBody ps := by
  induction fs generalizing gs duties with
  | nil => cases hf
  | cons f' fs ih =>
      cases gs with
      | nil => cases hLength
      | cons g gs =>
          obtain ⟨first, rest, hFirst, hRest, rfl⟩ := ofFields?_cons h
          rcases List.mem_cons.1 hf with rfl | hf
          · obtain ⟨duty, hDuty, hFound⟩ := exists_hasBody_of_ofSlots? hFirst hBody
            exact ⟨duty, List.mem_append_left _ hDuty, hFound⟩
          · obtain ⟨duty, hDuty, hFound⟩ := ih hRest (Nat.succ.inj hLength) hf
            exact ⟨duty, List.mem_append_right _ hDuty, hFound⟩

/-- No statement list of a pattern is lost when its slots are paired with those of a candidate. -/
theorem exists_hasBody_of_ofNodes? {p : Node} {c : Site} {duties : List Duty}
    (hShape : p.sameShape c.node) (h : ofNodes? p c = some duties) {ps : List Node}
    (hBody : p.HasBody ps) : ∃ duty ∈ duties, duty.HasBody ps := by
  rw [ofNodes?_eq] at h
  have hLength : p.fields.length = c.fields.length := by
    rw [Node.length_fields_of_sameShape hShape, ← c.map_node_fields, List.length_map]
  rcases Node.hasBody_iff.1 hBody with hSelf | ⟨q, hq, hInner⟩
  · refine exists_hasBody_of_ofFields? h hLength (f := .seq .statements ps) ?_ (.inl rfl)
    rcases hSelf with rfl | rfl <;> exact List.mem_singleton_self _
  · obtain ⟨f, hf, hq⟩ := List.mem_flatMap.1 hq
    exact exists_hasBody_of_ofFields? h hLength hf (.inr ⟨q, hq, hInner⟩)

end Duty

/-- The statements are a body in the patterns of a task. -/
def Task.HasBody (ps : List Node) : Task → Prop
  | node p _ => p.HasBody ps
  | duty d => d.HasBody ps
  | duties ds => ∃ d ∈ ds, d.HasBody ps
  | fixed qs _ | scan _ qs _ => ∃ p ∈ qs, p.HasBody ps
  | spot _ p _ _ _ _ => p.HasBody ps

namespace Conditions

variable {conditions : Conditions}

/-- Without rules, every statement list in the pattern has its place in the record. -/
theorem Records.mem_bodies (hPlain : conditions.rules = none) {task : Task} {b b' : Branch}
    {log : Log} (h : conditions.Records task b b' log) {ps : List Node}
    (hBody : task.HasBody ps) : ps ∈ log.bodies.map (List.map Prod.fst) := by
  -- wildcards and holes have no bodies
  have hLeaf : ∀ {p : Node}, ¬ p.isConcrete → ¬ p.HasBody ps := by
    intro p hp hBody
    rcases Node.hasBody_iff.1 hBody with (rfl | rfl) | ⟨c, hc, -⟩
    · exact hp rfl
    · exact hp rfl
    · cases p with
      | wildcard | hole => cases hc
      | _ => exact hp rfl
  have hGlobs : ∀ {p : Node} {w : Wildcard}, p.glob? = some w → ¬ p.HasBody ps := by
    intro p w hGlob
    rw [(Node.eq_wildcard_of_glob? hGlob).1]
    exact hLeaf Bool.false_ne_true
  induction h with
  | wildcard | hole => exact absurd hBody (hLeaf Bool.false_ne_true)
  | form _ hForm hShape hDuties _ ih =>
      obtain rfl := eq_of_mem_forms hPlain hForm
      exact ih (Duty.exists_hasBody_of_ofNodes? hShape hDuties hBody)
  | noDuties =>
      obtain ⟨d, hd, -⟩ := hBody
      cases hd
  | consDuties _ _ ihFirst ihRest =>
      rw [Log.bodies_append, List.map_append, List.mem_append]
      obtain ⟨d, hd, hBody⟩ := hBody
      rcases List.mem_cons.1 hd with rfl | hd
      · exact .inl (ihFirst hBody)
      · exact .inr (ihRest ⟨d, hd, hBody⟩)
  | exact _ ih | within _ _ _ ih =>
      rcases hBody with ⟨cs, hBody⟩ | ⟨p, hp, hBody⟩
      · cases hBody
      · exact ih (List.mem_singleton.1 hp ▸ hBody)
  | fixed _ ih | ordered _ ih =>
      rcases hBody with ⟨cs, hBody⟩ | hBody
      · cases hBody
      · exact ih hBody
  | statements done ih =>
      rw [Log.closed, List.map_cons, List.mem_cons]
      rcases hBody with ⟨cs, hBody⟩ | hBody
      · cases hBody
        exact .inl done.elements_eq.symm
      · exact .inr (ih hBody)
  | fixedNil | scanNil =>
      obtain ⟨p, hp, -⟩ := hBody
      cases hp
  | fixedLast hGlob | scanLast hGlob =>
      obtain ⟨p, hp, hBody⟩ := hBody
      rw [List.mem_singleton.1 hp] at hBody
      exact absurd hBody (hGlobs hGlob)
  | fixedGlob hGlob _ _ ih =>
      obtain ⟨p, hp, hBody⟩ := hBody
      rcases List.mem_cons.1 hp with rfl | hp
      · exact absurd hBody (hGlobs hGlob)
      · exact ih ⟨p, hp, hBody⟩
  | fixedCons _ _ _ ihFirst ihRest | scanCons _ _ _ _ ihFirst ihRest =>
      rw [Log.bodies_append, List.map_append, List.mem_append]
      obtain ⟨p, hp, hBody⟩ := hBody
      rcases List.mem_cons.1 hp with rfl | hp
      · exact .inl (ihFirst hBody)
      · exact .inr (ihRest ⟨p, hp, hBody⟩)
  | scanGlob hGlob _ _ _ ihFirst ihRest =>
      simp only [Log.bodies_append, List.map_append, List.mem_append]
      obtain ⟨p, hp, hBody⟩ := hBody
      rcases List.mem_cons.1 hp with rfl | hp
      · exact absurd hBody (hGlobs hGlob)
      · rcases List.mem_cons.1 hp with rfl | hp
        · exact .inr (.inl (.inr (ihFirst hBody)))
        · exact .inr (.inr (ihRest ⟨p, hp, hBody⟩))

/-- A search opens on the sites of the tree. -/
theorem Opens.along {top : Site} {pattern : Node} {task : Task} {start : Branch}
    (h : Opens top pattern task start) : task.Along top := by
  cases h with
  | @statements ps cs hBody =>
      rcases hBody with hField | rfl
      · exact ⟨cs, .seq (mem_descendants_self top) hField, List.suffix_rfl⟩
      · exact ⟨[top], .whole, List.suffix_rfl⟩
  | nothing => exact ⟨by simp, .nil⟩
  | alone => exact mem_descendants_self top
  | anywhere hs => exact hs

end Conditions

/-- A record of a match is in the order of the text. It holds everything that is bound. -/
structure Log.KeepsOrder (top : Site) (pattern : Node) (b : Branch) (log : Log) : Prop where
  /-- The wildcards are met in the order of the pattern. -/
  wildcards : log.captures.map Prod.fst = pattern.wildcards
  /-- What is bound has been met. -/
  bound : ∀ value ∈ b.anonymous ++ b.named.map Prod.snd, value ∈ log.captures.map Prod.snd
  captures : log.captures.Pairwise fun entry entry' =>
    ∀ s ∈ entry.2.sites, ∀ t ∈ entry'.2.sites, Before top s t
  /-- Every longer statement list of the pattern is there. A single statement may also be matched
  without a list. -/
  complete : ∀ ps, pattern.HasBody ps → 2 ≤ ps.length →
    ps ∈ (log.elements :: log.bodies).map (List.map Prod.fst)
  /-- What is no glob is matched with one statement. -/
  single : ∀ body ∈ log.elements :: log.bodies, ∀ element ∈ body,
    element.1.glob? = none → ∃ s, element.2 = [s]
  statements : ∀ body ∈ log.elements :: log.bodies, body.Pairwise fun element element' =>
    ∀ s ∈ element.2, ∀ t ∈ element'.2, Before top s t ∧ Follows top s t

namespace Conditions

variable {conditions : Conditions}

/-- Without rules the lists that are recorded are bodies of the pattern. -/
theorem Records.mem_lists (hPlain : conditions.rules = none) {top : Site} {pattern : Node}
    {task : Task} {start b : Branch} {log : Log} (hOpens : Opens top pattern task start)
    (h : conditions.Records task start b log) {ps : List Node} (hBody : pattern.HasBody ps)
    (hLong : 2 ≤ ps.length) : ps ∈ (log.elements :: log.bodies).map (List.map Prod.fst) := by
  rw [List.map_cons, List.mem_cons]
  -- the body of the pattern itself is the list that is open
  cases hOpens with
  | statements =>
      rcases Node.hasBody_iff.1 hBody with (hSelf | hSelf) | ⟨p, hp, hInner⟩
      · cases hSelf
        exact .inl h.elements_eq.symm
      · cases hSelf
      · refine .inr (h.mem_bodies hPlain ⟨p, ?_, hInner⟩)
        simpa [Node.children, Node.fields, Field.toList] using hp
  | nothing =>
      rcases Node.hasBody_iff.1 hBody with (hSelf | hSelf) | ⟨p, hp, -⟩
      · cases hSelf
        simp at hLong
      · cases hSelf
      · cases hp
  | alone =>
      rcases Node.hasBody_iff.1 hBody with (hSelf | hSelf) | ⟨p, hp, hInner⟩
      · cases hSelf
        simp at hLong
      · cases hSelf
      · obtain rfl := List.mem_singleton.1 hp
        exact .inr (h.mem_bodies hPlain hInner)
  | anywhere => exact .inr (h.mem_bodies hPlain hBody)

/-- Every record of a search keeps its captures in order. -/
theorem Records.keepsOrder (hPlain : conditions.rules = none) {top : Site} {pattern : Node}
    {task : Task} {start b : Branch} {log : Log} (hOpens : Opens top pattern task start)
    (h : conditions.Records task start b log) : log.KeepsOrder top pattern b := by
  obtain ⟨hWildcards, hAnonymous, hNamed⟩ := hOpens.wildcards_eq
  have hAlong := hOpens.along
  have hOrder := h.inOrder hAlong
  have hGains := h.gains
  have hLists : ∀ body ∈ log.elements :: log.bodies, ∃ cs, Log.Lined top cs body := by
    refine List.forall_mem_cons.2 ⟨?_, h.bodies_lined hAlong⟩
    cases hOpens with
    | statements => exact ⟨_, h.lined hAlong⟩
    | nothing | alone | anywhere => exact ⟨[], List.map_eq_nil_iff.1 h.elements_eq ▸ .nil⟩
  have hTop : ∀ entry ∈ log.captures, ∀ s ∈ entry.2.sites, s ∈ top.descendants := by
    intro entry hEntry s hs
    obtain ⟨c, hc, hBelow⟩ := hOrder.inside entry hEntry s hs
    exact mem_descendants_trans (hAlong.mem_descendants hc) hBelow
  refine ⟨(h.wildcards_eq hPlain).trans hWildcards, ?_, ?_, ?_, ?_, ?_⟩
  · intro value hValue
    rcases List.mem_append.1 hValue with hNameless | hValue
    · rw [hGains.anonymous, hAnonymous, List.nil_append] at hNameless
      obtain ⟨entry, hEntry, rfl⟩ := List.mem_map.1 hNameless
      exact List.mem_map_of_mem (List.mem_of_mem_filter hEntry)
    · obtain ⟨entry, hEntry, rfl⟩ := List.mem_map.1 hValue
      rcases hGains.named entry hEntry with hOld | ⟨w, -, hMet⟩
      · rw [hNamed] at hOld
        cases hOld
      · exact List.mem_map.2 ⟨(w, entry.2), hMet, rfl⟩
  · refine hOrder.ordered.imp_of_mem ?_
    intro entry entry' hEntry hEntry' hBefore s hs t ht
    exact (hBefore s hs t ht).before (hTop entry hEntry s hs) (hTop entry' hEntry' t ht)
  · exact fun ps hBody hLong => h.mem_lists hPlain hOpens hBody hLong
  · intro body hBody
    obtain ⟨cs, hLined⟩ := hLists body hBody
    exact hLined.single
  · intro body hBody
    obtain ⟨cs, hLined⟩ := hLists body hBody
    refine hLined.following.imp ?_
    exact fun hFollows s hs t ht => ⟨(hFollows s hs t ht).before, hFollows s hs t ht⟩

/-- Without rules every successful search keeps the order of the text. Whatever way led to the
bindings, what a wildcard met comes before what any later wildcard met and is apart from it; so do
the statements that the elements of a statement list were matched with, and each of them is a later
sibling of those before it or nested below one. -/
theorem search_keeps_order (hPlain : conditions.rules = none) (pattern n : Node) :
    (∀ b ∈ (conditions.searchCode pattern (.root n)).solutions,
      (∃ opening ∈ openings pattern (.root n), ∃ log,
        conditions.Records opening.1 opening.2 b log) ∧
      ∀ opening ∈ openings pattern (.root n), ∀ log,
        conditions.Records opening.1 opening.2 b log → log.KeepsOrder (.root n) pattern b) ∧
    ∀ b ∈ (conditions.searchNode pattern (.root n)).solutions,
      (∃ opening ∈ openingsAt pattern (.root n), ∃ log,
        conditions.Records opening.1 opening.2 b log) ∧
      ∀ opening ∈ openingsAt pattern (.root n), ∀ log,
        conditions.Records opening.1 opening.2 b log → log.KeepsOrder (.root n) pattern b := by
  have hWhole := splitsDeclarations_of_plain hPlain
  refine ⟨fun b hb => ⟨exists_log_of_mem_searchCode hWhole hb, ?_⟩,
    fun b hb => ⟨exists_log_of_mem_searchNode hWhole hb, ?_⟩⟩
  · intro opening hOpening log hLog
    exact hLog.keepsOrder hPlain (opens_of_mem_openings hOpening)
  · intro opening hOpening log hLog
    exact hLog.keepsOrder hPlain (opens_of_mem_openingsAt hOpening)

/-- The statements `f($x); g($x);` are found in order in `f(1); { g(1); }`. -/
theorem search_keeps_order_nested :
    let call (name : String) (argument : Node) : Node := .expr (.call (.ident name) [argument])
    let x : Node := .wildcard ⟨some "x", .scalar⟩
    let pattern : Node := .program [call "f" x, call "g" x]
    let program : Node := .program [call "f" (.int 1), .block [call "g" (.int 1)]]
    let conditions : Conditions := ⟨[], none, false⟩
    ∃ b ∈ (conditions.searchCode pattern (.root program)).solutions,
      ∃ opening ∈ openings pattern (.root program), ∃ log,
        conditions.Records opening.1 opening.2 b log ∧ log.KeepsOrder (.root program) pattern b := by
  intro call x pattern program conditions
  have hFound : (conditions.searchCode pattern (.root program)).solutions.isEmpty = false := by
    decide +kernel
  obtain ⟨b, hb⟩ := List.exists_mem_of_ne_nil _ (List.isEmpty_eq_false_iff.1 hFound)
  have hPlain : conditions.rules = none := rfl
  obtain ⟨⟨opening, hOpening, log, hLog⟩, hAll⟩ :=
    (search_keeps_order hPlain pattern program).1 b hb
  exact ⟨b, hb, opening, hOpening, log, hLog, hAll opening hOpening log hLog⟩

end Conditions

end CodeShape
