import CodeShape.Proofs.Filling
import CodeShape.Proofs.Names
import CodeShape.Proofs.Placement

/-! Erasing and putting back. The root of a match, with what is bound in it erased, is a pattern
again, and filling it with the bindings of the match gives the root as it was. -/
namespace CodeShape

open Site Conditions

/-- Where nothing is listed twice, what two items share makes them one. -/
theorem eq_of_nodup_flatMap {α β : Type} {f : α → List β} {items : List α} {a a' : α} {x : β}
    (h : (items.flatMap f).Nodup) (ha : a ∈ items) (ha' : a' ∈ items) (hx : x ∈ f a)
    (hx' : x ∈ f a') : a = a' := by
  induction items with
  | nil => cases ha
  | cons first items ih =>
      rw [List.flatMap_cons] at h
      obtain ⟨-, hRest, hDisjoint⟩ := List.nodup_append.1 h
      rcases List.mem_cons.1 ha with rfl | hTail <;> rcases List.mem_cons.1 ha' with rfl | hTail'
      · rfl
      · exact absurd rfl (hDisjoint x hx x (List.mem_flatMap.2 ⟨a', hTail', hx'⟩))
      · exact absurd rfl (hDisjoint x hx' x (List.mem_flatMap.2 ⟨a, hTail, hx⟩))
      · exact ih hRest hTail hTail'

/-- An entry whose key is there once is found by it. -/
theorem lookup_of_mem {α β : Type} [BEq α] [LawfulBEq α] {entries : List (α × β)} {key : α}
    {value : β} (h : (entries.map Prod.fst).Nodup) (hMem : (key, value) ∈ entries) :
    entries.lookup key = some value := by
  obtain ⟨left, right, rfl⟩ := List.append_of_mem hMem
  refine List.lookup_eq_some_iff.2 ⟨left, right, rfl, ?_⟩
  intro entry hEntry
  rw [List.map_append] at h
  have hDisjoint := (List.nodup_append.1 h).2.2
  exact bne_iff_ne.2 fun hKey =>
    hDisjoint entry.1 (List.mem_map_of_mem hEntry) key (by simp) hKey.symm

namespace Branch

variable {b : Branch} {top s : Site}

def boundSites (b : Branch) : List Site := b.named.flatMap fun entry => entry.2.sites

/-- What is erased is erased at the paths of what is bound. -/
theorem map_fst_erasures (b : Branch) :
    b.erasures.map Prod.fst = b.boundSites.map Site.path := by
  have hOne : ∀ name (value : Binding),
      (value.erasure name).map Prod.fst = value.sites.map Site.path := by
    intro name value
    cases value with
    | one s => rfl
    | many run =>
        cases run with
        | nil => rfl
        | cons s run => simp [Binding.erasure, Binding.sites, Function.comp_def]
  rw [erasures, boundSites, List.map_flatMap, List.map_flatMap]
  congr 1
  funext entry
  exact hOne entry.1 entry.2

/-- What is bound lies in the tree. -/
theorem mem_descendants_of_mem_boundSites (h : Placed top [top] b.named) (hs : s ∈ b.boundSites) :
    s ∈ top.descendants := by
  obtain ⟨entry, hEntry, hs⟩ := List.mem_flatMap.1 hs
  obtain ⟨c, hc, hBelow⟩ := h.inside entry hEntry s hs
  exact List.mem_singleton.1 hc ▸ hBelow

/-- No path is erased twice. -/
theorem nodup_keys_erasures (h : Placed top [top] b.named) :
    (b.erasures.map Prod.fst).Nodup := by
  rw [map_fst_erasures]
  exact h.distinct.map_on fun s hs t ht hPath =>
    eq_of_path_eq (mem_descendants_of_mem_boundSites h hs)
      (mem_descendants_of_mem_boundSites h ht) hPath

/-- What is erased for a name is found at its path. -/
theorem lookup_erasures (h : Placed top [top] b.named) {name : String} {value : Binding}
    {path : List Nat} {nodes : List Node} (hMem : (name, value) ∈ b.named)
    (hErased : (path, nodes) ∈ value.erasure name) : b.erasures.lookup path = some nodes :=
  lookup_of_mem (nodup_keys_erasures h) (List.mem_flatMap.2 ⟨(name, value), hMem, hErased⟩)

/-- A single subtree is replaced by its wildcard. -/
theorem lookup_erasures_one (h : Placed top [top] b.named) {name : String}
    (hMem : (name, .one s) ∈ b.named) :
    b.erasures.lookup s.path = some [.wildcard ⟨some name, .scalar⟩] :=
  lookup_erasures h hMem (by simp [Binding.erasure])

/-- The first subtree of a run is replaced by the wildcard. -/
theorem lookup_erasures_first (h : Placed top [top] b.named) {name : String} {rest : List Site}
    (hMem : (name, .many (s :: rest)) ∈ b.named) :
    b.erasures.lookup s.path = some [.wildcard ⟨some name, .glob⟩] :=
  lookup_erasures h hMem (by simp [Binding.erasure])

/-- The other subtrees of a run are taken out. -/
theorem lookup_erasures_rest (h : Placed top [top] b.named) {name : String} {first : Site}
    {rest : List Site} (hMem : (name, .many (first :: rest)) ∈ b.named) (hs : s ∈ rest) :
    b.erasures.lookup s.path = some [] :=
  lookup_erasures h hMem (List.mem_cons_of_mem _ (List.mem_map.2 ⟨s, hs, rfl⟩))

/-- What is not bound stays. -/
theorem lookup_erasures_none (h : Placed top [top] b.named) (hs : s ∈ top.descendants)
    (hFree : s ∉ b.boundSites) : b.erasures.lookup s.path = none := by
  rw [List.lookup_eq_none_iff]
  intro entry hEntry
  refine bne_iff_ne.2 fun hPath => hFree ?_
  have hKey : entry.1 ∈ b.boundSites.map Site.path := by
    rw [← map_fst_erasures]
    exact List.mem_map_of_mem hEntry
  obtain ⟨t, ht, hSame⟩ := List.mem_map.1 hKey
  rwa [eq_of_path_eq hs (mem_descendants_of_mem_boundSites h ht) (hPath.trans hSame.symm)]

/-- What is left of the tree at a site, as a run. -/
def remnant (b : Branch) (s : Site) : List Node :=
  Id.run <| s.rebuildM fun place => pure <|
    match b.erasures.lookup place.path with
    | some nodes => .run nodes
    | none => .keep

theorem remnant_of_lookup {nodes : List Node} (h : b.erasures.lookup s.path = some nodes) :
    b.remnant s = nodes := by
  rw [remnant, rebuild_eq, h]

/-- What is not erased is rebuilt from what is left of its parts. -/
theorem remnant_kept (h : b.erasures.lookup s.path = none) :
    b.remnant s =
      [s.node.label.build (s.fields.map fun field => Node.settle (field.map b.remnant))] := by
  rw [remnant, rebuild_eq, h]
  rfl

end Branch

namespace Placed

variable {top s c t : Site} {named : List (String × Binding)} {name : String} {run : List Site}

/-- A run that a child of a node is part of stands in a slot of the node. -/
theorem home (h : Placed top [top] named) (hs : s ∈ top.descendants) (hc : c ∈ s.children)
    (hMem : (name, .many run) ∈ named) (hRun : c ∈ run) :
    (∃ pairing list, .seq pairing list ∈ s.fields ∧ run <:+: list) ∨
      .stmt (some c) ∈ s.fields ∧ run = [c] := by
  have hParent : ∀ {d : Site}, d ∈ top.descendants → c ∈ d.children → d = s := by
    intro d hd hcd
    obtain ⟨_, -, hPath⟩ := mem_children_iff.1 hc
    obtain ⟨_, -, hPath'⟩ := mem_children_iff.1 hcd
    exact eq_of_path_eq hd hs (List.append_inj' (hPath'.symm.trans hPath) rfl).1
  have hSingle : ∀ {x : Site}, run <:+: [x] → c = x ∧ run = [c] := by
    intro x hInfix
    have hcx : c = x := List.mem_singleton.1 (hInfix.subset hRun)
    refine ⟨hcx, ?_⟩
    rw [hcx]
    refine hInfix.eq_of_length_le ?_
    exact List.length_pos_of_mem hRun
  obtain ⟨list, hList, hInfix⟩ := h.housed hMem
  cases hList with
  | seq hd hField =>
      obtain rfl := hParent hd (mem_children_of_field hField (hInfix.subset hRun))
      exact .inl ⟨_, _, hField, hInfix⟩
  | stmt hd hField =>
      obtain ⟨rfl, hEq⟩ := hSingle hInfix
      obtain rfl := hParent hd (mem_children_of_field hField (by simp [Field.toList]))
      exact .inr ⟨hField, hEq⟩
  | whole =>
      obtain ⟨rfl, -⟩ := hSingle hInfix
      obtain ⟨i, -, hPath⟩ := mem_children_iff.1 hc
      have hLength := (path_leads hs).length_le
      rw [hPath] at hLength
      simp only [List.length_append, List.length_singleton] at hLength
      omega

/-- The sites of a run after the first come right after another site of the run. -/
theorem exists_beside (h : Placed top [top] named) {first : Site} {rest : List Site}
    (hMem : (name, .many (first :: rest)) ∈ named) (ht : t ∈ rest) :
    ∃ x ∈ first :: rest, Beside top x t := by
  obtain ⟨left, right, rfl⟩ := List.append_of_mem ht
  obtain ⟨x, hx, hPair⟩ : ∃ x ∈ first :: left, [x, t] <:+: first :: (left ++ t :: right) := by
    rcases List.eq_nil_or_concat left with rfl | ⟨init, last, rfl⟩
    · exact ⟨first, by simp, [], right, rfl⟩
    · exact ⟨last, by simp, first :: init, right, by simp⟩
  refine ⟨x, by simpa using Or.imp id (fun h => Or.inl h) (List.mem_cons.1 hx), ?_⟩
  obtain ⟨list, hList, hInfix⟩ := h.housed hMem
  have hLength := hInfix.length_le
  cases hList with
  | seq hd hField => exact ⟨_, hd, _, _, hField, hPair.trans hInfix⟩
  | stmt | whole =>
      simp only [List.length_cons, List.length_append, List.length_nil] at hLength
      omega

/-- Two names share no subtree. -/
theorem eq_of_shared (h : Placed top [top] named) {entry entry' : String × Binding}
    (hEntry : entry ∈ named) (hEntry' : entry' ∈ named) (hs : s ∈ entry.2.sites)
    (hs' : s ∈ entry'.2.sites) : entry = entry' :=
  eq_of_nodup_flatMap h.distinct hEntry hEntry' hs hs'

end Placed

namespace Site

/-- Two slots of a site share no part. -/
theorem eq_of_mem_fields {s x : Site} {g g' : Field Site} (hg : g ∈ s.fields) (hg' : g' ∈ s.fields)
    (hx : x ∈ g.toList) (hx' : x ∈ g'.toList) : g = g' :=
  eq_of_nodup_flatMap s.nodup_children hg hg' hx hx'

/-- There is just one site that another comes right after. -/
theorem Beside.unique {top x y t : Site} (hx : Beside top x t) (hy : Beside top y t)
    (hxTop : x ∈ top.descendants) (hyTop : y ∈ top.descendants) : x = y := by
  obtain ⟨q, i, hxPath, htPath⟩ := hx.paths
  obtain ⟨q', j, hyPath, htPath'⟩ := hy.paths
  obtain ⟨rfl, hNumber⟩ := List.append_inj' (htPath.symm.trans htPath') rfl
  simp only [List.cons.injEq, and_true] at hNumber
  obtain rfl : i = j := by omega
  exact eq_of_path_eq hxTop hyTop (hxPath.trans hyPath.symm)

end Site

/-- Nodes that can stand in a pattern for some sites, and that filling turns back into what is at
the sites. Their wildcards are names that the match has bound. -/
structure Refills (b : Branch) (bindings : Bindings) (nodes : List Node) (sites : List Site) :
    Prop where
  row : Node.Row nodes
  bound : ∀ n ∈ nodes, ∀ w ∈ n.wildcards, ∃ name value,
    (name, value) ∈ b.named ∧ w = ⟨some name, value.extent⟩
  fills : ∀ supply, ∃ runs, Threads (Pattern.Fills bindings) nodes supply runs supply ∧
    runs.flatten = sites.map Site.node

namespace Refills

variable {b : Branch} {bindings : Bindings} {n : Node} {nodes : List Node} {s : Site}
  {sites sites' : List Site}

theorem nil : Refills b bindings [] [] :=
  ⟨⟨rfl, by simp⟩, by simp, fun _ => ⟨[], .nil, rfl⟩⟩

/-- A row refills if its first node does and the rest does, as long as no two globs meet. -/
theorem cons (h : Refills b bindings [n] sites) (h' : Refills b bindings nodes sites')
    (hApart : n.glob?.isSome → ∀ n' ∈ nodes.head?, n'.glob? = none) :
    Refills b bindings (n :: nodes) (sites ++ sites') := by
  refine ⟨⟨?_, ?_⟩, ?_, fun supply => ?_⟩
  · cases nodes with
    | nil => rfl
    | cons n' nodes =>
        rw [Pattern.adjacentGlobs?]
        split
        · next hn hn' =>
            rw [hApart (by simp [hn]) n' rfl] at hn'
            cases hn'
        · exact h'.row.apart
  · exact List.forall_mem_cons.2 ⟨h.row.orderly n (by simp), h'.row.orderly⟩
  · exact List.forall_mem_cons.2 ⟨h.bound n (by simp), h'.bound⟩
  · obtain ⟨runs, hFirst, hSites⟩ := h.fills supply
    obtain ⟨runs', hRest, hSites'⟩ := h'.fills supply
    cases hFirst with
    | cons first rest =>
        cases rest
        refine ⟨_, .cons first hRest, ?_⟩
        rw [List.flatten_cons, hSites', List.map_append, ← hSites]
        simp

/-- One node is refilled whatever is left in supply. -/
theorem fills_one (h : Refills b bindings [n] sites) (supply : Pattern.Supply) :
    Pattern.Fills bindings n supply (sites.map Site.node) supply := by
  obtain ⟨runs, hRuns, hSites⟩ := h.fills supply
  cases hRuns with
  | cons first rest =>
      cases rest
      rw [← hSites]
      simpa using first

/-- A named wildcard stands for what its name is bound to. -/
theorem wildcard {name : String} {value : Binding} (hMem : (name, value) ∈ b.named)
    (hFind : bindings.find? name = some value.capture) :
    Refills b bindings [.wildcard ⟨some name, value.extent⟩] value.sites := by
  have hNodes : value.capture.nodes = value.sites.map Site.node := by
    cases value <;> rfl
  refine ⟨.singleton (Pattern.orderly_wildcard _), ?_, fun supply => ?_⟩
  · intro n hn w hw
    rw [List.mem_singleton.1 hn, Node.wildcards_wildcard] at hw
    exact ⟨name, value, hMem, List.mem_singleton.1 hw⟩
  · refine ⟨[value.capture.nodes], .cons ?_ .nil, by simp [hNodes]⟩
    refine Pattern.fills_wildcard.2 ⟨value.capture, ?_, ?_⟩
    · simp only [Pattern.valueOf, hFind]
      rfl
    · cases value <;> rfl

end Refills

/-- Everything that is known of the bindings of a match when they are erased. -/
structure Erasable (top : Site) (b : Branch) (bindings : Bindings) : Prop where
  placed : Placed top [top] b.named
  find : ∀ {name value}, (name, value) ∈ b.named → bindings.find? name = some value.capture
  plain : top.node.wildcards = []

namespace Erasable

variable {top s : Site} {b : Branch} {bindings : Bindings}

/-- A site outside all runs leaves one node, which is no glob. -/
def Leaves (b : Branch) (bindings : Bindings) (c : Site) : Prop :=
  ∃ n, b.remnant c = [n] ∧ n.glob? = none ∧ Refills b bindings [n] [c]

/-- A subtree that is bound to a name leaves its wildcard. -/
theorem leaves_one (h : Erasable top b bindings) {name : String}
    (hMem : (name, .one s) ∈ b.named) : Leaves b bindings s :=
  ⟨_, Branch.remnant_of_lookup (Branch.lookup_erasures_one h.placed hMem), rfl,
    .wildcard hMem (h.find hMem)⟩

/-- A run that starts at the front of a tail of a list is the front of that tail. -/
theorem front_of_run (h : Erasable top b bindings) (hs : s ∈ top.descendants) {pairing : Pairing}
    {cs : List Site} (hField : .seq pairing cs ∈ s.fields) {t : Site} {tail rest : List Site}
    (hTail : t :: tail <:+ cs) {name : String} (hMem : (name, .many (t :: rest)) ∈ b.named) :
    ∃ later, tail = rest ++ later := by
  have ht : t ∈ cs := hTail.subset (by simp)
  have hLane : Lane top cs := ⟨cs, .seq hs hField, List.suffix_rfl⟩
  rcases h.placed.home hs (mem_children_of_field hField ht) hMem (by simp) with
    ⟨pairing', list, hList, hInfix⟩ | ⟨hStmt, -⟩
  · cases eq_of_mem_fields hField hList ht (hInfix.subset (by simp))
    obtain ⟨before, hBefore⟩ := hTail
    obtain ⟨left, later, hLeft⟩ := hInfix
    refine ⟨later, ?_⟩
    have hNodup := hLane.nodup
    have hAfter : t ∉ tail := by
      rw [← hBefore] at hNodup
      exact (List.nodup_cons.1 (List.nodup_append.1 hNodup).2.1).1
    have hEarlier : t ∉ before := by
      rw [← hBefore] at hNodup
      intro hMem
      exact (List.nodup_append.1 hNodup).2.2 t hMem t (by simp) rfl
    rw [← hBefore, List.append_assoc, List.cons_append] at hLeft
    exact ((List.append_cons_inj_of_notMem hEarlier hAfter).1 hLeft.symm).2.2
  · cases eq_of_mem_fields hField hStmt ht (by simp [Field.toList])

/-- No run goes on at the site; it may start there. -/
def Opens (b : Branch) (t : Site) : Prop :=
  ∀ name first rest, (name, .many (first :: rest)) ∈ b.named → t ∉ rest

/-- Where a wildcard opens a run, the run goes on from there. -/
theorem Opens.exists_rest {t : Site} (h : Opens b t) (hRun : InRun b.named t) :
    ∃ name rest, (name, .many (t :: rest)) ∈ b.named := by
  obtain ⟨name, run, hMem, ht⟩ := hRun
  cases run with
  | nil => cases ht
  | cons first rest =>
      rcases List.mem_cons.1 ht with rfl | htRest
      · exact ⟨name, rest, hMem⟩
      · exact absurd htRest (h name first rest hMem)

/-- Neighbours at the end of a list are neighbours in the tree. -/
theorem beside_of_suffix (hs : s ∈ top.descendants) {pairing : Pairing} {cs : List Site}
    (hField : .seq pairing cs ∈ s.fields) {x y : Site} {right : List Site}
    (h : x :: y :: right <:+ cs) : Beside top x y := by
  obtain ⟨before, hcs⟩ := h
  exact ⟨s, hs, pairing, cs, hField, before, right, by simp [← hcs]⟩

/-- What comes right before a site at which a run goes on is in that run. -/
theorem mem_run_of_next (h : Erasable top b bindings) {x u : Site} (hBeside : Beside top x u)
    (hx : x ∈ top.descendants) {name : String} {first : Site} {rest : List Site}
    (hMem : (name, .many (first :: rest)) ∈ b.named) (hu : u ∈ rest) : x ∈ first :: rest := by
  obtain ⟨y, hy, hyu⟩ := h.placed.exists_beside hMem hu
  have hyTop : y ∈ top.descendants := Branch.mem_descendants_of_mem_boundSites h.placed
    (List.mem_flatMap.2 ⟨_, hMem, hy⟩)
  rw [← hyu.unique hBeside hyTop hx]
  exact hy

/-- No run goes on at the start of a list. -/
theorem opens_first (h : Erasable top b bindings) (hs : s ∈ top.descendants) {pairing : Pairing}
    {t : Site} {cs : List Site} (hField : .seq pairing (t :: cs) ∈ s.fields) : Opens b t := by
  intro name first rest hMem hRest
  have hLane : Lane top (t :: cs) := ⟨_, .seq hs hField, List.suffix_rfl⟩
  obtain ⟨x, hx, hBeside⟩ := h.placed.exists_beside hMem hRest
  have htSlot : t ∈ (Field.seq pairing (t :: cs)).toList := by simp [Field.toList]
  have htRun : t ∈ first :: rest := List.mem_cons_of_mem _ hRest
  rcases h.placed.home hs (mem_children_of_field hField htSlot) hMem htRun with
    ⟨pairing', list, hList, hInfix⟩ | ⟨hStmt, -⟩
  · cases eq_of_mem_fields hField hList htSlot (hInfix.subset htRun)
    rcases List.mem_cons.1 (hInfix.subset hx) with rfl | hxLater
    · exact Lane.not_beside_self hBeside
    · exact hLane.not_beside_back hxLater hBeside
  · cases eq_of_mem_fields hField hStmt htSlot (by simp [Field.toList])

/-- A run may begin after a neighbour that is in none. -/
theorem opens_after (h : Erasable top b bindings) {t u : Site} (hBeside : Beside top t u)
    (ht : t ∈ top.descendants) (hRun : ¬ InRun b.named t) : Opens b u := by
  intro name first rest hMem hu
  exact hRun ⟨name, _, hMem, h.mem_run_of_next hBeside ht hMem hu⟩

/-- No run goes on after the end of a run. -/
theorem opens_after_run (h : Erasable top b bindings) {last u : Site} (hBeside : Beside top last u)
    (hLast : last ∈ top.descendants) {name : String} {run : List Site}
    (hMem : (name, .many run) ∈ b.named) (hRun : last ∈ run) (hu : u ∉ run) : Opens b u := by
  intro name' first rest hMem' huRest
  have hShared := h.mem_run_of_next hBeside hLast hMem' huRest
  cases h.placed.eq_of_shared hMem' hMem hShared hRun
  exact hu (List.mem_cons_of_mem _ huRest)

/-- A run leaves a single wildcard. -/
theorem flatMap_remnant_of_run (h : Erasable top b bindings) {name : String} {t : Site}
    {rest : List Site} (hMem : (name, .many (t :: rest)) ∈ b.named) :
    (t :: rest).flatMap b.remnant = [.wildcard ⟨some name, .glob⟩] := by
  have hRest : rest.flatMap b.remnant = [] := List.flatMap_eq_nil_iff.2 fun u hu =>
    Branch.remnant_of_lookup (Branch.lookup_erasures_rest h.placed hMem hu)
  rw [List.flatMap_cons, hRest,
    Branch.remnant_of_lookup (Branch.lookup_erasures_first h.placed hMem)]
  rfl

/-- What is left of a list, from any place on that is not in the middle of a run. If it starts with
a glob, a run starts there. -/
theorem refills_tail (h : Erasable top b bindings) (hs : s ∈ top.descendants) {pairing : Pairing}
    {cs : List Site} (hField : .seq pairing cs ∈ s.fields)
    (hLeaves : ∀ c ∈ cs, ¬ InRun b.named c → Leaves b bindings c) {tail : List Site}
    (hTail : tail <:+ cs) (hStart : ∀ t ∈ tail.head?, Opens b t) :
    Refills b bindings (tail.flatMap b.remnant) tail ∧
      ∀ n ∈ (tail.flatMap b.remnant).head?, n.glob?.isSome → ∃ t ∈ tail.head?, ∃ name rest,
        (name, .many (t :: rest)) ∈ b.named := by
  have hLane : Lane top cs := ⟨cs, .seq hs hField, List.suffix_rfl⟩
  induction hLength : tail.length using Nat.strongRecOn generalizing tail with
  | ind length ih =>
      cases tail with
      | nil => exact ⟨.nil, by simp⟩
      | cons t tail =>
          have ht : t ∈ cs := hTail.subset (by simp)
          by_cases hRun : InRun b.named t
          · -- the run is the front of the tail
            obtain ⟨name, rest, hMem⟩ := (hStart t rfl).exists_rest hRun
            obtain ⟨later, rfl⟩ := h.front_of_run hs hField hTail hMem
            obtain ⟨init, last, hLast⟩ : ∃ init last, t :: rest = init ++ [last] :=
              ⟨_, _, (List.dropLast_append_getLast (List.cons_ne_nil t rest)).symm⟩
            have hSplit : t :: (rest ++ later) = init ++ last :: later := by
              rw [← List.cons_append, hLast, List.append_assoc]
              rfl
            have hLastTail : last :: later <:+ cs :=
              (List.suffix_append init _).trans (hSplit ▸ hTail)
            -- what comes after the run is free to open another, as no two runs are side by side
            have hClean : ∀ u ∈ later.head?, Opens b u := by
              intro u hu
              obtain ⟨later', rfl⟩ := List.head?_eq_some_iff.1 hu
              have hNodup := (hLane.suffix hTail).nodup
              rw [← List.cons_append] at hNodup
              refine h.opens_after_run (beside_of_suffix hs hField hLastTail)
                (hLane.mem_descendants (hLastTail.subset (by simp))) hMem (by simp [hLast]) ?_
              intro huRun
              exact (List.nodup_append.1 hNodup).2.2 u huRun u (by simp) rfl
            have hShort : later.length < length := by
              rw [← hLength]
              simp only [List.length_cons, List.length_append]
              omega
            have hLater : later <:+ cs := (List.suffix_cons last later).trans hLastTail
            obtain ⟨hRefills, hHead⟩ := ih _ hShort hLater hClean rfl
            rw [← List.cons_append, List.flatMap_append, h.flatMap_remnant_of_run hMem]
            refine ⟨(Refills.wildcard hMem (h.find hMem)).cons hRefills ?_, ?_⟩
            · intro _ n hn
              by_contra hGlob
              obtain ⟨u, hu, name', rest', hMem'⟩ := hHead n hn (Option.isSome_iff_ne_none.2 hGlob)
              obtain ⟨later', rfl⟩ := List.head?_eq_some_iff.1 hu
              rw [hLast] at hMem
              exact h.placed.fenced hMem hMem' (beside_of_suffix hs hField hLastTail)
            · intro n _ _
              exact ⟨t, rfl, name, rest, hMem⟩
          · obtain ⟨n, hn, hGlob, hRefills⟩ := hLeaves t ht hRun
            have hClean : ∀ u ∈ tail.head?, Opens b u := by
              intro u hu
              obtain ⟨tail', rfl⟩ := List.head?_eq_some_iff.1 hu
              exact h.opens_after (beside_of_suffix hs hField hTail) (hLane.mem_descendants ht) hRun
            obtain ⟨hRest, -⟩ := ih _ (by simp [← hLength]) ((List.suffix_cons t tail).trans hTail)
              hClean rfl
            rw [List.flatMap_cons, hn]
            refine ⟨hRefills.cons hRest (by simp [hGlob]), ?_⟩
            intro n' hn' hGlob'
            obtain rfl := Option.some.inj hn'
            simp [hGlob] at hGlob'

/-- What is known of a slot when all sites outside runs in it leave one node. -/
structure SlotRefills (b : Branch) (bindings : Bindings) (g : Field Site) : Prop where
  settled : Node.Settled (Node.settle (g.map b.remnant))
  bound : ∀ n ∈ (Node.settle (g.map b.remnant)).toList, ∀ w ∈ n.wildcards, ∃ name value,
    (name, value) ∈ b.named ∧ w = ⟨some name, value.extent⟩
  fills : ∀ supply, ∃ filled,
    Field.Threads (Pattern.Fills bindings) (Node.settle (g.map b.remnant)) supply filled supply ∧
      Node.settle filled = g.map Site.node

theorem SlotRefills.of_eq {g : Field Site} {g' : Field Node}
    (hSlot : Node.settle (g.map b.remnant) = g') (hSettled : Node.Settled g')
    (hBound : ∀ n ∈ g'.toList, ∀ w ∈ n.wildcards, ∃ name value,
      (name, value) ∈ b.named ∧ w = ⟨some name, value.extent⟩)
    (hFills : ∀ supply, ∃ filled, Field.Threads (Pattern.Fills bindings) g' supply filled supply ∧
      Node.settle filled = g.map Site.node) : SlotRefills b bindings g := by
  subst hSlot
  exact ⟨hSettled, hBound, hFills⟩

/-- Slots that refill thread the supply from one to the next. -/
theorem SlotRefills.exists_threads {gs : List (Field Site)}
    (h : ∀ g ∈ gs, SlotRefills b bindings g) (supply : Pattern.Supply) :
    ∃ filled, Threads (Field.Threads (Pattern.Fills bindings))
        (gs.map fun g => Node.settle (g.map b.remnant)) supply filled supply ∧
      filled.map Node.settle = gs.map (Field.map Site.node) := by
  induction gs with
  | nil => exact ⟨[], .nil, rfl⟩
  | cons g gs ih =>
      obtain ⟨first, hFirst, hBack⟩ := (h g (by simp)).fills supply
      obtain ⟨rest, hRest, hBacks⟩ := ih fun g hg => h g (by simp [hg])
      exact ⟨first :: rest, .cons hFirst hRest, by simp [hBack, hBacks]⟩

/-- Every slot of a site refills if what is left of its parts does. -/
theorem refills_slot (h : Erasable top b bindings) (hs : s ∈ top.descendants)
    (hLeaves : ∀ c ∈ s.children, ¬ InRun b.named c → Leaves b bindings c) {g : Field Site}
    (hg : g ∈ s.fields) : SlotRefills b bindings g := by
  -- a slot with room for one node is outside all runs
  have hAlone : ∀ {c}, c ∈ g.toList → (∀ pairing list, g ≠ .seq pairing list) →
      (∀ c, g ≠ .stmt (some c)) → ¬ InRun b.named c := by
    rintro c hc hSeq hStmt ⟨name, run, hMem, hRun⟩
    rcases h.placed.home hs (mem_children_of_field hg hc) hMem hRun with
      ⟨pairing, list, hList, hInfix⟩ | ⟨hField, -⟩
    · exact hSeq pairing list (eq_of_mem_fields hg hList hc (hInfix.subset hRun))
    · exact hStmt c (eq_of_mem_fields hg hField hc (by simp [Field.toList]))
  cases g with
  | one c =>
      have hc : c ∈ (Field.one c).toList := by simp [Field.toList]
      obtain ⟨n, hn, hGlob, hRefills⟩ := hLeaves c (mem_children_of_field hg hc)
        (hAlone hc (by simp) (by simp))
      have hSlot : Node.settle ((Field.one c).map b.remnant) = .one n := by
        simp [Field.map, Node.settle, hn, Node.ofRun]
      exact .of_eq hSlot ⟨hGlob, hRefills.row.orderly n (by simp)⟩ hRefills.bound
        fun supply => ⟨_, .one (hRefills.fills_one supply), rfl⟩
  | opt c? =>
      cases c? with
      | none => exact .of_eq rfl trivial (List.forall_mem_nil _) fun _ => ⟨_, .optNone, rfl⟩
      | some c =>
          have hc : c ∈ (Field.opt (some c)).toList := by simp [Field.toList]
          obtain ⟨n, hn, hGlob, hRefills⟩ := hLeaves c (mem_children_of_field hg hc)
            (hAlone hc (by simp) (by simp))
          have hSlot : Node.settle ((Field.opt (some c)).map b.remnant) = .opt (some n) := by
            simp [Field.map, Node.settle, hn, Node.ofRun]
          exact .of_eq hSlot ⟨hGlob, hRefills.row.orderly n (by simp)⟩
            (by simpa [Field.toList] using hRefills.bound)
            fun supply => ⟨_, .optSome (hRefills.fills_one supply), rfl⟩
  | stmt c? =>
      cases c? with
      | none => exact .of_eq rfl trivial (List.forall_mem_nil _) fun _ => ⟨_, .stmtNone, rfl⟩
      | some c =>
          have hc : c ∈ (Field.stmt (some c)).toList := by simp [Field.toList]
          have hcChild := mem_children_of_field hg hc
          obtain ⟨n, hn, hRefills⟩ : ∃ n, b.remnant c = [n] ∧ Refills b bindings [n] [c] := by
            by_cases hRun : InRun b.named c
            · obtain ⟨name, run, hMem, hRun⟩ := hRun
              rcases h.placed.home hs hcChild hMem hRun with
                ⟨pairing, list, hList, hInfix⟩ | ⟨-, rfl⟩
              · cases eq_of_mem_fields hg hList hc (hInfix.subset hRun)
              · exact ⟨_, Branch.remnant_of_lookup (Branch.lookup_erasures_first h.placed hMem),
                  .wildcard hMem (h.find hMem)⟩
            · obtain ⟨n, hn, -, hRefills⟩ := hLeaves c hcChild hRun
              exact ⟨n, hn, hRefills⟩
          have hSlot : Node.settle ((Field.stmt (some c)).map b.remnant) = .stmt (some n) := by
            simp [Field.map, Node.settle, hn, Node.ofRun]
          exact .of_eq hSlot (hRefills.row.orderly n (by simp))
            (by simpa [Field.toList] using hRefills.bound)
            fun supply => ⟨_, .stmtSome (hRefills.fills_one supply), rfl⟩
  | seq pairing cs =>
      have hStart : ∀ t ∈ cs.head?, Opens b t := by
        intro t ht
        obtain ⟨cs', rfl⟩ := List.head?_eq_some_iff.1 ht
        exact h.opens_first hs hg
      obtain ⟨hRefills, -⟩ := h.refills_tail hs hg
        (fun c hc => hLeaves c (mem_children_of_field hg hc)) List.suffix_rfl hStart
      refine .of_eq rfl hRefills.row hRefills.bound fun supply => ?_
      obtain ⟨runs, hRuns, hNodes⟩ := hRefills.fills supply
      exact ⟨_, .seq hRuns, by rw [Node.settle, hNodes]; rfl⟩

/-- Every site outside all runs leaves one node that can be filled again. -/
theorem leaves (h : Erasable top b bindings) (hs : s ∈ top.descendants)
    (hRun : ¬ InRun b.named s) : Leaves b bindings s := by
  induction hSize : sizeOf s.node using Nat.strongRecOn generalizing s with
  | ind size ih =>
      by_cases hBound : s ∈ b.boundSites
      · obtain ⟨⟨name, value⟩, hMem, hSite⟩ := List.mem_flatMap.1 hBound
        cases value with
        | one t =>
            obtain rfl := List.mem_singleton.1 hSite
            exact h.leaves_one hMem
        | many run => exact absurd ⟨name, run, hMem, hSite⟩ hRun
      · have hSlots : ∀ g ∈ s.fields, SlotRefills b bindings g := by
          intro g hg
          refine h.refills_slot hs (fun c hc hcRun => ?_) hg
          exact ih _ (hSize ▸ sizeOf_lt_of_mem_children hc)
            (mem_descendants_trans hs (mem_descendants_child hc)) hcRun rfl
        have hAlike : List.Forall₂ Field.Alike s.node.fields
            (s.fields.map fun field => Node.settle (field.map b.remnant)) := by
          rw [← s.map_node_fields, List.forall₂_map_left_iff, List.forall₂_map_right_iff,
            List.forall₂_same]
          exact fun field _ => (Field.alike_map_map _ _ field).settle
        obtain ⟨hLabel, hFields⟩ := Node.view_build hAlike
        have hNode : s.node.wildcard? = none := by
          have hPlain := wildcards_eq_nil hs h.plain
          rw [Node.wildcards_eq, List.append_eq_nil_iff] at hPlain
          exact Option.toList_eq_nil_iff.1 hPlain.1
        have hWild := (Node.wildcard?_of_label_eq hLabel).trans hNode
        refine ⟨_, Branch.remnant_kept (Branch.lookup_erasures_none h.placed hs hBound),
          Node.glob?_of_wildcard? hWild, .singleton (Node.orderly_iff.2 ?_), ?_, fun supply => ?_⟩
        · rw [hFields]
          intro field hField
          obtain ⟨g, hg, rfl⟩ := List.mem_map.1 hField
          exact (hSlots g hg).settled
        · intro n hn w hw
          rw [List.mem_singleton.1 hn, Node.wildcards_eq, hWild, Node.children, hFields] at hw
          obtain ⟨c, hc, hw⟩ := List.mem_flatMap.1 hw
          obtain ⟨field, hField, hc⟩ := List.mem_flatMap.1 hc
          obtain ⟨g, hg, rfl⟩ := List.mem_map.1 hField
          exact (hSlots g hg).bound c hc w hw
        · obtain ⟨filled, hFilled, hBack⟩ := SlotRefills.exists_threads hSlots supply
          refine ⟨[[s.node]], .cons ((Pattern.fills_node hWild).2 ⟨filled, ?_, ?_⟩) .nil, rfl⟩
          · rw [hFields]
            exact hFilled
          · rw [hLabel, hBack, s.map_node_fields, Node.build_label_fields]

end Erasable

/-- A node that stands for some sites, as a pattern by itself, is filled with what is at them. -/
theorem Refills.injectInto {b : Branch} {bindings : Bindings} {n : Node} {sites : List Site}
    (h : Refills b bindings [n] sites) (hKeys : (b.named.map Prod.fst).Nodup) :
    Pattern.injectInto (.tree (.program [n])) bindings = .ok (.program (sites.map Site.node)) := by
  have hOrder : (Node.program [n]).Orderly :=
    Node.orderly_iff.2 (by simpa [Node.fields, Node.Settled] using h.row)
  have hWildcards : (Node.program [n]).wildcards = n.wildcards := by
    rw [Node.wildcards_eq]
    simp [Node.wildcard?, Node.children, Node.fields, Field.toList]
  obtain ⟨vars, hVars, -⟩ : ∃ vars, Pattern.addNames false (.program [n]) [] = .ok vars ∧ _ := by
    refine Pattern.addNames_of_orderly
      (fun name => ((b.named.lookup name).map Binding.extent).getD .scalar)
      (by simp [Node.glob?]) hOrder ?_ (by simp)
    intro w hw name hName
    rw [hWildcards] at hw
    obtain ⟨name', value, hMem, rfl⟩ := h.bound n (by simp) w hw
    cases hName
    simp only [lookup_of_mem hKeys hMem]
    rfl
  have hCompiled : Pattern.compile (.tree (.program [n])) [] = .ok ⟨.program [n], vars⟩ := by
    rw [Pattern.compile]
    change (Pattern.validate (.program [n]) [] >>= _) = _
    rw [Pattern.validate]
    change ((Pattern.addNames false (.program [n]) [] >>= _) >>= _) = _
    rw [hVars]
    rfl
  have hFilled : Pattern.Fills bindings (.program [n]) ⟨bindings.anonymous, 0⟩
      [.program (sites.map Site.node)] ⟨bindings.anonymous, 0⟩ := by
    refine (Pattern.fills_node rfl).2 ⟨[.seq .statements [sites.map Site.node]], ?_, ?_⟩
    · exact .cons (.seq (.cons (h.fills_one _) .nil)) .nil
    · change _ = [Node.program [sites.map Site.node].flatten]
      rw [List.flatten_singleton]
  rw [Pattern.injectInto, hCompiled]
  change Pattern.inject ⟨.program [n], vars⟩ bindings = _
  rw [Pattern.inject_eq, hFilled]
  rfl

namespace Conditions

variable {conditions : Conditions}

/-- Root restoration. Whatever search a match comes from, its root with the bound parts erased is
accepted as a pattern, and the bindings fill it to the root as it was in the source. If the root is
itself part of a run that a name is bound to, the whole run comes back. -/
theorem injection_restores_root {source : Node} {pattern : PatternSource} {compiled : Pattern}
    {b : Branch} (hPlain : source.wildcards = [])
    (hCompiled : Pattern.compile pattern conditions.constraints = .ok compiled)
    (hFound : b ∈ (conditions.searchCode compiled.root (.root source)).solutions ∨
      b ∈ (conditions.searchNode compiled.root (.root source)).solutions) :
    let r := b.root.getD (.root source)
    let bindings := b.finish (.root source)
    r ∈ (Site.root source).descendants ∧
    ((∀ name run, (name, .many run) ∈ b.named → r ∉ run) →
      Pattern.injectInto (.tree (.program [bindings.root])) bindings = .ok (.program [r.node])) ∧
    ∀ name run, (name, .many run) ∈ b.named → r ∈ run →
      bindings.find? name = some (.many (run.map Site.node)) ∧
      Pattern.injectInto (.tree (.program [bindings.root])) bindings =
        .ok (.program (run.map Site.node)) := by
  intro r bindings
  have hFinds : conditions.Finds (.root source) compiled.root b := by
    rcases hFound with hFound | hFound
    · exact finds_of_mem_searchCode hFound
    · exact finds_of_mem_searchNode hFound
  obtain ⟨hOrder, hVars, -⟩ := Pattern.validate_ok (Pattern.compile_ok hCompiled)
  obtain ⟨top, hTop, hRooted⟩ := hFinds.rooted hOrder
  have hKeys : (b.named.map Prod.fst).Nodup := (hFinds.covers hVars).distinct
  have hErasable : Erasable top b bindings := by
    refine ⟨hRooted.placed, fun {name value} hMem => ?_, ?_⟩
    · rw [Branch.find?_finish, Branch.value?, Branch.find?, lookup_of_mem hKeys hMem]
      rfl
    · exact wildcards_eq_nil hTop hPlain
  have hRoot : bindings.root = Node.ofRun (b.remnant r) := rfl
  refine ⟨mem_descendants_trans hTop hRooted.inside, fun hFree => ?_, fun name run hMem hRun => ?_⟩
  · have hAlone : ¬ InRun b.named r := by
      rintro ⟨name, run, hMem, hRun⟩
      exact hFree name run hMem hRun
    obtain ⟨n, hn, -, hRefills⟩ := hErasable.leaves hRooted.inside hAlone
    rw [hRoot, hn]
    exact hRefills.injectInto hKeys
  · obtain ⟨rest, rfl⟩ := hRooted.first hMem hRun
    refine ⟨hErasable.find hMem, ?_⟩
    rw [hRoot, Branch.remnant_of_lookup (Branch.lookup_erasures_first hRooted.placed hMem)]
    exact (Refills.wildcard hMem (hErasable.find hMem)).injectInto hKeys

/-- The statement `f(glob$args)` in the program `g(); f(1, 2);`. -/
theorem injection_restores_root_call :
    let source : Node := .program [.expr (.call (.ident "g") []),
      .expr (.call (.ident "f") [.int 1, .int 2])]
    let pattern : Node := .program [.expr (.call (.ident "f") [.wildcard ⟨some "args", .glob⟩])]
    let conditions : Conditions := ⟨[], none, false⟩
    ∃ b ∈ (conditions.searchCode pattern (.root source)).solutions,
      Pattern.injectInto (.tree (.program [(b.finish (.root source)).root]))
          (b.finish (.root source)) =
        .ok (.program [(b.root.getD (.root source)).node]) := by
  intro source pattern conditions
  have hSolution : (conditions.searchCode pattern (.root source)).solutions.any (fun b =>
      b.named.all fun entry => match entry.2 with
        | .many run => !(run.map Site.path).contains (b.root.getD (.root source)).path
        | .one _ => true) = true := by decide +kernel
  have hCompiled : (match Pattern.compile (.tree pattern) conditions.constraints with
    | .ok _ => true
    | _ => false) = true := by decide +kernel
  obtain ⟨b, hb, hFree⟩ := List.any_eq_true.1 hSolution
  split at hCompiled
  · next compiled hOk =>
      have hRoot : compiled.root = pattern := Pattern.root_of_compile hOk
      have hPlain : source.wildcards = [] := by decide +kernel
      refine ⟨b, hb, (injection_restores_root hPlain hOk (.inl (hRoot ▸ hb))).2.1 ?_⟩
      intro name run hMem hRun
      have hEntry := List.all_eq_true.1 hFree _ hMem
      simp only [Bool.not_eq_true', List.contains_eq_mem, decide_eq_false_iff_not] at hEntry
      exact hEntry (List.mem_map_of_mem hRun)
  · cases hCompiled

end Conditions

end CodeShape
