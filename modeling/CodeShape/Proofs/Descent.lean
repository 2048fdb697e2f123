import CodeShape.Proofs.Depth
import CodeShape.Proofs.Equivalence

/-!
A search goes down. The rules may enlarge a pattern, and what they do they may undo, so nothing can
be said about the size of the patterns that a search comes by. The candidates get lower from node to
node, and in a list the rest of the pattern gets shorter from element to element. Here the recursion
is put on a bottom that may be anything: if no answer depends on the bottom, it is never reached.
-/
namespace CodeShape

namespace ListMatcher

/-- Matching a node, where the matcher is for what is below the candidate. -/
def layer (m : ListMatcher) : NodeMatcher := fun p c b =>
  match p with
  | .wildcard w => m.conditions.bind w (w.valueAt c) b
  | .hole => .one b
  | _ => .firstOf (fun form => m.sameForm form c b) (m.conditions.forms p c.node)

/-- A layer tries the forms of a concrete pattern one after the other. -/
theorem layer_concrete (m : ListMatcher) {p : Node} (hp : p.isConcrete) (c : Site) (b : Branch) :
    m.layer p c b =
      .firstOf (fun form => m.sameForm form c b) (m.conditions.forms p c.node) := by
  cases p <;> first | rfl | cases hp

/-- Matchers that agree up to a bound make layers that agree one higher. -/
theorem Agree.layer_eq {m m' : ListMatcher} {bound : Nat} (h : m.Agree m' bound) (p : Node)
    {c : Site} (hLow : c.node.height ≤ bound + 1) (b : Branch) :
    m.layer p c b = m'.layer p c b := by
  cases hp : p.isConcrete with
  | true =>
      rw [layer_concrete m hp, layer_concrete m' hp, h.conditions]
      exact Search.firstOf_congr fun form _ => h.sameForm_eq form hLow b
  | false =>
      cases p <;> cases hp
      · rfl
      · rw [layer, layer, h.conditions]

end ListMatcher

namespace Conditions

variable (conditions : Conditions)

/-- Layers on top of a way of matching that is used where no layer is left. -/
def nodeFrom (bottom : NodeMatcher) : (layers : Nat) → NodeMatcher
  | 0 => bottom
  | layers + 1 => ListMatcher.layer ⟨conditions, nodeFrom bottom layers, layers⟩

/-- Matching lists on top of some layers. -/
def listsFrom (bottom : NodeMatcher) (layers : Nat) : ListMatcher :=
  ⟨conditions, conditions.nodeFrom bottom layers, layers⟩

/-- The bounded search is the one that gives up at the bottom. -/
theorem nodeAt_eq_nodeFrom (height : Nat) :
    conditions.nodeAt height = conditions.nodeFrom (fun _ _ _ => .done) height := by
  induction height with
  | zero => rfl
  | succ height ih =>
      funext p c b
      rw [nodeFrom, ← ih]
      cases hp : p.isConcrete with
      | true => rw [nodeAt_concrete conditions height hp, ListMatcher.layer_concrete _ hp]
      | false =>
          cases p <;> cases hp
          · rfl
          · exact conditions.nodeAt_wildcard height _ c b

/-- As many layers as the candidate is high never get to the bottom. -/
theorem nodeFrom_eq_nodeFrom (bottom bottom' : NodeMatcher) {layers layers' : Nat} {c : Site}
    (h : c.node.height ≤ layers) (h' : c.node.height ≤ layers') (p : Node) (b : Branch) :
    conditions.nodeFrom bottom layers p c b = conditions.nodeFrom bottom' layers' p c b := by
  induction layers generalizing layers' p c b with
  | zero => exact absurd h (Nat.not_le_of_lt c.node.height_pos)
  | succ layers ih =>
      cases layers' with
      | zero => exact absurd h' (Nat.not_le_of_lt c.node.height_pos)
      | succ layers' =>
          have hAgree : ListMatcher.Agree (conditions.listsFrom bottom layers)
              (conditions.listsFrom bottom' layers') (min layers layers') :=
            { conditions := rfl
              node := fun p c b hc => ih (by omega) (by omega) p b
              depth := Nat.min_le_left _ _
              depth' := Nat.min_le_right _ _ }
          exact hAgree.layer_eq p (by omega) b

/-- With as many layers as the candidate is high, the bottom is never reached. -/
theorem nodeFrom_eq_node (bottom : NodeMatcher) {layers : Nat} {c : Site}
    (h : c.node.height ≤ layers) (p : Node) (b : Branch) :
    conditions.nodeFrom bottom layers p c b = conditions.node p c b := by
  rw [node, nodeAt_eq_nodeFrom]
  exact conditions.nodeFrom_eq_nodeFrom _ _ h (Nat.le_refl _) p b

/-- List matchers over enough layers agree with the search's own. -/
theorem listsFrom_agree (bottom : NodeMatcher) (layers : Nat) :
    (conditions.listsFrom bottom layers).Agree (conditions.lists layers) layers where
  conditions := rfl
  node p _ b hc := conditions.nodeFrom_eq_node bottom hc p b
  depth := Nat.le_refl _
  depth' := Nat.le_refl _

/-- A node is matched by one layer over the search itself. -/
theorem node_eq_layer (p : Node) (c : Site) (b : Branch) :
    conditions.node p c b = (conditions.lists c.node.height).layer p c b := by
  have hTall : c.node.height ≤ c.node.height + 1 := Nat.le_succ _
  rw [← conditions.nodeFrom_eq_node conditions.node hTall]
  exact (conditions.listsFrom_agree conditions.node c.node.height).layer_eq p hTall b

/-- There is just one search that goes down by layers. -/
theorem eq_node_of_layers {node : NodeMatcher}
    (h : ∀ p c b, node p c b = ListMatcher.layer ⟨conditions, node, c.node.height⟩ p c b) :
    node = conditions.node := by
  funext p c b
  induction hHeight : c.node.height using Nat.strongRecOn generalizing p c b with
  | ind height ih =>
      have hPos := c.node.height_pos
      have hAgree : ListMatcher.Agree ⟨conditions, node, c.node.height⟩
          (conditions.lists c.node.height) (c.node.height - 1) :=
        { conditions := rfl
          node := fun p d b hd => ih _ (by omega) p d b rfl
          depth := Nat.sub_le _ _
          depth' := Nat.sub_le _ _ }
      rw [h, node_eq_layer]
      exact hAgree.layer_eq p (by omega) b

end Conditions

namespace Node

/-- Whether the children of two trees correspond and are pairwise alike. -/
def childrenAlike (alike : Node → Node → Bool) (p c : Node) : Bool :=
  p.aligned c && (p.children.zip c.children).all fun (x, y) => alike x y

/-- Children are compared by what the comparison says of them only. -/
theorem childrenAlike_congr {alike alike' : Node → Node → Bool} {c : Node}
    (h : ∀ x, ∀ y ∈ c.children, alike x y = alike' x y) (p : Node) :
    p.childrenAlike alike c = p.childrenAlike alike' c := by
  rw [childrenAlike, childrenAlike]
  congr 1
  rw [Bool.eq_iff_iff, List.all_eq_true, List.all_eq_true]
  apply forall₂_congr
  rintro ⟨x, y⟩ hPair
  simp only [h x y (List.of_mem_zip hPair).2]

/-- Whether two trees are equivalent, where the comparison is for what is below them. -/
def equivalentLayer (rules : Option Rules) (alike : Node → Node → Bool) (p c : Node) : Bool :=
  match rules with
  | none => p.label == c.label && p.childrenAlike alike c
  | some rules =>
    (p :: p.alternatives rules c).any fun form => form.sameShape c && form.childrenAlike alike c

/-- Equivalence is one layer of comparison over itself. -/
theorem equivalent_eq (rules : Option Rules) (p c : Node) :
    equivalent rules p c = equivalentLayer rules (equivalent rules) p c := by
  cases rules with
  | none =>
      rw [equivalentLayer, childrenAlike, ← Bool.and_assoc]
      exact beq_eq p c
  | some rules =>
      simp only [equivalentLayer, childrenAlike, ← Bool.and_assoc]
      exact equalUnder_eq rules p c

/-- A layer of comparison asks about the children of the candidate only. -/
theorem equivalentLayer_congr (rules : Option Rules) {alike alike' : Node → Node → Bool} {c : Node}
    (h : ∀ x, ∀ y ∈ c.children, alike x y = alike' x y) (p : Node) :
    equivalentLayer rules alike p c = equivalentLayer rules alike' p c := by
  cases rules <;> simp only [equivalentLayer, childrenAlike_congr h]

/-- Layers on top of a comparison that is used where no layer is left. -/
def equivalentFrom (rules : Option Rules) (bottom : Node → Node → Bool) :
    (layers : Nat) → Node → Node → Bool
  | 0 => bottom
  | layers + 1 => equivalentLayer rules (equivalentFrom rules bottom layers)

/-- With as many layers as the candidate is high, the bottom is never reached. -/
theorem equivalentFrom_eq (rules : Option Rules) (bottom : Node → Node → Bool) {layers : Nat}
    {c : Node} (h : c.height ≤ layers) (p : Node) :
    equivalentFrom rules bottom layers p c = equivalent rules p c := by
  induction layers generalizing p c with
  | zero => exact absurd h (Nat.not_le_of_lt c.height_pos)
  | succ layers ih =>
      rw [equivalentFrom, equivalent_eq]
      apply equivalentLayer_congr
      intro x y hy
      have hLower := height_lt_of_mem_children hy
      exact ih (by omega) x

end Node

namespace Conditions

variable (conditions : Conditions)

/-- A search ends, whatever the patterns are. Every part of it goes through with as many layers as
its candidates are high, so the bottom is out of reach. -/
structure Descends : Prop where
  node : ∀ (bottom : NodeMatcher) (layers : Nat) (p : Node) (c : Site) (b : Branch),
    c.node.height ≤ layers → conditions.nodeFrom bottom layers p c b = conditions.node p c b
  /-- No other way of matching goes down by the same layers. -/
  unique : ∃! node : NodeMatcher, ∀ p c b,
    node p c b = ListMatcher.layer ⟨conditions, node, c.node.height⟩ p c b
  /-- Any form, rewritten or not, is only compared with what is strictly lower than the
  candidate. -/
  form : ∀ (m m' : ListMatcher) (form : Node) (c : Site) (b : Branch),
    m.conditions = m'.conditions → c.node.height ≤ m.depth + 1 → c.node.height ≤ m'.depth + 1 →
      (∀ p d b, d.node.height < c.node.height → m.node p d b = m'.node p d b) →
        m.sameForm form c b = m'.sameForm form c b
  /-- A slot is matched at or below its child, and a list element by element. -/
  duty : ∀ (bottom : NodeMatcher) (layers : Nat) (duty : Duty) (b : Branch),
    (∀ s ∈ duty.sites, s.node.height ≤ layers) →
      (conditions.listsFrom bottom layers).perform duty b =
        (conditions.lists layers).perform duty b
  spot : ∀ (bottom : NodeMatcher) (layers : Nat) (dive : Bool) (p : Node) (ps : List Node)
    (spot : Spot) (b : Branch),
    (∀ s ∈ spot.site :: spot.following, s.node.height ≤ layers) →
      (conditions.listsFrom bottom layers).atSpot dive p ps spot b =
        (conditions.lists layers).atSpot dive p ps spot b
  equivalent : ∀ (bottom : Node → Node → Bool) (layers : Nat) (p c : Node),
    c.height ≤ layers →
      Node.equivalentFrom conditions.rules bottom layers p c =
        Node.equivalent conditions.rules p c

theorem descends : conditions.Descends where
  node bottom _ p _ b h := conditions.nodeFrom_eq_node bottom h p b
  unique :=
    ⟨conditions.node, conditions.node_eq_layer, fun _ h => conditions.eq_node_of_layers h⟩
  form m m' form c b hConditions hDepth hDepth' hNode := by
    have hPos := c.node.height_pos
    have hAgree : m.Agree m' (c.node.height - 1) :=
      { conditions := hConditions
        node := fun p d b hd => hNode p d b (by omega)
        depth := by omega
        depth' := by omega }
    exact hAgree.sameForm_eq form (by omega) b
  duty bottom layers _ b h := (conditions.listsFrom_agree bottom layers).perform_eq h b
  spot bottom layers dive p ps _ b h :=
    (conditions.listsFrom_agree bottom layers).atSpot_eq dive p ps h b
  equivalent bottom _ p _ h := Node.equivalentFrom_eq conditions.rules bottom h p

end Conditions

namespace Spot

/-- The spot is the one with the given index in a list. -/
def At (list : List Site) (index : Nat) (spot : Spot) : Prop :=
  list.drop index = spot.site :: spot.following

/-- The candidates after a spot are as many as its place leaves. -/
theorem At.length_following {list : List Site} {index : Nat} {spot : Spot}
    (h : spot.At list index) : spot.following.length + 1 = list.length - index := by
  rw [← List.length_drop, h, List.length_cons]

theorem At.lt_length {list : List Site} {index : Nat} {spot : Spot} (h : spot.At list index) :
    index < list.length := by
  have := h.length_following
  omega

/-- To drop from the list beyond a spot is to drop from what follows it. -/
theorem At.drop_following {list : List Site} {index : Nat} {spot : Spot} (h : spot.At list index)
    (n : Nat) : list.drop (index + (n + 1)) = spot.following.drop n := by
  rw [← List.drop_drop, h, List.drop_succ_cons]

/-- What ends a list stands at a place in it. -/
theorem exists_at_of_suffix {list : List Site} {spot : Spot}
    (h : spot.site :: spot.following <:+ list) : ∃ index, spot.At list index := by
  obtain ⟨before, rfl⟩ := h
  exact ⟨before.length, List.drop_left⟩

/-- A spot in reach stands at a place in the list or in a list below it. -/
theorem exists_at_of_mem_within {depth : Nat} {list : List Site} {spot : Spot}
    (h : spot ∈ within depth list) :
    ∃ home index, spot.At home index ∧
      (home = list ∨ ∃ c ∈ list, ∃ s ∈ c.descendants, home ∈ s.nestedLists) := by
  induction depth generalizing list with
  | zero =>
      obtain ⟨index, hAt⟩ := exists_at_of_suffix (suffix_of_mem_ofList h)
      exact ⟨list, index, hAt, .inl rfl⟩
  | succ depth ih =>
      obtain ⟨start, hStart, hSpot⟩ := List.mem_flatMap.1 h
      rcases List.mem_cons.1 hSpot with rfl | hBelow
      · obtain ⟨index, hAt⟩ := exists_at_of_suffix (suffix_of_mem_ofList hStart)
        exact ⟨list, index, hAt, .inl rfl⟩
      · obtain ⟨inner, hInner, hWithin⟩ := List.mem_flatMap.1 hBelow
        obtain ⟨home, index, hAt, hHome⟩ := ih hWithin
        refine ⟨home, index, hAt, .inr ⟨start.site, site_mem_of_mem_ofList hStart, ?_⟩⟩
        rcases hHome with rfl | ⟨c, hc, s, hs, hNested⟩
        · exact ⟨start.site, Site.mem_descendants_self _, hInner⟩
        · have hBelow := Site.mem_descendants_of_mem_nestedLists hInner hc
          exact ⟨s, Site.mem_descendants_trans hBelow hs, hNested⟩

/-- A numbered spot stands at its number. -/
theorem at_of_mem_zipIdx {list : List Site} {spot : Spot} {index start : Nat}
    (h : (spot, index) ∈ (ofList list).zipIdx start) : spot.At list (index - start) := by
  induction list generalizing start with
  | nil => simp [ofList] at h
  | cons s rest ih =>
      rw [ofList, List.zipIdx_cons] at h
      rcases List.mem_cons.1 h with hHere | hLater
      · cases hHere
        rw [At, Nat.sub_self, List.drop_zero]
      · have hIndex : start + 1 ≤ index := (List.mem_zipIdx hLater).1
        have hShift : index - start = (index - (start + 1)) + 1 := by omega
        rw [At, hShift, List.drop_succ_cons]
        exact ih hLater

end Spot

namespace Taken

/-- How many elements of the pattern a match took. -/
def ofPattern (t : Taken) : Nat := t.patterns + 1

/-- How many elements of the list a match took. -/
def ofList (t : Taken) : Nat := t.candidates + 1

end Taken

namespace ListMatcher

variable (m : ListMatcher)

/-- No more is taken than there is, of the pattern and of the program. -/
theorem taken_le {dive : Bool} {p : Node} {ps : List Node} {spot : Spot} {b : Branch} {t : Taken}
    (h : t ∈ (m.atSpot dive p ps spot b).solutions) :
    t.patterns ≤ ps.length ∧ t.candidates ≤ spot.following.length := by
  rw [atSpot_unfold, Search.solutions_orElse, List.mem_append] at h
  rcases h with hWhole | hDeclared
  · simp only [Search.solutions_andThen, Search.solutions_one, List.mem_flatMap,
      List.mem_singleton] at hWhole
    obtain ⟨b', -, rfl⟩ := hWhole
    exact ⟨Nat.zero_le _, Nat.zero_le _⟩
  · split at hDeclared
    · simp at hDeclared
    · rw [Search.solutions_orElse, List.mem_append, splitAt, mergedAt] at hDeclared
      rcases hDeclared with hSplit | hMerged
      · split at hSplit
        · next declared assigned next rest _ hNext =>
            simp only [Search.solutions_andThen, Search.solutions_one, List.mem_flatMap,
              List.mem_singleton] at hSplit
            obtain ⟨b', -, b'', -, rfl⟩ := hSplit
            exact ⟨Nat.zero_le _, hNext ▸ Nat.succ_le_succ (Nat.zero_le _)⟩
        · simp at hSplit
      · split at hMerged
        · next merged hMerge =>
            obtain ⟨q, hq, -⟩ := Option.bind_eq_some_iff.1 hMerge
            obtain ⟨qs, rfl⟩ := List.head?_eq_some_iff.1 hq
            simp only [Search.solutions_andThen, Search.solutions_one, List.mem_flatMap,
              List.mem_singleton] at hMerged
            obtain ⟨b', -, rfl⟩ := hMerged
            exact ⟨Nat.succ_le_succ (Nat.zero_le _), Nat.zero_le _⟩
        · simp at hMerged

/-- The indices that come up in a search of lists are in range. -/
structure InRange : Prop where
  /-- A place that is tried for the next element stands in the list or in one below it. -/
  place : ∀ (depth : Nat) (candidates : List Site) (spot : Spot),
    spot ∈ Spot.within depth candidates →
      ∃ list index, index < list.length ∧ spot.At list index ∧
        (list = candidates ∨ ∃ c ∈ candidates, ∃ s ∈ c.descendants, list ∈ s.nestedLists)
  /-- The place after the run of a glob has the length of the run as its index. -/
  gap : ∀ (candidates : List Site) (spot : Spot) (index : Nat),
    (spot, index) ∈ (Spot.ofList candidates).zipIdx →
      index < candidates.length ∧ spot.At candidates index
  /-- Something is taken of the pattern and of the list, but not more than there is. -/
  taken : ∀ (dive : Bool) (p : Node) (ps : List Node) (spot : Spot) (b : Branch) (t : Taken)
    (list : List Site) (index : Nat), spot.At list index →
      t ∈ (m.atSpot dive p ps spot b).solutions →
        (1 ≤ t.ofPattern ∧ t.ofPattern ≤ (p :: ps).length) ∧
          (1 ≤ t.ofList ∧ t.ofList ≤ list.length - index)
  /-- The search goes on with what is left of both, so the rest of the pattern is shorter. -/
  rest : ∀ (dive : Bool) (p : Node) (ps : List Node) (spot : Spot) (b : Branch)
    (list : List Site) (index : Nat), spot.At list index →
      (m.scanFrom dive p ps b spot = (m.atSpot dive p ps spot b).andThen fun t =>
        m.scan dive ((p :: ps).drop t.ofPattern) (list.drop (index + t.ofList)) t.branch) ∧
      ∀ t : Taken, ((p :: ps).drop t.ofPattern).length < (p :: ps).length

/-- No list matcher cuts a list out of its range. -/
theorem inRange : m.InRange where
  place depth candidates spot h := by
    obtain ⟨list, index, hAt, hHome⟩ := Spot.exists_at_of_mem_within h
    exact ⟨list, index, hAt.lt_length, hAt, hHome⟩
  gap candidates spot index h := by
    have hAt : spot.At candidates index := Spot.at_of_mem_zipIdx h
    exact ⟨hAt.lt_length, hAt⟩
  taken dive p ps spot b t list index hAt h := by
    obtain ⟨hPatterns, hCandidates⟩ := m.taken_le h
    have hLength := hAt.length_following
    rw [Taken.ofPattern, Taken.ofList, List.length_cons]
    omega
  rest dive p ps spot b list index hAt := by
    refine ⟨?_, ?_⟩
    · rw [scanFrom]
      congr 1
      funext t
      rw [Taken.ofPattern, Taken.ofList, hAt.drop_following, List.drop_succ_cons]
    · intro t
      rw [Taken.ofPattern, List.drop_succ_cons, List.length_drop, List.length_cons]
      omega

end ListMatcher

namespace Conditions

/-- Every search ends, and no index in it is out of range. -/
theorem search_ends (conditions : Conditions) (node : NodeMatcher) (depth : Nat) :
    conditions.Descends ∧ (ListMatcher.mk conditions node depth).InRange :=
  ⟨conditions.descends, ListMatcher.inRange _⟩

/-- The pattern `i += 1` is enlarged to `i = i + 1` on the way. With too few layers, a bottom that
takes everything also finds it in `i = i + 2`. -/
theorem search_ends_enlarged :
    let conditions : Conditions := ⟨[], some .all, false⟩
    let bottom : NodeMatcher := fun _ _ b => .one b
    let sum (n : Int) : Node := .assign .plain (.ident "i") (.binary .add (.ident "i") (.int n))
    let pattern : Node := .assign .add (.ident "i") (.int 1)
    ((conditions.nodeFrom bottom 3 pattern (.root (sum 1)) .start).solutions.length,
      (conditions.nodeFrom bottom 3 pattern (.root (sum 2)) .start).solutions.length,
      (conditions.nodeFrom bottom 2 pattern (.root (sum 2)) .start).solutions.length) =
        (1, 0, 2) := by
  intro conditions bottom sum pattern
  have hNode := (conditions.search_ends bottom 0).1.node bottom 3 pattern
  rw [hNode (.root (sum 1)) .start (by decide +kernel),
    hNode (.root (sum 2)) .start (by decide +kernel)]
  decide +kernel

end Conditions

end CodeShape
