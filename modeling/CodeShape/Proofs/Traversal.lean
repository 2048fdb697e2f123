import CodeShape.Proofs.Shape
import CodeShape.Proofs.Tree

/-!
The ways through a tree. Rebuilding has its own list of the parts of each kind of node, the list of
descendants goes through the slots from child to child, and a stack can take the place of the
recursion. All three meet the same nodes in the same order, and a tree that is rebuilt without a
change is the tree itself.
-/
namespace CodeShape

section Visits

variable {α β γ : Type} {m : Type → Type} [Monad m] [LawfulMonad m] {look : γ → m PUnit}
variable {visits : α → List γ} {f : α → m β} {g : α → β}

/-- Steps that look at something and give a value look at all of it in turn and give all values. -/
theorem mapM_looks {items : List α}
    (h : ∀ a ∈ items, f a = do forM (visits a) look; return g a) :
    items.mapM f = do forM (items.flatMap visits) look; return items.map g := by
  induction items with
  | nil => simp
  | cons a items ih =>
      have hFirst := h a List.mem_cons_self
      have hRest := ih fun b hb => h b (List.mem_cons_of_mem _ hb)
      rw [List.mapM_cons, hFirst, hRest, List.flatMap_cons, List.forM_append]
      simp only [bind_assoc, pure_bind, List.map_cons]

theorem Field.mapM_looks {field : Field α}
    (h : ∀ a ∈ field.toList, f a = do forM (visits a) look; return g a) :
    field.mapM f = do forM (field.toList.flatMap visits) look; return field.map g := by
  cases field with
  | one a =>
      rw [mapM, h a (by simp [toList])]
      simp [toList, map]
  | opt a? =>
      cases a? with
      | none => simp [mapM, toList, map]
      | some a =>
          rw [mapM, h a (by simp [toList])]
          simp [toList, map]
  | stmt a? =>
      cases a? with
      | none => simp [mapM, toList, map]
      | some a =>
          rw [mapM, h a (by simp [toList])]
          simp [toList, map]
  | seq pairing as =>
      have hAll : as.mapM f = do forM (as.flatMap visits) look; return as.map g :=
        CodeShape.mapM_looks h
      rw [mapM, hAll]
      simp [toList, map]

end Visits

namespace Site

/-- Runs of one node each settle to these nodes. -/
theorem settle_singletons (field : Field Site) :
    Node.settle (field.map fun c => [c.node]) = field.map node := by
  cases field with
  | one c => rfl
  | opt c? => cases c? <;> rfl
  | stmt c? => cases c? <;> rfl
  | seq pairing cs =>
      have hRuns : (cs.map fun c => [c.node]).flatten = cs.map node := by
        rw [← List.flatMap_def]
        exact List.map_eq_flatMap.symm
      exact congrArg (Field.seq pairing) hRuns

/-- To settle every child as itself is to leave the node. -/
theorem build_singletons (s : Site) :
    s.node.label.build ((s.fields.map (Field.map fun c => [c.node])).map Node.settle) = s.node := by
  have hSlots : (s.fields.map (Field.map fun c => [c.node])).map Node.settle =
      s.fields.map (Field.map node) := by
    rw [List.map_map]
    exact List.map_congr_left fun field _ => settle_singletons field
  rw [hSlots, map_node_fields, Node.build_label_fields]

/-- A visitor that keeps everything sees the descendants in order. -/
theorem rebuildM_keep {m : Type → Type} [Monad m] [LawfulMonad m] (look : Site → m PUnit)
    (s : Site) :
    (s.rebuildM fun t => do look t; return .keep) =
      do forM s.descendants look; return [s.node] := by
  induction hSize : sizeOf s.node using Nat.strongRecOn generalizing s with
  | ind size ih =>
      have hSlots : ∀ field ∈ s.fields,
          (field.mapM (rebuildM fun t => do look t; return .keep)) = do
            forM (field.toList.flatMap descendants) look
            return field.map fun c => [c.node] := by
        intro field hField
        apply Field.mapM_looks
        intro c hc
        apply ih _ _ c rfl
        rw [← hSize]
        exact sizeOf_lt_of_mem_children (mem_children_of_field hField hc)
      rw [rebuildM_eq, descendants_eq, children, List.flatMap_assoc, List.forM_cons]
      simp only [bind_assoc, pure_bind, mapM_looks hSlots, build_singletons]

theorem map_node_descendants_step (s : Site) :
    s.descendants.map node = s.node :: s.node.children.flatMap Node.descendants := by
  induction hSize : sizeOf s.node using Nat.strongRecOn generalizing s with
  | ind size ih =>
      -- where a child stands makes no difference to the nodes below it
      have hChild : ∀ c ∈ s.children, c.descendants.map node = c.node.descendants := by
        intro c hc
        have hLess : sizeOf c.node < size := hSize ▸ sizeOf_lt_of_mem_children hc
        rw [ih _ hLess c rfl, Node.descendants, ih _ hLess (root c.node) rfl]
        rfl
      rw [descendants_eq, List.map_cons, List.map_flatMap, ← map_node_children, List.flatMap_map]
      congr 1
      rw [List.flatMap_def, List.flatMap_def]
      congr 1
      exact List.map_congr_left hChild

end Site

namespace Node

theorem descendants_eq (n : Node) : n.descendants = n :: n.children.flatMap descendants :=
  Site.map_node_descendants_step (.root n)

/-- The number of nodes in the trees of a stack. -/
def population (stack : List Node) : Nat := (stack.flatMap descendants).length

/-- Taking a node off the stack and pushing its children makes the population smaller. This is why
the walk ends. -/
theorem population_lt (n : Node) (stack : List Node) :
    population (n.children.foldr List.cons stack) < population (n :: stack) := by
  rw [population, population, List.foldr_cons_eq_append', List.flatMap_append, List.flatMap_cons,
    descendants_eq, List.length_append, List.length_append, List.length_cons]
  omega

/-- The nodes that come off a stack. In place of each its children are put on the stack, from the
last to the first, so that the first one comes off next. -/
def unstack : List Node → List Node
  | [] => []
  | n :: stack => n :: unstack (n.children.foldr List.cons stack)
termination_by stack => population stack
decreasing_by exact population_lt n stack

/-- The trees of a stack are walked through one after the other. -/
theorem unstack_eq (stack : List Node) : unstack stack = stack.flatMap descendants := by
  fun_induction unstack stack with
  | case1 => rfl
  | case2 n stack ih =>
      rw [ih, List.foldr_cons_eq_append', List.flatMap_append, List.flatMap_cons, descendants_eq]
      rfl

/-- The walk over a stack with one node goes over its tree in preorder. -/
theorem unstack_singleton (n : Node) : unstack [n] = n.descendants := by
  rw [unstack_eq, List.flatMap_singleton]

/-- All ways through a tree agree. A visitor that keeps every node is asked about the descendants in
order, each where it stands, and the tree that is rebuilt is the tree itself; the nodes it is asked
about are those that come off a stack with the tree on it; and these are the tree followed by what
comes off for each of its children. -/
theorem traversals_agree {m : Type → Type} [Monad m] [LawfulMonad m] (look : Site → m PUnit)
    (n : Node) :
    (n.rebuildM fun s => do look s; return .keep) =
        (do forM (Site.root n).descendants look; return n) ∧
      (Site.root n).descendants.map Site.node = unstack [n] ∧
      unstack [n] = n :: n.children.flatMap fun c => unstack [c] := by
  refine ⟨?_, (unstack_singleton n).symm, ?_⟩
  · rw [rebuildM, Site.rebuildM_keep]
    simp only [map_bind, map_pure]
    rfl
  · simp only [unstack_singleton]
    exact descendants_eq n

/-- A visitor that writes down the kinds of node in `f("a", ...b)`. -/
theorem traversals_agree_log :
    let n : Node := .call (.ident "f") [.literal ⟨.string "a", "'a'"⟩, .spread (.ident "b")]
    (n.rebuildM fun s => do
        modify (· ++ [s.node.kind])
        return .keep : StateM (List String) Node).run [] =
      (n, ["CallExpression", "Identifier", "Literal", "SpreadElement", "Identifier"]) := by
  intro n
  have hKinds : (Site.root n).descendants.map (·.node.kind) =
      ["CallExpression", "Identifier", "Literal", "SpreadElement", "Identifier"] := by
    decide +kernel
  have hLog : ∀ (sites : List Site) (log : List String),
      (forM sites fun s => modify (· ++ [s.node.kind]) : StateM (List String) PUnit).run log =
        pure (⟨⟩, log ++ sites.map (·.node.kind)) := by
    intro sites
    induction sites with
    | nil => intro log; simp
    | cons s sites ih => intro log; simp [ih]
  rw [(traversals_agree (fun s => modify (· ++ [s.node.kind])) n).1, StateT.run_bind, hLog, hKinds]
  rfl

end Node

end CodeShape
