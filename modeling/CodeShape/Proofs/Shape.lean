import CodeShape.Node.Equality
import CodeShape.Node.Rebuild
import Mathlib.Data.List.Forall2

/-!
Labels and slots. Nodes of one shape have equally many slots, and a label builds a node from any
slots of the kinds that nodes with the label have. Rebuilding a tree names the parts of every kind
of node again, and this comes to going slot by slot.
-/
namespace CodeShape

namespace Label

/-- The number of slots of a node with the label, by the place of the label in its type. -/
def arity (l : Label) : Nat :=
  [1, 1, 1, 0, 3, 4, 3, 2, 2, 1, 0, 0, 1, 4, 1, 2, 3, 3, 2, 2, 1, 2, 2, 1, 3, 2, 2, 2, 1, 1, 1, 2,
    1, 1, 2, 0, 0, 0, 0, 0].getD l.ctorIdx 0

/-- Equal labels are of one kind. -/
theorem ctorIdx_eq_of_beq {l l' : Label} (h : l == l') : l.ctorIdx = l'.ctorIdx := by
  change instBEqLabel.beq l l' = true at h
  rw [instBEqLabel.beq] at h
  split at h
  · assumption
  · cases h

/-- Writing a shorthand property out leaves its kind. -/
theorem ctorIdx_unabbreviated (l : Label) : l.unabbreviated.ctorIdx = l.ctorIdx := by
  cases l <;> rfl

end Label

namespace Node

/-- A slot of runs as a slot of nodes. -/
def settle : Field (List Node) → Field Node
  | .one nodes => .one (ofRun nodes)
  | .opt nodes => .opt (nodes.map ofRun)
  | .stmt nodes => .stmt (nodes.map ofRun)
  | .seq pairing runs => .seq pairing runs.flatten

/-- A node has the slots of its kind. -/
theorem length_fields (n : Node) : n.fields.length = n.label.arity := by
  cases n <;> rfl

/-- Nodes of one shape have equally many slots. -/
theorem length_fields_of_sameShape {a b : Node} (h : a.sameShape b) :
    a.fields.length = b.fields.length := by
  have hIdx := Label.ctorIdx_eq_of_beq h
  rw [Label.ctorIdx_unabbreviated, Label.ctorIdx_unabbreviated] at hIdx
  rw [length_fields, length_fields, Label.arity, Label.arity, hIdx]

end Node

theorem mapM_congr {α β : Type} {m : Type → Type} [Monad m] [LawfulMonad m] {f g : α → m β}
    {items : List α} (h : ∀ a ∈ items, f a = g a) : items.mapM f = items.mapM g := by
  induction items with
  | nil => rfl
  | cons a items ih =>
      rw [List.mapM_cons, List.mapM_cons, h a (by simp), ih fun a ha => h a (by simp [ha])]

namespace Field

variable {α β γ : Type}

/-- The slots are of one kind and agree in whether they are filled. -/
inductive Alike : Field α → Field β → Prop where
  | one {a : α} {b : β} : Alike (.one a) (.one b)
  | optNone : Alike (.opt none) (.opt none)
  | optSome {a : α} {b : β} : Alike (.opt (some a)) (.opt (some b))
  | stmtNone : Alike (.stmt none) (.stmt none)
  | stmtSome {a : α} {b : β} : Alike (.stmt (some a)) (.stmt (some b))
  | seq {pairing : Pairing} {as : List α} {bs : List β} : Alike (.seq pairing as) (.seq pairing bs)

/-- Settling the parts of a slot leaves what kind of slot it is. -/
theorem Alike.settle {f : Field α} {g : Field (List Node)} (h : Alike f g) :
    Alike f (Node.settle g) := by
  cases h <;> constructor

/-- Two images of one slot are alike. -/
theorem alike_map_map (f : α → β) (g : α → γ) (field : Field α) :
    Alike (field.map f) (field.map g) := by
  cases field with
  | one a => exact .one
  | opt a? => cases a? <;> constructor
  | stmt a? => cases a? <;> constructor
  | seq pairing as => exact .seq

theorem map_map (f : α → β) (g : β → γ) (field : Field α) :
    (field.map f).map g = field.map fun a => g (f a) := by
  cases field with
  | one a => rfl
  | opt a? => cases a? <;> rfl
  | stmt a? => cases a? <;> rfl
  | seq pairing as => simp [map]

/-- Replaces every child, from left to right. -/
def mapM {m : Type → Type} [Monad m] (f : α → m β) : Field α → m (Field β)
  | one a => one <$> f a
  | opt none => pure (opt none)
  | opt (some a) => (fun b => opt (some b)) <$> f a
  | stmt none => pure (stmt none)
  | stmt (some a) => (fun b => stmt (some b)) <$> f a
  | seq pairing as => seq pairing <$> as.mapM f

/-- Going over a slot with the membership of its parts at hand is going over it. -/
theorem mapMemM_eq_mapM {m : Type → Type} [Monad m] [LawfulMonad m] (f : α → m β)
    (field : Field α) : (field.mapMemM fun a _ => f a) = field.mapM f := by
  cases field with
  | one a => rfl
  | opt a? => cases a? <;> rfl
  | stmt a? => cases a? <;> rfl
  | seq pairing as =>
      have hList : (as.attach.mapM fun x => f x.1) = as.mapM f := by
        rw [List.mapM_subtype (g := f) fun _ _ => rfl, List.unattach_attach]
      exact congrArg (seq pairing <$> ·) hList

/-- Two visits that agree on the parts of a slot agree on the slot. -/
theorem mapM_congr {m : Type → Type} [Monad m] [LawfulMonad m] {f g : α → m β} {field : Field α}
    (h : ∀ a ∈ field.toList, f a = g a) : field.mapM f = field.mapM g := by
  cases field with
  | one a => exact congrArg (one <$> ·) (h a (by simp [toList]))
  | opt a? =>
      cases a? with
      | none => rfl
      | some a => exact congrArg ((fun b => opt (some b)) <$> ·) (h a (by simp [toList]))
  | stmt a? =>
      cases a? with
      | none => rfl
      | some a => exact congrArg ((fun b => stmt (some b)) <$> ·) (h a (by simp [toList]))
  | seq pairing as => exact congrArg (seq pairing <$> ·) (CodeShape.mapM_congr h)

/-- Going over an image is going over the slot itself. -/
theorem mapM_map {m : Type → Type} [Monad m] [LawfulMonad m] (g : α → β) (f : β → m γ)
    (field : Field α) : (field.map g).mapM f = field.mapM fun a => f (g a) := by
  cases field with
  | one a => rfl
  | opt a? => cases a? <;> rfl
  | stmt a? => cases a? <;> rfl
  | seq pairing as => exact congrArg (seq pairing <$> ·) (List.mapM_map ..)

end Field

namespace Node

/-- A label takes any slots of the right kinds, and they can be read back. -/
theorem view_build {n : Node} {fs : List (Field Node)} (h : List.Forall₂ Field.Alike n.fields fs) :
    (n.label.build fs).label = n.label ∧ (n.label.build fs).fields = fs := by
  cases n <;> unfold fields at h <;>
    (repeat' (cases ‹List.Forall₂ _ (_ :: _) _›)) <;> (cases ‹List.Forall₂ _ [] _›) <;>
    (repeat' (cases ‹Field.Alike _ _›)) <;> exact ⟨rfl, rfl⟩

end Node

namespace Site

/-- The slots of a site hold the slots of its node. -/
theorem map_node_fields (s : Site) : s.fields.map (Field.map node) = s.node.fields := by
  have hNumber : ∀ start (fields : List (Field Node)),
      (Field.numberAll start fields).map (Field.map Prod.snd) = fields := by
    intro start fields
    induction fields generalizing start with
    | nil => rfl
    | cons field fields ih =>
        rw [Field.numberAll, List.map_cons, ih]
        congr 1
        cases field with
        | one c => rfl
        | opt c? => cases c? <;> rfl
        | stmt c? => cases c? <;> rfl
        | seq pairing cs =>
            simp [Field.number, Field.map, Function.comp_def, List.zipIdx_map_fst]
  rw [fields, List.map_map]
  exact (congrArg (List.map · _) (funext fun field => Field.map_map _ _ field)).trans
    (hNumber 0 s.node.fields)

variable {m : Type → Type} [Monad m] [LawfulMonad m]

section Slots

variable (visit : Site → m Replacement)

/-- A slot of sites with the nodes at them rebuilt. -/
def settleM (field : Field Site) : m (Field Node) := Node.settle <$> field.mapM (rebuildM visit)

/-- A list of parts is rebuilt part by part at its own numbers and the results are put together in
order. -/
theorem rebuildSeqM_eq (path : List Nat) (i : Nat) (parts : List Node) :
    rebuildSeqM visit path i parts =
      List.flatten <$> (parts.zipIdx i).mapM fun part => rebuildM visit ⟨path ++ [part.2], part.1⟩ := by
  induction parts generalizing i with
  | nil => simp [rebuildSeqM]
  | cons part parts ih => simp [rebuildSeqM, ih, List.mapM_cons]

variable (s : Site) (i : Nat)

/-- A single part is settled as it is rebuilt. -/
theorem settleM_one (part : Node) :
    settleM visit (((Field.one part).number i).map s.below) =
      .one <$> rebuildOneM visit s.path i part := by
  simp [settleM, Field.number, Field.map, Field.mapM, rebuildOneM, Node.settle, below]

/-- An optional part is settled as it is rebuilt. -/
theorem settleM_opt (part : Option Node) :
    settleM visit (((Field.opt part).number i).map s.below) =
      .opt <$> rebuildOptM visit s.path i part := by
  cases part <;>
    simp [settleM, Field.number, Field.map, Field.mapM, rebuildOptM, rebuildOneM, Node.settle, below]

/-- A statement's part is settled as it is rebuilt. -/
theorem settleM_stmt (part : Option Node) :
    settleM visit (((Field.stmt part).number i).map s.below) =
      .stmt <$> rebuildOptM visit s.path i part := by
  cases part <;>
    simp [settleM, Field.number, Field.map, Field.mapM, rebuildOptM, rebuildOneM, Node.settle, below]

/-- A row of parts is settled as it is rebuilt. -/
theorem settleM_seq (pairing : Pairing) (parts : List Node) :
    settleM visit (((Field.seq pairing parts).number i).map s.below) =
      .seq pairing <$> rebuildSeqM visit s.path i parts := by
  simp [settleM, Field.number, Field.map, Field.mapM, rebuildSeqM_eq, Node.settle, List.mapM_map]
  rfl

/-- The slots from the one numbered `i` on, with the nodes in them rebuilt. -/
def settleAllM (fields : List (Field Node)) : m (List (Field Node)) :=
  ((Field.numberAll i fields).map (Field.map s.below)).mapM (settleM visit)

omit [LawfulMonad m] in
theorem settleAllM_nil : settleAllM visit s i [] = pure [] :=
  rfl

/-- The slots are settled from left to right, the numbers of the later ones going on where the first
has stopped. -/
theorem settleAllM_cons (field : Field Node) (fields : List (Field Node)) :
    settleAllM visit s i (field :: fields) = do
      let settled ← settleM visit ((field.number i).map s.below)
      return settled :: (← settleAllM visit s (i + field.toList.length) fields) :=
  List.mapM_cons

/-- Every kind of node rebuilds its parts slot by slot. -/
theorem rebuildPartsM_eq :
    rebuildPartsM visit s.path s.node = do
      let fields ← s.fields.mapM (Field.mapM (rebuildM visit))
      return s.node.label.build (fields.map Node.settle) := by
  have hSettled : ∀ fields : List (Field Site), fields.mapM (settleM visit) =
      List.map Node.settle <$> fields.mapM (Field.mapM (rebuildM visit)) := by
    intro fields
    induction fields with
    | nil => simp
    | cons field fields ih => simp [ih, settleM, List.mapM_cons]
  have hBuild : (do
      let fields ← s.fields.mapM (Field.mapM (rebuildM visit))
      return s.node.label.build (fields.map Node.settle)) =
      s.node.label.build <$> settleAllM visit s 0 s.node.fields := by
    rw [settleAllM, ← fields, hSettled]
    simp
  rw [hBuild]
  obtain ⟨path, n⟩ := s
  cases n <;>
    simp only [rebuildPartsM, Node.fields, Node.label, settleAllM_cons, settleAllM_nil, settleM_one,
      settleM_opt, settleM_stmt, settleM_seq, Field.toList, List.length_singleton,
      Option.toList_some, Nat.zero_add, Nat.reduceAdd, rebuildOptM, bind_map_left, bind_assoc,
      pure_bind, map_bind, map_pure] <;>
    rfl

end Slots

/-- Rebuilding goes slot by slot, whatever the kind of node. -/
theorem rebuildM_eq (visit : Site → m Replacement) (s : Site) :
    s.rebuildM visit = do
      match ← visit s with
      | .run nodes => return nodes
      | .keep =>
        let fields ← s.fields.mapM (Field.mapM (rebuildM visit))
        return [s.node.label.build (fields.map Node.settle)] := by
  rw [rebuildM]
  congr 1
  funext answer
  cases answer with
  | run nodes => rfl
  | keep =>
      simp only [rebuildPartsM_eq]
      simp

/-- A visitor that only looks at nodes makes the same of equal nodes, wherever they stand. -/
theorem rebuildM_root (visit : Node → m Replacement) (s : Site) :
    s.rebuildM (fun s => visit s.node) = (root s.node).rebuildM fun s => visit s.node := by
  induction hSize : sizeOf s.node using Nat.strongRecOn generalizing s with
  | ind size ih =>
      -- both sides rebuild the children of the node, each from its own top
      have hFields : ∀ t : Site, t.node = s.node →
          t.fields.mapM (Field.mapM (rebuildM fun s => visit s.node)) =
            s.node.fields.mapM (Field.mapM fun c => (root c).rebuildM fun s => visit s.node) := by
        intro t ht
        rw [← ht, ← t.map_node_fields, List.mapM_map]
        apply mapM_congr
        intro field hField
        refine Eq.trans ?_ (Field.mapM_map ..).symm
        apply Field.mapM_congr
        intro c hc
        refine ih _ ?_ c rfl
        rw [← hSize, ← ht]
        exact sizeOf_lt_of_mem_children (List.mem_flatMap.2 ⟨field, hField, hc⟩)
      rw [rebuildM_eq, rebuildM_eq, hFields s rfl, hFields (root s.node) rfl]
      rfl

omit [Monad m] [LawfulMonad m] in
/-- Rebuilding with a visitor that has no effects. -/
theorem rebuild_eq (visit : Site → Replacement) (s : Site) :
    Id.run (s.rebuildM fun s => pure (visit s)) =
      match visit s with
      | .run nodes => nodes
      | .keep => [s.node.label.build (s.fields.map fun field =>
          Node.settle (field.map fun c => Id.run (c.rebuildM fun s => pure (visit s))))] := by
  have hSlot : ∀ (f : Site → Id (List Node)) (field : Field Site),
      field.mapM f = pure (field.map fun c => Id.run (f c)) := by
    intro f field
    cases field with
    | one c => rfl
    | opt c? => cases c? <;> rfl
    | stmt c? => cases c? <;> rfl
    | seq pairing cs =>
        have hList : cs.mapM f = pure (cs.map fun c => Id.run (f c)) := List.mapM_pure ..
        rw [Field.mapM, hList]
        rfl
  rw [rebuildM_eq]
  change Id.run (match visit s with | .run nodes => _ | .keep => _) = _
  cases visit s with
  | run nodes => rfl
  | keep =>
      have hFields : s.fields.mapM (Field.mapM (rebuildM fun s => (pure (visit s) : Id _))) =
          pure (s.fields.map fun field =>
            field.map fun c => Id.run (c.rebuildM fun s => pure (visit s))) := by
        rw [← List.mapM_pure]
        exact mapM_congr fun field _ => hSlot _ field
      simp only [hFields, pure_bind, List.map_map]
      rfl

end Site

end CodeShape
