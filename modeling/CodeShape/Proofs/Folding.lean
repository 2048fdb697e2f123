import CodeShape.Finder
import CodeShape.Proofs.Clutter

/-! Folding constants leaves statements where they are. An operation on numbers becomes a number, and
any other node stays, with its children folded in their places. So a program with further statements
is one still after its constants are folded, and nothing is put in where nothing was. -/
namespace CodeShape

namespace Field

variable {α β γ δ : Type}

theorem map_id : map (id : α → α) = id := by
  funext field
  cases field with
  | one a => rfl
  | opt a? => cases a? <;> rfl
  | stmt a? => cases a? <;> rfl
  | seq pairing as => simp [map]

theorem number_map (f : α → β) (start : Nat) (field : Field α) :
    (field.map f).number start = (field.number start).map (Prod.map id f) := by
  cases field with
  | one a => rfl
  | opt a? => cases a? <;> rfl
  | stmt a? => cases a? <;> rfl
  | seq pairing as => simp [map, number, List.zipIdx_map, Function.comp_def]

/-- Parts are numbered alike after they have been replaced. -/
theorem numberAll_map (f : α → β) (start : Nat) (fields : List (Field α)) :
    numberAll start (fields.map (map f)) = (numberAll start fields).map (map (Prod.map id f)) := by
  induction fields generalizing start with
  | nil => rfl
  | cons field fields ih =>
      rw [List.map_cons, numberAll, numberAll, List.map_cons, number_map, toList_map,
        List.length_map, ih]

/-- A single part is padded by nothing. -/
theorem Padded.of_one {r : α → β → Prop} {a : α} {b : β} (h : Padded r (.one a) (.one b)) :
    r a b := by
  cases h with
  | related h =>
      cases h with
      | one h => exact h

/-- Slots stay related when their children are replaced by related ones. -/
theorem Padded.map {r : α → β → Prop} {r' : γ → δ → Prop} {F : α → γ} {G : β → δ} {f : Field α}
    {g : Field β} (h : Padded r f g) (hr : ∀ a ∈ f.toList, ∀ b, r a b → r' (F a) (G b)) :
    Padded r' (f.map F) (g.map G) := by
  have hItems : ∀ {as : List α} {bs : List β}, (∀ a ∈ as, ∀ b, r a b → r' (F a) (G b)) →
      List.Forall₂ r as bs → List.Forall₂ r' (as.map F) (bs.map G) := by
    intro as bs hr h
    rw [List.forall₂_map_left_iff, List.forall₂_map_right_iff]
    have hMem := (List.forall₂_and_left (p := (· ∈ as)) as bs).2 ⟨fun a ha => ha, h⟩
    exact hMem.imp fun a b hab => hr a hab.1 b hab.2
  cases h with
  | statements h =>
      obtain ⟨bs, hForall, hSub⟩ := List.sublistForall₂_iff.1 h
      exact .statements (List.sublistForall₂_iff.2 ⟨_, hItems hr hForall, hSub.map G⟩)
  | related h =>
      cases h with
      | one h => exact .related (.one (hr _ (List.mem_singleton_self _) _ h))
      | optNone => exact .related .optNone
      | optSome h => exact .related (.optSome (hr _ (List.mem_singleton_self _) _ h))
      | stmtNone => exact .related .stmtNone
      | stmtSome h => exact .related (.stmtSome (hr _ (List.mem_singleton_self _) _ h))
      | seq h => exact .related (.seq (hItems hr h))

/-- Padded rows stay so when their parts are replaced by corresponding ones. -/
theorem forall₂_padded_map {r : α → β → Prop} {r' : γ → δ → Prop} {F : α → γ} {G : β → δ}
    {fs : List (Field α)} {gs : List (Field β)} (h : List.Forall₂ (Padded r) fs gs)
    (hr : ∀ f ∈ fs, ∀ a ∈ f.toList, ∀ b, r a b → r' (F a) (G b)) :
    List.Forall₂ (Padded r') (fs.map (Field.map F)) (gs.map (Field.map G)) := by
  induction h with
  | nil => exact .nil
  | cons hSlot _ ih =>
      refine .cons (hSlot.map (hr _ List.mem_cons_self)) (ih fun f hf => ?_)
      exact hr f (List.mem_cons_of_mem _ hf)

end Field

/-- Only operations become numbers. -/
def Label.isOperation : Label → Bool
  | .unary _ | .binary _ => true
  | _ => false

namespace Node

/-- The number that a node becomes when constants are folded. -/
def collapsed? : Node → Option Node
  | .unary .neg argument =>
    if argument.foldConstants.number?.isSome then some (negated argument.foldConstants) else none
  | .unary .plus argument =>
    if argument.foldConstants.number?.isSome then some (affirmed argument.foldConstants) else none
  | .binary op left right => computed? op left right
  | _ => none

/-- Only operations collapse. -/
theorem collapsed?_of_not_operation {n : Node} (h : n.label.isOperation = false) :
    n.collapsed? = none := by
  cases n with
  | unary | binary => cases h
  | _ => rfl

/-- A minus sign stays in front of what is no number. -/
theorem negated_of_not_number {n : Node} (h : n.number?.isSome = false) :
    negated n = .unary .neg n := by
  unfold negated
  split
  · cases h
  · rfl

/-- A plus sign stays in front of what is no number. -/
theorem affirmed_of_not_number {n : Node} (h : n.number?.isSome = false) :
    affirmed n = .unary .plus n := by
  unfold affirmed
  split
  · cases h
  · rfl

theorem mapChildren_eq (n : Node) (f : Node → Node) :
    (n.mapChildren fun c _ => f c) = n.label.build (n.fields.map (Field.map f)) := by
  have hSlot : ∀ field : Field Node,
      Id.run (field.mapMemM fun c _ => pure (f c)) = field.map f := by
    intro field
    rw [Field.mapMemM_eq_mapM]
    cases field with
    | one a => rfl
    | opt a? => cases a? <;> rfl
    | stmt a? => cases a? <;> rfl
    | seq pairing as => exact congrArg (Field.seq pairing) (List.mapM_pure (m := Id) ..)
  rw [mapChildren]
  congr 1
  simp only [hSlot]
  exact List.attach_map_val (l := n.fields) (f := Field.map f)

/-- A node becomes a number or stays with its children folded. -/
theorem foldConstants_eq (n : Node) :
    n.foldConstants =
      n.collapsed?.getD (n.label.build (n.fields.map (Field.map foldConstants))) := by
  have hSlots : ∀ op argument, (Node.unary op argument).label.build
      ((Node.unary op argument).fields.map (Field.map foldConstants)) =
        .unary op argument.foldConstants := fun _ _ => rfl
  rw [foldConstants.eq_def]
  split
  · next argument =>
      rw [collapsed?, hSlots]
      split
      · rfl
      · next h => exact negated_of_not_number (by simpa using h)
  · next argument =>
      rw [collapsed?, hSlots]
      split
      · rfl
      · next h => exact affirmed_of_not_number (by simpa using h)
  · rfl
  · next hNeg hPlus hBinary =>
      rw [mapChildren_eq]
      have hNone : n.collapsed? = none := by
        unfold collapsed?
        split
        · exact absurd rfl (hNeg _)
        · exact absurd rfl (hPlus _)
        · exact absurd rfl (hBinary _ _ _)
        · rfl
      rw [hNone]
      rfl

/-- What does not collapse keeps its label and has its slots folded. -/
theorem view_foldConstants {n : Node} (h : n.collapsed? = none) :
    n.foldConstants.label = n.label ∧
      n.foldConstants.fields = n.fields.map (Field.map foldConstants) := by
  rw [foldConstants_eq, h]
  refine view_build (List.forall₂_map_right_iff.2 (List.forall₂_same.2 fun field _ => ?_))
  exact (Field.related_map (r := fun _ _ => True) (fun _ => trivial) field).alike

/-- Whether a node is a number shows in its label. -/
theorem number?_eq_of_label {a b : Node} (h : b.label = a.label) : b.number? = a.number? := by
  have hNumber : ∀ {a b : Node}, b.label = a.label → ∀ {x}, a.number? = some x →
      b.number? = some x := by
    intro a b h x hx
    cases a with
    | literal =>
        cases b with
        | literal => cases h; exact hx
        | _ => cases h
    | _ => cases hx
  exact Option.ext fun x => ⟨hNumber h.symm, hNumber h⟩

/-- Numbers with one label are equal. -/
theorem eq_of_label_of_number {a b : Node} (h : b.label = a.label) (ha : a.number?.isSome) :
    b = a := by
  cases a with
  | literal =>
      cases b with
      | literal => cases h; rfl
      | _ => cases h
  | _ => cases ha

/-- The number that an operation becomes depends on the labels below it only. -/
theorem collapsed?_congr {m n : Node} (hLabel : n.label = m.label)
    (hSlots : List.Forall₂ (Field.Padded fun c d => d.label = c.label ∧
      d.foldConstants.label = c.foldConstants.label) m.fields n.fields) :
    n.collapsed? = m.collapsed? := by
  by_cases hOperation : m.label.isOperation
  · cases m with
    | unary op argument =>
        cases n with
        | unary _ argument' =>
            cases hLabel
            obtain ⟨-, hFolded⟩ := (List.forall₂_cons.1 hSlots).1.of_one
            have hSign : ∀ sign : Node → Node,
                (if argument'.foldConstants.number?.isSome then some (sign argument'.foldConstants)
                  else none) =
                if argument.foldConstants.number?.isSome then some (sign argument.foldConstants)
                  else none := by
              intro sign
              rw [number?_eq_of_label hFolded]
              split
              · next hNumber => rw [eq_of_label_of_number hFolded hNumber]
              · rfl
            cases op with
            | neg => exact hSign negated
            | plus => exact hSign affirmed
            | _ => rfl
        | _ => cases hLabel
    | binary op left right =>
        cases n with
        | binary =>
            cases hLabel
            obtain ⟨hLeft, hRest⟩ := List.forall₂_cons.1 hSlots
            obtain ⟨hRight, -⟩ := List.forall₂_cons.1 hRest
            rw [collapsed?, collapsed?, computed?, computed?,
              number?_eq_of_label hLeft.of_one.1, number?_eq_of_label hRight.of_one.1]
        | _ => cases hLabel
    | _ => cases hOperation
  · have hOther : m.label.isOperation = false := by simpa using hOperation
    rw [collapsed?_of_not_operation hOther, collapsed?_of_not_operation (hLabel ▸ hOther)]

end Node

namespace Site

/-- The slots below a folded node hold the folded sites. -/
theorem fields_of_folded {s t : Site} (hPath : t.path = s.path)
    (hFields : t.node.fields = s.node.fields.map (Field.map Node.foldConstants)) :
    t.fields = s.fields.map (Field.map fun c => ⟨c.path, c.node.foldConstants⟩) := by
  rw [fields, fields, hFields, Field.numberAll_map, List.map_map, List.map_map]
  congr 1
  funext field
  simp [Field.map_map, below, hPath]

/-- After its constants are folded, a program with further statements is one still. -/
theorem Cluttered.foldConstants {kept : List (List Nat)} {s t : Site} {n : Node}
    (h : Cluttered kept s n) (hPath : t.path = s.path) (hNode : t.node = s.node.foldConstants) :
    Cluttered kept t n.foldConstants := by
  induction hSize : sizeOf s.node using Nat.strongRecOn generalizing s t n with
  | ind size ih =>
      cases h with
      | same =>
          rw [← hNode]
          exact .same t
      | grown hOpen hLabel hSlots =>
          have hFolded : ∀ f ∈ s.fields, ∀ c ∈ f.toList, ∀ d, Cluttered kept c d →
              Cluttered kept ⟨c.path, c.node.foldConstants⟩ d.foldConstants := by
            intro f hf c hc d hEcho
            exact ih _ (hSize ▸ sizeOf_lt_of_mem_children (mem_children_of_field hf hc)) hEcho rfl
              rfl rfl
          have hNumber : n.collapsed? = s.node.collapsed? := by
            refine Node.collapsed?_congr hLabel ?_
            rw [← s.map_node_fields, ← List.map_id n.fields, ← Field.map_id]
            refine Field.forall₂_padded_map hSlots fun f hf c hc d hEcho => ?_
            exact ⟨hEcho.label_eq, (hFolded f hf c hc d hEcho).label_eq⟩
          cases hCollapsed : s.node.collapsed? with
          | some number =>
              -- both have become the same number
              have hEq : n.foldConstants = t.node := by
                rw [hNode, n.foldConstants_eq, s.node.foldConstants_eq, hNumber, hCollapsed]
                rfl
              rw [hEq]
              exact .same t
          | none =>
              obtain ⟨hTop, hFields⟩ := Node.view_foldConstants hCollapsed
              obtain ⟨hTop', hFields'⟩ := Node.view_foldConstants (hNumber.trans hCollapsed)
              refine .grown (hPath ▸ hOpen) (by rw [hTop', hNode, hTop, hLabel]) ?_
              rw [hFields', fields_of_folded hPath (hNode ▸ hFields)]
              exact Field.forall₂_padded_map hSlots hFolded

end Site

/-- The second program is the first with any statements put into its bodies, except at and below the
places that are kept. They are put in as they are written, before constants are folded. -/
inductive Source.Cluttered (kept : List (List Nat)) : Source → Source → Prop where
  | text {t t' : String} {n n' : Node} (ht : Node.ofProgramText t = .ok n)
      (ht' : Node.ofProgramText t' = .ok n') (h : (Site.root n).Cluttered kept n') :
      Cluttered kept (.text t) (.text t')
  | tree {n n' : Node} (h : (Site.root n).Cluttered kept n') : Cluttered kept (.tree n) (.tree n')

/-- A cluttered source has a cluttered tree. -/
theorem Source.Cluttered.exists_tree {kept : List (List Nat)} {source source' : Source} {n : Node}
    (h : source.Cluttered kept source') (hTree : source.tree? = .ok n) :
    ∃ n', source'.tree? = .ok n' ∧ (Site.root n).Cluttered kept n' := by
  cases h with
  | text ht ht' h =>
      rw [tree?, ht] at hTree
      cases hTree
      refine ⟨_, ?_, h.foldConstants rfl rfl⟩
      rw [tree?, ht']
      rfl
  | tree h =>
      cases hTree
      exact ⟨_, rfl, h⟩

end CodeShape
