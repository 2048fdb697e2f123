import CodeShape.Pattern.Compile
import CodeShape.Proofs.Wildcards

/-! Which patterns are accepted. Globs have to stand in lists or for statements, never side by side;
each name has one extent. Validation accepts exactly the patterns of this kind and returns the names
in them. -/
namespace CodeShape

/-- Globs below a node are where runs have room, and no two of them side by side. -/
inductive Node.Orderly : Node → Prop where
  | intro {n : Node}
      (hRoom : ∀ field ∈ n.fields, ∀ c ∈ field.toList, c.glob?.isSome → Pattern.hasRoom field)
      (hApart : ∀ field ∈ n.fields, Pattern.checkNeighbours field = .ok ())
      (hChild : ∀ field ∈ n.fields, ∀ c ∈ field.toList, c.Orderly) : Orderly n

namespace Pattern

/-- The names gained are those of the given wildcards, each with its extent. -/
def Adds (ws : List Wildcard) (vars vars' : List (String × Extent)) : Prop :=
  ∀ name extent, vars'.lookup name = some extent ↔
    vars.lookup name = some extent ∨ ⟨some name, extent⟩ ∈ ws

/-- A name has the extent that a table gives it. -/
def Heeds (extentOf : String → Extent) (w : Wildcard) : Prop :=
  ∀ name, w.name = some name → w.extent = extentOf name

theorem Adds.nil (vars : List (String × Extent)) : Adds [] vars vars := by
  intro name extent
  simp

/-- Names that are added in two goes are added in one. -/
theorem Adds.append {ws ws' : List Wildcard} {vars vars' vars'' : List (String × Extent)}
    (h : Adds ws vars vars') (h' : Adds ws' vars' vars'') : Adds (ws ++ ws') vars vars'' := by
  intro name extent
  rw [h' name extent, h name extent, List.mem_append, or_assoc]

/-- A wildcard that is accepted has room if it is a glob, and adds its name. -/
theorem addWildcard_ok {room : Bool} {w : Wildcard} {vars vars' : List (String × Extent)}
    (h : addWildcard room w vars = .ok vars') :
    (w.extent = .glob → room) ∧ Adds [w] vars vars' := by
  obtain ⟨name?, extent⟩ := w
  unfold addWildcard at h
  split at h
  · cases h
  · next hRoom =>
      refine ⟨by simpa using hRoom, ?_⟩
      intro name extent'
      cases name? with
      | none =>
          cases h
          simp
      | some name' =>
          simp only at h
          cases hOld : vars.lookup name' with
          | none =>
              simp only [hOld, Except.ok.injEq] at h
              subst h
              by_cases hName : name = name'
              · subst hName
                simp [List.lookup_append, hOld, eq_comm]
              · simp [List.lookup_append, hName, List.lookup_cons, beq_eq_false_iff_ne.2 hName]
          | some old =>
              simp only [hOld] at h
              split at h
              · next hSame =>
                  subst hSame
                  cases h
                  by_cases hName : name = name'
                  · subst hName
                    simp [hOld, eq_comm]
                  · simp [hName]
              · cases h

/-- A wildcard that heeds the extents is accepted. -/
theorem addWildcard_of_heeds {extentOf : String → Extent} {room : Bool} {w : Wildcard}
    {vars : List (String × Extent)} (hRoom : w.extent = .glob → room) (hw : Heeds extentOf w)
    (hVars : ∀ name extent, vars.lookup name = some extent → extent = extentOf name) :
    ∃ vars', addWildcard room w vars = .ok vars' := by
  unfold addWildcard
  have hFits : ¬(decide (w.extent = .glob) && !room) = true := by
    cases room <;> simp_all
  rw [if_neg hFits]
  cases hName : w.name with
  | none => exact ⟨vars, rfl⟩
  | some name =>
      simp only
      cases hOld : vars.lookup name with
      | none => exact ⟨_, rfl⟩
      | some extent =>
          have hSame : extent = w.extent := (hVars name extent hOld).trans (hw name hName).symm
          exact ⟨vars, if_pos hSame⟩

/-- Below a node that is no wildcard, the names are collected slot by slot. -/
theorem addNames_eq_foldlM {n : Node} (h : n.wildcard? = none) (room : Bool)
    (vars : List (String × Extent)) :
    addNames room n vars = n.fields.foldlM (fun vars field => do
      checkNeighbours field
      field.toList.foldlM (fun vars c => addNames (hasRoom field) c vars) vars) vars := by
  rw [addNames.eq_def]
  split
  · cases h
  · rw [List.foldlM_subtype (g := fun vars field => do
      checkNeighbours field
      field.toList.foldlM (fun vars c => addNames (hasRoom field) c vars) vars),
      List.unattach_attach]
    intro vars field hField
    change (checkNeighbours field >>= fun _ => _) = checkNeighbours field >>= fun _ => _
    congr 1
    funext _
    rw [List.foldlM_subtype (g := fun vars c => addNames (hasRoom field) c vars),
      List.unattach_attach]
    intro vars c hc
    rfl

/-- A walk over some items that ends well has found every one of them good, and has added their
names. -/
theorem foldlM_ok {α : Type}
    {f : List (String × Extent) → α → Except Misuse (List (String × Extent))}
    {wildcardsOf : α → List Wildcard} {Good : α → Prop} {items : List α}
    {vars vars' : List (String × Extent)}
    (hStep : ∀ a ∈ items, ∀ {vars vars'}, f vars a = .ok vars' →
      Good a ∧ Adds (wildcardsOf a) vars vars')
    (h : items.foldlM f vars = .ok vars') :
    (∀ a ∈ items, Good a) ∧ Adds (items.flatMap wildcardsOf) vars vars' := by
  induction items generalizing vars with
  | nil =>
      cases h
      exact ⟨by simp, .nil _⟩
  | cons a items ih =>
      rw [List.foldlM_cons] at h
      cases hFirst : f vars a with
      | error e => rw [hFirst] at h; cases h
      | ok vars₁ =>
          rw [hFirst] at h
          obtain ⟨hGood, hAdds⟩ := hStep a (by simp) hFirst
          obtain ⟨hRest, hMore⟩ := ih (fun b hb => hStep b (by simp [hb])) h
          exact ⟨List.forall_mem_cons.2 ⟨hGood, hRest⟩, hAdds.append hMore⟩

/-- A walk over items that heed the extents ends well. -/
theorem foldlM_of_heeds {α : Type}
    {f : List (String × Extent) → α → Except Misuse (List (String × Extent))}
    {extentOf : String → Extent} {items : List α} {vars : List (String × Extent)}
    (hStep : ∀ a ∈ items, ∀ vars,
      (∀ name extent, vars.lookup name = some extent → extent = extentOf name) →
      ∃ vars', f vars a = .ok vars' ∧
        ∀ name extent, vars'.lookup name = some extent → extent = extentOf name)
    (hVars : ∀ name extent, vars.lookup name = some extent → extent = extentOf name) :
    ∃ vars', items.foldlM f vars = .ok vars' ∧
      ∀ name extent, vars'.lookup name = some extent → extent = extentOf name := by
  induction items generalizing vars with
  | nil => exact ⟨vars, rfl, hVars⟩
  | cons a items ih =>
      obtain ⟨vars₁, hFirst, hVars₁⟩ := hStep a (by simp) vars hVars
      obtain ⟨vars₂, hRest, hVars₂⟩ := ih (fun b hb => hStep b (by simp [hb])) hVars₁
      refine ⟨vars₂, ?_, hVars₂⟩
      rw [List.foldlM_cons, hFirst]
      exact hRest

theorem orderly_wildcard (w : Wildcard) : (Node.wildcard w).Orderly :=
  .intro (by simp [Node.fields]) (by simp [Node.fields]) (by simp [Node.fields])

theorem glob?_isSome_iff {w : Wildcard} : (Node.wildcard w).glob?.isSome ↔ w.extent = .glob := by
  obtain ⟨name, extent⟩ := w
  cases extent <;> simp [Node.glob?]

/-- What is accepted is orderly, and the names in it are the names found. -/
theorem addNames_ok {room : Bool} {n : Node} {vars vars' : List (String × Extent)}
    (h : addNames room n vars = .ok vars') :
    ((n.glob?.isSome → room) ∧ n.Orderly) ∧ Adds n.wildcards vars vars' := by
  induction hSize : sizeOf n using Nat.strongRecOn generalizing room n vars vars' with
  | ind size ih =>
      cases hWild : n.wildcard? with
      | some w =>
          obtain rfl := Node.eq_wildcard_of_wildcard? hWild
          rw [addNames] at h
          obtain ⟨hRoom, hAdds⟩ := addWildcard_ok h
          rw [Node.wildcards_wildcard, glob?_isSome_iff]
          exact ⟨⟨hRoom, orderly_wildcard w⟩, hAdds⟩
      | none =>
          rw [addNames_eq_foldlM hWild] at h
          have hField : ∀ field ∈ n.fields, ∀ {vars vars'}, (do
              checkNeighbours field
              field.toList.foldlM (fun vars c => addNames (hasRoom field) c vars) vars) =
                .ok vars' →
              (checkNeighbours field = .ok () ∧
                ∀ c ∈ field.toList, (c.glob?.isSome → hasRoom field) ∧ c.Orderly) ∧
              Adds (field.toList.flatMap Node.wildcards) vars vars' := by
            intro field hField vars vars' hOk
            cases hApart : checkNeighbours field with
            | error e => rw [hApart] at hOk; cases hOk
            | ok _ =>
                rw [hApart] at hOk
                obtain ⟨hGood, hAdds⟩ := foldlM_ok (fun c hc _ _ hc' =>
                  ih _ (hSize ▸ Node.sizeOf_lt_of_mem_children
                    (List.mem_flatMap.2 ⟨field, hField, hc⟩)) hc' rfl) hOk
                exact ⟨⟨rfl, hGood⟩, hAdds⟩
          obtain ⟨hGood, hAdds⟩ := foldlM_ok hField h
          refine ⟨⟨?_, .intro ?_ ?_ ?_⟩, ?_⟩
          · intro hGlob
            obtain ⟨w, hGlob⟩ := Option.isSome_iff_exists.1 hGlob
            rw [(Node.eq_wildcard_of_glob? hGlob).1] at hWild
            cases hWild
          · exact fun field hf c hc => ((hGood field hf).2 c hc).1
          · exact fun field hf => (hGood field hf).1
          · exact fun field hf c hc => ((hGood field hf).2 c hc).2
          · rw [Node.wildcards_eq, hWild, Node.children, List.flatMap_assoc]
            exact hAdds

/-- Orderly patterns in which every name has one extent are accepted. -/
theorem addNames_of_orderly (extentOf : String → Extent) {room : Bool} {n : Node}
    {vars : List (String × Extent)} (hRoom : n.glob?.isSome → room) (hOrder : n.Orderly)
    (hHeeds : ∀ w ∈ n.wildcards, Heeds extentOf w)
    (hVars : ∀ name extent, vars.lookup name = some extent → extent = extentOf name) :
    ∃ vars', addNames room n vars = .ok vars' ∧
      ∀ name extent, vars'.lookup name = some extent → extent = extentOf name := by
  induction hOrder generalizing room vars with
  | @intro n hRooms hAparts hChildren ih =>
      cases hWild : n.wildcard? with
      | some w =>
          obtain rfl := Node.eq_wildcard_of_wildcard? hWild
          rw [Node.wildcards_wildcard] at hHeeds
          have hw : Heeds extentOf w := hHeeds w (by simp)
          obtain ⟨vars', hOk⟩ := addWildcard_of_heeds
            (fun hGlob => hRoom (glob?_isSome_iff.2 hGlob)) hw hVars
          refine ⟨vars', by rw [addNames]; exact hOk, ?_⟩
          intro name extent hFind
          rcases ((addWildcard_ok hOk).2 name extent).1 hFind with hOld | hNew
          · exact hVars name extent hOld
          · rw [← List.mem_singleton.1 hNew] at hw
            exact hw name rfl
      | none =>
          rw [addNames_eq_foldlM hWild]
          refine foldlM_of_heeds ?_ hVars
          intro field hField vars hVars
          rw [hAparts field hField]
          refine foldlM_of_heeds ?_ hVars
          intro c hc vars hVars
          refine ih field hField c hc (hRooms field hField c hc) ?_ hVars
          intro w hw
          exact hHeeds w (Node.mem_wildcards_of_child (List.mem_flatMap.2 ⟨field, hField, hc⟩) hw)

theorem bind_ok {α β : Type} {x : Except Misuse α} {f : α → Except Misuse β} {r : β}
    (h : x >>= f = .ok r) : ∃ a, x = .ok a ∧ f a = .ok r := by
  cases x with
  | error e => cases h
  | ok a => exact ⟨a, rfl, h⟩

/-- A valid pattern is orderly, its names are those of its wildcards, and the conditions on it read
no other names. -/
theorem validate_ok {root : Node} {constraints : List Constraint} {vars : List (String × Extent)}
    (h : validate root constraints = .ok vars) :
    root.Orderly ∧
    (∀ name extent, vars.lookup name = some extent ↔ ⟨some name, extent⟩ ∈ root.wildcards) ∧
    ∀ c ∈ constraints, ∀ v ∈ c.vars, (vars.lookup v).isSome := by
  obtain ⟨names, hNames, h⟩ := bind_ok h
  obtain ⟨⟨-, hOrder⟩, hAdds⟩ := addNames_ok hNames
  cases hUnknown : (constraints.flatMap Constraint.vars).find? fun v => (names.lookup v).isNone with
  | some v =>
      simp only [hUnknown] at h
      cases h
  | none =>
      simp only [hUnknown] at h
      cases h
      refine ⟨hOrder, fun name extent => ?_, fun c hc v hv => ?_⟩
      · simpa using hAdds name extent
      · have hKnown := List.find?_eq_none.1 hUnknown v (List.mem_flatMap.2 ⟨c, hc, hv⟩)
        simpa using hKnown

/-- A pattern that is compiled has been validated. -/
theorem compile_ok {pattern : PatternSource} {constraints : List Constraint} {compiled : Pattern}
    (h : compile pattern constraints = .ok compiled) :
    validate compiled.root constraints = .ok compiled.vars := by
  obtain ⟨root, -, h⟩ := bind_ok h
  obtain ⟨vars, hVars, h⟩ := bind_ok h
  cases h
  exact hVars

theorem root_of_compile {n : Node} {constraints : List Constraint} {compiled : Pattern}
    (h : compile (.tree n) constraints = .ok compiled) : compiled.root = n := by
  obtain ⟨root, hTree, h⟩ := bind_ok h
  obtain ⟨vars, -, h⟩ := bind_ok h
  cases hTree
  cases h
  rfl

end Pattern

namespace Node

/-- A pattern for a single node. -/
structure Lone (p : Node) : Prop where
  noGlob : p.glob? = none
  orderly : p.Orderly

/-- Patterns in a list. -/
structure Row (ps : List Node) : Prop where
  apart : Pattern.adjacentGlobs? ps = none
  orderly : ∀ p ∈ ps, p.Orderly

/-- What a slot of an orderly pattern holds. -/
def Settled : Field Node → Prop
  | .one p | .opt (some p) => p.Lone
  | .stmt (some p) => p.Orderly
  | .opt none | .stmt none => True
  | .seq _ ps => Row ps

theorem orderly_iff {n : Node} : n.Orderly ↔ ∀ field ∈ n.fields, Settled field := by
  have hLone : ∀ {p : Node}, p.Lone ↔ (p.glob?.isSome → false = true) ∧ p.Orderly := by
    intro p
    constructor
    · intro h
      simp [h.noGlob, h.orderly]
    · intro h
      exact ⟨by simpa using h.1, h.2⟩
  have hSlot : ∀ field : Field Node, Settled field ↔
      (∀ c ∈ field.toList, c.glob?.isSome → Pattern.hasRoom field) ∧
      Pattern.checkNeighbours field = .ok () ∧ ∀ c ∈ field.toList, c.Orderly := by
    intro field
    cases field with
    | one p => simp [Settled, Field.toList, Pattern.hasRoom, Pattern.checkNeighbours, hLone]
    | opt p? =>
        cases p? with
        | none => simp [Settled, Field.toList, Pattern.checkNeighbours]
        | some p => simp [Settled, Field.toList, Pattern.hasRoom, Pattern.checkNeighbours, hLone]
    | stmt p? =>
        cases p? <;> simp [Settled, Field.toList, Pattern.hasRoom, Pattern.checkNeighbours]
    | seq pairing ps =>
        simp only [Settled, Field.toList, Pattern.hasRoom, Pattern.checkNeighbours]
        constructor
        · intro h
          exact ⟨by simp, by rw [h.apart], h.orderly⟩
        · rintro ⟨-, hApart, hOrder⟩
          refine ⟨?_, hOrder⟩
          cases hPair : Pattern.adjacentGlobs? ps with
          | none => rfl
          | some pair => rw [hPair] at hApart; cases hApart
  constructor
  · rintro ⟨hRoom, hApart, hChild⟩ field hField
    exact (hSlot field).2 ⟨hRoom field hField, hApart field hField, hChild field hField⟩
  · intro h
    exact .intro (fun field hField => ((hSlot field).1 (h field hField)).1)
      (fun field hField => ((hSlot field).1 (h field hField)).2.1)
      (fun field hField => ((hSlot field).1 (h field hField)).2.2)

theorem Row.tail {p : Node} {ps : List Node} (h : Row (p :: ps)) : Row ps := by
  refine ⟨?_, fun q hq => h.orderly q (by simp [hq])⟩
  have hApart := h.apart
  cases ps with
  | nil => rfl
  | cons q qs =>
      rw [Pattern.adjacentGlobs?] at hApart
      split at hApart
      · cases hApart
      · exact hApart

theorem Row.drop {ps : List Node} (h : Row ps) (n : Nat) : Row (ps.drop n) := by
  induction n generalizing ps with
  | zero => exact h
  | succ n ih =>
      cases ps with
      | nil => exact h
      | cons p ps => exact ih h.tail

/-- What stands next to a glob is no glob. -/
theorem Row.next {p q : Node} {qs : List Node} {w : Wildcard} (h : Row (p :: q :: qs))
    (hGlob : p.glob? = some w) : q.Lone := by
  refine ⟨?_, h.orderly q (by simp)⟩
  have hApart := h.apart
  rw [Pattern.adjacentGlobs?, hGlob] at hApart
  cases hq : q.glob? with
  | none => rfl
  | some w' => rw [hq] at hApart; cases hApart

theorem Row.singleton {p : Node} (h : p.Orderly) : Row [p] :=
  ⟨rfl, fun _ hq => List.mem_singleton.1 hq ▸ h⟩

theorem row_statements {p : Node} (h : p.Orderly) : Row (Duty.statements p) := by
  unfold Duty.statements
  split
  · exact orderly_iff.1 h (.seq .statements _) (by simp [fields])
  · exact .singleton h

theorem lone_int (n : Int) : (int n).Lone := ⟨rfl, orderly_iff.2 (by simp [int, fields])⟩

theorem lone_of_one {n e : Node} (hGlob : n.glob? = none) (hFields : n.fields = [.one e]) :
    n.Lone ↔ e.Lone := by
  constructor
  · intro h
    exact orderly_iff.1 h.orderly (.one e) (by simp [hFields])
  · intro h
    exact ⟨hGlob, orderly_iff.2 (by simpa [hFields, Settled] using h)⟩

theorem lone_of_two {n left right : Node} (hGlob : n.glob? = none)
    (hFields : n.fields = [.one left, .one right]) : n.Lone ↔ left.Lone ∧ right.Lone := by
  constructor
  · intro h
    have hSlots := orderly_iff.1 h.orderly
    exact ⟨hSlots (.one left) (by simp [hFields]), hSlots (.one right) (by simp [hFields])⟩
  · intro h
    exact ⟨hGlob, orderly_iff.2 (by simpa [hFields, Settled] using h)⟩

theorem lone_binary {op : BinaryOp} {left right : Node} :
    (Node.binary op left right).Lone ↔ left.Lone ∧ right.Lone := lone_of_two rfl rfl

theorem lone_logical {op : LogicalOp} {left right : Node} :
    (Node.logical op left right).Lone ↔ left.Lone ∧ right.Lone := lone_of_two rfl rfl

theorem lone_assign {op : AssignOp} {left right : Node} :
    (Node.assign op left right).Lone ↔ left.Lone ∧ right.Lone := lone_of_two rfl rfl

theorem lone_update {op : UpdateOp} {before : Bool} {argument : Node} :
    (Node.update op before argument).Lone ↔ argument.Lone := lone_of_one rfl rfl

theorem lone_expr {e : Node} : (Node.expr e).Lone ↔ e.Lone := lone_of_one rfl rfl

/-- A rewritten pattern is as orderly as the pattern. -/
theorem Rewrites.lone {p form : Node} (h : Rewrites p form) (hp : p.Lone) : form.Lone := by
  cases h with
  | swapBinary => exact lone_binary.2 (lone_binary.1 hp).symm
  | swapLogical => exact lone_logical.2 (lone_logical.1 hp).symm
  | expand =>
      have hParts := lone_assign.1 hp
      exact lone_assign.2 ⟨hParts.1, lone_binary.2 hParts⟩
  | contract hOperand =>
      obtain ⟨hLeft, hRight⟩ := lone_assign.1 hp
      obtain ⟨l, r, rfl, ⟨-, rfl⟩ | ⟨-, rfl⟩⟩ := operandBeside?_cases hOperand
      · exact lone_assign.2 ⟨hLeft, (lone_binary.1 hRight).2⟩
      · exact lone_assign.2 ⟨hLeft, (lone_binary.1 hRight).1⟩
  | addOne => exact lone_assign.2 ⟨lone_update.1 hp, lone_int 1⟩
  | assignSum =>
      have hArgument := lone_update.1 hp
      exact lone_assign.2 ⟨hArgument, lone_binary.2 ⟨hArgument, lone_int 1⟩⟩
  | countOne => exact lone_update.2 (lone_assign.1 hp).1
  | countSum => exact lone_update.2 (lone_assign.1 hp).1

theorem orderly_declarator {id : Node} {init : Option Node} :
    (Node.declarator id init).Orderly ↔ id.Lone ∧ ∀ value ∈ init, value.Lone := by
  rw [orderly_iff]
  cases init <;> simp [fields, Settled]

theorem lone_declaration {kind : DeclarationKind} {id : Node} {init : Option Node} :
    (Node.declaration kind [.declarator id init]).Lone ↔ id.Lone ∧ ∀ value ∈ init, value.Lone := by
  rw [← orderly_declarator]
  constructor
  · intro h
    have hRow : Row [.declarator id init] :=
      orderly_iff.1 h.orderly (.seq .ordered [.declarator id init]) (by simp [fields])
    exact hRow.orderly _ (by simp)
  · intro h
    exact ⟨rfl, orderly_iff.2 (by simpa [fields, Settled] using Row.singleton h)⟩

/-- The halves of a lone declaration are lone. -/
theorem lone_of_split {p declared assigned : Node}
    (h : p.splitDeclaration? = some (declared, assigned)) (hp : p.Lone) :
    declared.Lone ∧ assigned.Lone := by
  obtain ⟨kind, id, init, rfl, rfl, rfl⟩ := splitDeclaration?_cases h
  obtain ⟨hId, hInit⟩ := lone_declaration.1 hp
  exact ⟨lone_declaration.2 ⟨hId, by simp⟩, lone_expr.2 (lone_assign.2 ⟨hId, hInit init rfl⟩)⟩

/-- What is merged from a lone declaration and an orderly statement is lone. -/
theorem lone_of_merge {p q merged : Node} (h : p.mergeDeclaration? q = some merged)
    (hp : p.Lone) (hq : q.Orderly) : merged.Lone := by
  obtain ⟨kind, id, left, right, rfl, rfl, -, rfl⟩ := mergeDeclaration?_cases h
  have hAssign := lone_assign.1 (lone_expr.1 ⟨rfl, hq⟩)
  refine lone_declaration.2 ⟨(lone_declaration.1 hp).1, ?_⟩
  intro value hValue
  cases hValue
  exact hAssign.2

end Node

/-- Every form of a lone pattern is lone. -/
theorem Conditions.lone_of_mem_forms {conditions : Conditions} {p c form : Node}
    (h : form ∈ conditions.forms p c) (hp : p.Lone) : form.Lone := by
  rcases mem_forms h with rfl | hRewrites
  · exact hp
  · exact hRewrites.lone hp

end CodeShape
