import CodeShape.Proofs.Validation

/-!
The trees that are patterns. A tree is one if its globs stand in lists or for statements, never side
by side, and if every name in it has one extent; the conditions on it may only read its names.
Validation tells exactly these trees from all others and lists their names.
-/
namespace CodeShape

namespace Node

/-- The wildcards of a pattern are the nodes in it that are wildcards. -/
theorem mem_wildcards_iff {n : Node} {w : Wildcard} :
    w ∈ n.wildcards ↔ .wildcard w ∈ n.descendants := by
  induction hSize : sizeOf n using Nat.strongRecOn generalizing n with
  | ind size ih =>
      have hChild : (∃ c ∈ n.children, w ∈ c.wildcards) ↔
          ∃ c ∈ n.children, .wildcard w ∈ c.descendants := by
        refine exists_congr fun c => and_congr_right fun hc => ?_
        exact ih _ (hSize ▸ sizeOf_lt_of_mem_children hc) rfl
      rw [wildcards_eq, mem_descendants_iff, List.mem_append, List.mem_flatMap, hChild]
      refine or_congr_left ?_
      rw [Option.mem_toList]
      constructor
      · intro h
        exact (eq_wildcard_of_wildcard? h).symm
      · rintro rfl
        rfl

end Node

namespace Pattern

/-- No two globs follow each other in the list. -/
def GlobsApart (items : List Node) : Prop :=
  items.IsChain fun a b => ¬ (a.glob?.isSome ∧ b.glob?.isSome)

/-- A tree that is a pattern, with conditions that can be asked about it. -/
structure WellFormed (root : Node) (constraints : List Constraint) : Prop where
  /-- A glob below the root is an element of a list, or all there is in the place of a statement. -/
  placed : ∀ n ∈ root.descendants, ∀ field ∈ n.fields, ∀ c ∈ field.toList, c.glob?.isSome →
    (∃ pairing items, field = .seq pairing items) ∨ field = .stmt (some c)
  apart : ∀ n ∈ root.descendants, ∀ pairing items, .seq pairing items ∈ n.fields →
    GlobsApart items
  /-- No name is used both for a node and for a run of nodes. -/
  uniform : ∀ name, .wildcard ⟨some name, .scalar⟩ ∈ root.descendants →
    .wildcard ⟨some name, .glob⟩ ∉ root.descendants
  /-- The conditions read names of the tree. -/
  known : ∀ c ∈ constraints, ∀ v ∈ c.vars, ∃ extent, .wildcard ⟨some v, extent⟩ ∈ root.descendants

/-- No two globs are found side by side if they stand apart. -/
theorem adjacentGlobs?_eq_none_iff {items : List Node} :
    adjacentGlobs? items = none ↔ GlobsApart items := by
  unfold GlobsApart
  induction items with
  | nil => exact iff_of_true rfl .nil
  | cons a items ih =>
      cases items with
      | nil => exact iff_of_true rfl (.singleton a)
      | cons b rest =>
          rw [List.isChain_cons_cons, ← ih, adjacentGlobs?]
          cases a.glob? with
          | none => simp
          | some left => cases b.glob? <;> simp

/-- A slot passes the check of neighbours if its list has its globs apart. -/
theorem checkNeighbours_eq_ok_iff {field : Field Node} :
    checkNeighbours field = .ok () ↔
      ∀ pairing items, field = .seq pairing items → GlobsApart items := by
  cases field with
  | seq pairing items =>
      have hSeq : (∀ pairing' items', Field.seq pairing items = .seq pairing' items' →
          GlobsApart items') ↔ GlobsApart items := by
        constructor
        · intro h
          exact h pairing items rfl
        · rintro h _ _ ⟨⟩
          exact h
      rw [hSeq, ← adjacentGlobs?_eq_none_iff, checkNeighbours]
      cases adjacentGlobs? items <;> simp
  | _ => simp [checkNeighbours]

/-- A slot has room for a run if it is a list or the body of a statement. -/
theorem hasRoom_iff {field : Field Node} {c : Node} (hc : c ∈ field.toList) :
    hasRoom field ↔ (∃ pairing items, field = .seq pairing items) ∨ field = .stmt (some c) := by
  cases field with
  | stmt child =>
      obtain rfl : child = some c := by simpa [Field.toList] using hc
      simp [hasRoom]
  | _ => simp [hasRoom]

/-- A tree is orderly if every node in it is so with its own slots. -/
theorem orderly_iff_forall_mem {root : Node} :
    root.Orderly ↔ ∀ n ∈ root.descendants, ∀ field ∈ n.fields,
      (∀ c ∈ field.toList, c.glob?.isSome → hasRoom field) ∧ checkNeighbours field = .ok () := by
  constructor
  · intro h
    induction h with
    | @intro m hRoom hApart _ ih =>
        intro n hn field hField
        rcases Node.mem_descendants_iff.1 hn with rfl | ⟨c, hc, hn⟩
        · exact ⟨hRoom field hField, hApart field hField⟩
        · obtain ⟨slot, hSlot, hc⟩ := List.mem_flatMap.1 hc
          exact ih slot hSlot c hc n hn field hField
  · intro h
    induction hSize : sizeOf root using Nat.strongRecOn generalizing root with
    | ind size ih =>
        have hTop := h root (Node.mem_descendants_self root)
        refine .intro (fun field hField => (hTop field hField).1)
          (fun field hField => (hTop field hField).2) ?_
        intro field hField c hc
        have hChild : c ∈ root.children := List.mem_flatMap.2 ⟨field, hField, hc⟩
        apply ih _ (hSize ▸ Node.sizeOf_lt_of_mem_children hChild) _ rfl
        intro n hn
        exact h n (Node.mem_descendants_of_child hChild hn)

/-- A well-formed pattern is orderly. -/
theorem WellFormed.orderly {root : Node} {constraints : List Constraint}
    (h : WellFormed root constraints) : root.Orderly := by
  apply orderly_iff_forall_mem.2
  intro n hn field hField
  constructor
  · intro c hc hGlob
    exact (hasRoom_iff hc).2 (h.placed n hn field hField c hc hGlob)
  · apply checkNeighbours_eq_ok_iff.2
    rintro pairing items rfl
    exact h.apart n hn pairing items hField

/-- The names found are kept apart. -/
def Distinct (vars : List (String × Extent)) : Prop := (vars.map Prod.fst).Nodup

/-- A walk keeps names apart if each step does. -/
theorem foldlM_distinct {α : Type}
    {f : List (String × Extent) → α → Except Misuse (List (String × Extent))} {items : List α}
    (hStep : ∀ a ∈ items, ∀ {vars vars'}, f vars a = .ok vars' → Distinct vars → Distinct vars')
    {vars vars' : List (String × Extent)} (h : items.foldlM f vars = .ok vars')
    (hVars : Distinct vars) : Distinct vars' := by
  induction items generalizing vars with
  | nil =>
      cases h
      exact hVars
  | cons a items ih =>
      rw [List.foldlM_cons] at h
      obtain ⟨vars₁, hFirst, hRest⟩ := bind_ok h
      exact ih (fun b hb => hStep b (by simp [hb])) hRest (hStep a (by simp) hFirst hVars)

/-- Adding a wildcard keeps names apart. -/
theorem addWildcard_distinct {room : Bool} {w : Wildcard} {vars vars' : List (String × Extent)}
    (h : addWildcard room w vars = .ok vars') (hVars : Distinct vars) : Distinct vars' := by
  unfold addWildcard at h
  split at h
  · cases h
  · split at h
    · cases h
      exact hVars
    · next name hName =>
        split at h
        · next hNew =>
            cases h
            have hFresh : name ∉ vars.map Prod.fst := by
              intro hOld
              obtain ⟨pair, hPair, rfl⟩ := List.mem_map.1 hOld
              simpa using List.lookup_eq_none_iff.1 hNew pair hPair
            rw [Distinct, List.map_append, List.nodup_append]
            refine ⟨hVars, by simp, ?_⟩
            rintro _ hOld next hNext rfl
            obtain rfl : _ = name := List.mem_singleton.1 hNext
            exact hFresh hOld
        · split at h
          · cases h
            exact hVars
          · cases h

theorem addNames_distinct {room : Bool} {n : Node} {vars vars' : List (String × Extent)}
    (h : addNames room n vars = .ok vars') (hVars : Distinct vars) : Distinct vars' := by
  induction hSize : sizeOf n using Nat.strongRecOn generalizing room n vars vars' with
  | ind size ih =>
      cases hWild : n.wildcard? with
      | some w =>
          obtain rfl := Node.eq_wildcard_of_wildcard? hWild
          rw [addNames] at h
          exact addWildcard_distinct h hVars
      | none =>
          rw [addNames_eq_foldlM hWild] at h
          apply foldlM_distinct _ h hVars
          intro field hField vars vars' hOk hVars
          obtain ⟨_, -, hOk⟩ := bind_ok hOk
          apply foldlM_distinct _ hOk hVars
          intro c hc vars vars' hc' hVars
          have hChild : c ∈ n.children := List.mem_flatMap.2 ⟨field, hField, hc⟩
          exact ih _ (hSize ▸ Node.sizeOf_lt_of_mem_children hChild) hc' hVars rfl

/-- A well-formed pattern gives every name one extent. -/
theorem exists_extentOf {root : Node} {constraints : List Constraint}
    (h : WellFormed root constraints) :
    ∃ extentOf : String → Extent, ∀ w ∈ root.wildcards, Heeds extentOf w := by
  classical
  refine ⟨fun name => if .wildcard ⟨some name, .glob⟩ ∈ root.descendants then .glob else .scalar,
    ?_⟩
  rintro ⟨name?, extent⟩ hw name rfl
  have hMem := Node.mem_wildcards_iff.1 hw
  cases extent with
  | scalar => exact (if_neg (h.uniform name hMem)).symm
  | glob => exact (if_pos hMem).symm

/-- A tree is accepted with the names found in it, if these are all that the conditions read. -/
theorem validate_eq_ok_iff {root : Node} {constraints : List Constraint}
    {vars : List (String × Extent)} :
    validate root constraints = .ok vars ↔ addNames root.isWildcard root [] = .ok vars ∧
      ∀ c ∈ constraints, ∀ v ∈ c.vars, (vars.lookup v).isSome := by
  constructor
  · intro h
    have hKnown := (validate_ok h).2.2
    obtain ⟨names, hNames, h⟩ := bind_ok h
    split at h
    · cases h
    · cases h
      exact ⟨hNames, hKnown⟩
  · rintro ⟨hNames, hKnown⟩
    have hFind : (constraints.flatMap Constraint.vars).find? (fun v => (vars.lookup v).isNone) =
        none := by
      rw [List.find?_eq_none]
      intro v hv
      obtain ⟨c, hc, hv⟩ := List.mem_flatMap.1 hv
      simpa using hKnown c hc v hv
    rw [validate, hNames]
    simp only [bind, Except.bind, hFind]
    rfl

/-- Well-formed patterns are accepted. -/
theorem WellFormed.exists_validate {root : Node} {constraints : List Constraint}
    (h : WellFormed root constraints) : ∃ vars, validate root constraints = .ok vars := by
  obtain ⟨extentOf, hHeeds⟩ := exists_extentOf h
  have hRoom : root.glob?.isSome → root.isWildcard := by
    intro hGlob
    obtain ⟨w, hGlob⟩ := Option.isSome_iff_exists.1 hGlob
    rw [(Node.eq_wildcard_of_glob? hGlob).1]
    rfl
  obtain ⟨vars, hNames, -⟩ : ∃ vars, addNames root.isWildcard root [] = .ok vars ∧ _ :=
    addNames_of_orderly extentOf hRoom h.orderly hHeeds (by simp)
  have hAdds := (addNames_ok hNames).2
  refine ⟨vars, validate_eq_ok_iff.2 ⟨hNames, ?_⟩⟩
  intro c hc v hv
  obtain ⟨extent, hMem⟩ := h.known c hc v hv
  rw [(hAdds v extent).2 (.inr (Node.mem_wildcards_iff.2 hMem))]
  rfl

/-- What is accepted is well-formed. -/
theorem wellFormed_of_validate {root : Node} {constraints : List Constraint}
    {vars : List (String × Extent)} (h : validate root constraints = .ok vars) :
    WellFormed root constraints := by
  obtain ⟨hOrderly, hNames, hKnown⟩ := validate_ok h
  have hSlots := orderly_iff_forall_mem.1 hOrderly
  constructor
  · intro n hn field hField c hc hGlob
    exact (hasRoom_iff hc).1 ((hSlots n hn field hField).1 c hc hGlob)
  · intro n hn pairing items hField
    exact checkNeighbours_eq_ok_iff.1 (hSlots n hn _ hField).2 pairing items rfl
  · intro name hScalar hGlob
    have hFirst := (hNames name .scalar).2 (Node.mem_wildcards_iff.2 hScalar)
    have hSecond := (hNames name .glob).2 (Node.mem_wildcards_iff.2 hGlob)
    rw [hFirst] at hSecond
    cases hSecond
  · intro c hc v hv
    obtain ⟨extent, hFind⟩ := Option.isSome_iff_exists.1 (hKnown c hc v hv)
    exact ⟨extent, Node.mem_wildcards_iff.1 ((hNames v extent).1 hFind)⟩

/-- Validation accepts exactly the well-formed patterns. The names it returns are those in the tree,
each of them once and with the extent it has there. -/
theorem validate_accepts_wellFormed (root : Node) (constraints : List Constraint) :
    ((∃ vars, validate root constraints = .ok vars) ↔ WellFormed root constraints) ∧
    ∀ vars, validate root constraints = .ok vars → Distinct vars ∧
      ∀ name extent, vars.lookup name = some extent ↔
        .wildcard ⟨some name, extent⟩ ∈ root.descendants := by
  refine ⟨⟨?_, WellFormed.exists_validate⟩, ?_⟩
  · rintro ⟨vars, h⟩
    exact wellFormed_of_validate h
  · intro vars h
    obtain ⟨-, hNames, -⟩ := validate_ok h
    refine ⟨addNames_distinct (validate_eq_ok_iff.1 h).1 List.nodup_nil, ?_⟩
    intro name extent
    rw [hNames, Node.mem_wildcards_iff]

/-- A loop around any statements, with a condition on what it tests. -/
theorem validate_accepts_wellFormed_loop :
    let root : Node :=
      .program [.whileLoop (.wildcard ⟨some "a", .scalar⟩) (.wildcard ⟨some "b", .glob⟩)]
    let constraints : List Constraint := [⟨["a"], fun _ => .pass⟩]
    validate root constraints = .ok [("a", .scalar), ("b", .glob)] ∧
      WellFormed root constraints ∧ .wildcard ⟨some "b", .glob⟩ ∈ root.descendants := by
  intro root constraints
  have hOk : validate root constraints = .ok [("a", .scalar), ("b", .glob)] := by
    apply validate_eq_ok_iff.2
    constructor
    · simp [root, addNames, Node.fields, Field.toList, checkNeighbours, adjacentGlobs?, hasRoom,
        addWildcard, bind, Except.bind, pure, Except.pure, List.lookup_cons]
    · decide
  obtain ⟨hAccepts, hNames⟩ := validate_accepts_wellFormed root constraints
  exact ⟨hOk, hAccepts.1 ⟨_, hOk⟩, ((hNames _ hOk).2 "b" .glob).1 (by decide)⟩

end Pattern

end CodeShape
