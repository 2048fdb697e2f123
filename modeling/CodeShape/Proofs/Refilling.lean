import CodeShape.Proofs.Instances
import CodeShape.Proofs.Records

/-! Filling a pattern with what it was matched with. The search meets the nameless wildcards in the
order in which filling takes their values, and it gives every name a value of the right extent, so
the bindings of a match can be put back into the pattern. -/
namespace CodeShape

theorem Binding.extent_capture (value : Binding) : value.capture.extent = value.extent := by
  cases value <;> rfl

namespace Pattern

/-- Every name among the wildcards has a value of its extent. -/
def Serves (bindings : Bindings) (ws : List Wildcard) : Prop :=
  ∀ name extent, ⟨some name, extent⟩ ∈ ws →
    ∃ value, bindings.find? name = some value ∧ value.extent = extent

/-- Steps that can be taken as long as nameless values are left, one after the other. -/
theorem exists_threads {α β : Type} {step : α → Supply → β → Supply → Prop}
    {wildcardsOf : α → List Wildcard} {items : List α}
    (hStep : ∀ a ∈ items, ∀ x : Supply, nameless (wildcardsOf a) ≤ x.left.length →
      ∃ b y, step a x b y ∧ Takes (wildcardsOf a) x y) {x : Supply}
    (hEnough : nameless (items.flatMap wildcardsOf) ≤ x.left.length) :
    ∃ bs y, Threads step items x bs y ∧ Takes (items.flatMap wildcardsOf) x y := by
  induction items generalizing x with
  | nil => exact ⟨[], x, .nil, rfl⟩
  | cons a items ih =>
      rw [List.flatMap_cons, nameless_append] at hEnough
      obtain ⟨b, y, hFirst, hTakes⟩ := hStep a (by simp) x (by omega)
      have hLeft : nameless (items.flatMap wildcardsOf) ≤ y.left.length := by
        rw [hTakes, List.length_drop]
        omega
      obtain ⟨bs, z, hRest, hMore⟩ := ih (fun a ha => hStep a (by simp [ha])) hLeft
      exact ⟨b :: bs, z, .cons hFirst hRest, hTakes.append hMore⟩

theorem exists_slot_threads {α β : Type} {step : α → Supply → β → Supply → Prop}
    {wildcardsOf : α → List Wildcard} {field : Field α}
    (hStep : ∀ a ∈ field.toList, ∀ x : Supply, nameless (wildcardsOf a) ≤ x.left.length →
      ∃ b y, step a x b y ∧ Takes (wildcardsOf a) x y) {x : Supply}
    (hEnough : nameless (field.toList.flatMap wildcardsOf) ≤ x.left.length) :
    ∃ g y, Field.Threads step field x g y ∧ Takes (field.toList.flatMap wildcardsOf) x y := by
  obtain ⟨bs, y, hThreads, hTakes⟩ := exists_threads hStep hEnough
  cases field with
  | seq pairing items => exact ⟨.seq pairing bs, y, .seq hThreads, hTakes⟩
  | one a =>
      cases hThreads with
      | cons first rest =>
          cases rest
          exact ⟨_, y, .one first, hTakes⟩
  | opt a? =>
      cases a? with
      | none =>
          cases hThreads
          exact ⟨_, x, .optNone, hTakes⟩
      | some a =>
          cases hThreads with
          | cons first rest =>
              cases rest
              exact ⟨_, y, .optSome first, hTakes⟩
  | stmt a? =>
      cases a? with
      | none =>
          cases hThreads
          exact ⟨_, x, .stmtNone, hTakes⟩
      | some a =>
          cases hThreads with
          | cons first rest =>
              cases rest
              exact ⟨_, y, .stmtSome first, hTakes⟩

theorem exists_fills_wildcard {bindings : Bindings} {w : Wildcard} (hServes : Serves bindings [w])
    {x : Supply} (hEnough : nameless [w] ≤ x.left.length) :
    ∃ run y, Fills bindings (.wildcard w) x run y ∧ Takes [w] x y := by
  obtain ⟨name?, extent⟩ := w
  cases name? with
  | some name =>
      obtain ⟨value, hFind, rfl⟩ := hServes name extent (List.mem_singleton_self _)
      refine ⟨value.nodes, x, fills_wildcard.2 ⟨value, ?_, ?_⟩, rfl⟩
      · simp only [valueOf, hFind]
        rfl
      · cases value <;> rfl
  | none =>
      obtain ⟨left, taken⟩ := x
      cases left with
      | nil => exact absurd hEnough (Nat.not_succ_le_zero 0)
      | cons value left =>
          exact ⟨value.nodes, ⟨left, taken + 1⟩, fills_wildcard.2 ⟨value, rfl, rfl⟩, rfl⟩

/-- A pattern can be filled if its names have values of their extents and if there are enough
nameless values. -/
theorem exists_fills {bindings : Bindings} {n : Node} (hServes : Serves bindings n.wildcards)
    {x : Supply} (hEnough : nameless n.wildcards ≤ x.left.length) :
    ∃ run y, Fills bindings n x run y ∧ Takes n.wildcards x y := by
  induction hSize : sizeOf n using Nat.strongRecOn generalizing n x with
  | ind size ih =>
      cases hWild : n.wildcard? with
      | some w =>
          obtain rfl := Node.eq_wildcard_of_wildcard? hWild
          rw [Node.wildcards_wildcard] at hServes hEnough ⊢
          exact exists_fills_wildcard hServes hEnough
      | none =>
          have hChild : ∀ field ∈ n.fields, ∀ c ∈ field.toList, ∀ x : Supply,
              nameless c.wildcards ≤ x.left.length →
              ∃ run y, Fills bindings c x run y ∧ Takes c.wildcards x y := by
            intro field hField c hc x hEnough
            have hMem : c ∈ n.children := List.mem_flatMap.2 ⟨field, hField, hc⟩
            have hInner : Serves bindings c.wildcards := fun name extent hw =>
              hServes name extent (Node.mem_wildcards_of_child hMem hw)
            exact ih _ (hSize ▸ Node.sizeOf_lt_of_mem_children hMem) hInner hEnough rfl
          rw [Node.wildcards_eq_of_fields hWild] at hEnough ⊢
          have hSlot : ∀ field ∈ n.fields, ∀ x : Supply,
              nameless (field.toList.flatMap Node.wildcards) ≤ x.left.length →
              ∃ g y, Field.Threads (Fills bindings) field x g y ∧
                Takes (field.toList.flatMap Node.wildcards) x y :=
            fun field hField x hLeft => exists_slot_threads (hChild field hField) hLeft
          obtain ⟨gs, y, hSlots, hTakes⟩ := exists_threads hSlot hEnough
          exact ⟨_, y, (fills_node hWild).2 ⟨gs, hSlots, rfl⟩, hTakes⟩

end Pattern

namespace Conditions

variable {conditions : Conditions}

/-- Without rules, the nameless wildcards of a pattern are bound one by one in the order of its
text. -/
theorem Records.extents_eq {top : Site} {pattern : Node} {task : Task} {start b : Branch} {log : Log}
    (hPlain : conditions.rules = none) (hOpens : Opens top pattern task start)
    (h : conditions.Records task start b log) :
    b.anonymous.map Binding.extent =
      (pattern.wildcards.filter (·.name.isNone)).map Wildcard.extent := by
  obtain ⟨hWildcards, hAnonymous, -⟩ := hOpens.wildcards_eq
  have hGains := h.gains
  have hMap : ((log.captures.filter (·.1.name.isNone)).map Prod.snd).map Binding.extent =
      ((log.captures.filter (·.1.name.isNone)).map Prod.fst).map Wildcard.extent := by
    rw [List.map_map, List.map_map]
    exact List.map_congr_left fun entry hEntry =>
      hGains.extent entry (List.mem_of_mem_filter hEntry)
  calc b.anonymous.map Binding.extent
      = ((log.captures.filter (·.1.name.isNone)).map Prod.snd).map Binding.extent := by
        rw [hGains.anonymous, hAnonymous, List.nil_append]
    _ = ((log.captures.filter (·.1.name.isNone)).map Prod.fst).map Wildcard.extent := hMap
    _ = ((log.captures.map Prod.fst).filter (·.name.isNone)).map Wildcard.extent := by
        rw [List.filter_map]
        rfl
    _ = (pattern.wildcards.filter (·.name.isNone)).map Wildcard.extent := by
        rw [h.wildcards_eq hPlain, hWildcards]

/-- A match without rules comes from an opening of the search, with a record of the way. -/
theorem exists_log_of_matched {pattern : PatternSource} {compiled : Pattern} {bindings : Bindings}
    {asked : List Inquiry} (hPlain : conditions.rules = none)
    (hCompiled : Pattern.compile pattern conditions.constraints = .ok compiled)
    (hMatched : (∃ source, conditions.matchCode source pattern = .ok (.matched bindings, asked)) ∨
      ∃ n, conditions.matchNode n pattern = .ok (.matched bindings, asked)) :
    ∃ top b task start log, Opens top compiled.root task start ∧
      conditions.Records task start b log ∧ conditions.Finds top compiled.root b ∧
      bindings = b.finish top := by
  have hWhole := splitsDeclarations_of_plain hPlain
  rcases hMatched with ⟨source, hMatched⟩ | ⟨n, hMatched⟩
  · obtain ⟨n, compiled', b, -, hCompiled', hb, rfl⟩ := exists_solution_of_matchCode hMatched
    cases hCompiled.symm.trans hCompiled'
    obtain ⟨opening, hOpening, log, hLog⟩ := exists_log_of_mem_searchCode hWhole hb
    exact ⟨_, b, _, _, log, opens_of_mem_openings hOpening, hLog, finds_of_mem_searchCode hb, rfl⟩
  · obtain ⟨compiled', b, hCompiled', hb, rfl⟩ := exists_solution_of_matchNode hMatched
    cases hCompiled.symm.trans hCompiled'
    obtain ⟨opening, hOpening, log, hLog⟩ := exists_log_of_mem_searchNode hWhole hb
    exact ⟨_, b, _, _, log, opens_of_mem_openingsAt hOpening, hLog, finds_of_mem_searchNode hb, rfl⟩

/-- Without rules the bindings of a match fit their own pattern. There is one nameless value for
each nameless wildcard, of its extent and in the order of the text, and filling the pattern with the
bindings succeeds. -/
theorem matched_bindings_refill {pattern : PatternSource} {compiled : Pattern}
    {bindings : Bindings} {asked : List Inquiry} (hPlain : conditions.rules = none)
    (hCompiled : Pattern.compile pattern conditions.constraints = .ok compiled)
    (hMatched : (∃ source, conditions.matchCode source pattern = .ok (.matched bindings, asked)) ∨
      ∃ n, conditions.matchNode n pattern = .ok (.matched bindings, asked)) :
    bindings.anonymous.map Capture.extent =
      (compiled.root.wildcards.filter (·.name.isNone)).map Wildcard.extent ∧
    ∃ t, compiled.inject bindings = .ok t := by
  obtain ⟨top, b, task, start, log, hOpens, hLog, hFinds, rfl⟩ :=
    exists_log_of_matched hPlain hCompiled hMatched
  have hExtents : (b.finish top).anonymous.map Capture.extent =
      (compiled.root.wildcards.filter (·.name.isNone)).map Wildcard.extent := by
    rw [← hLog.extents_eq hPlain hOpens, Branch.finish, List.map_map]
    exact List.map_congr_left fun value _ => value.extent_capture
  refine ⟨hExtents, ?_⟩
  obtain ⟨-, hVars, -⟩ := Pattern.validate_ok (Pattern.compile_ok hCompiled)
  have hServes : Pattern.Serves (b.finish top) compiled.root.wildcards := by
    intro name extent hMem
    obtain ⟨value, hFind, hExtent⟩ :=
      (hFinds.covers hVars).exists_value ((hVars name extent).2 hMem)
    refine ⟨value.capture, ?_, by rw [value.extent_capture, hExtent]⟩
    rw [b.find?_finish, Branch.value?, hFind]
    rfl
  have hEnough : Pattern.nameless compiled.root.wildcards ≤ (b.finish top).anonymous.length := by
    have hLength := congrArg List.length hExtents
    rw [List.length_map, List.length_map] at hLength
    exact Nat.le_of_eq hLength.symm
  obtain ⟨run, supply, hFills, -⟩ :=
    Pattern.exists_fills (x := ⟨(b.finish top).anonymous, 0⟩) hServes hEnough
  refine ⟨Node.ofRun run, ?_⟩
  rw [Pattern.inject_eq, hFills]
  rfl

/-- The pattern `_($x, glob_)` at the call `g(1, 2, 3)`: a nameless wildcard for the function, one
name, and a nameless run. -/
theorem matched_bindings_refill_call :
    let pattern : Node := .call (.wildcard ⟨none, .scalar⟩)
      [.wildcard ⟨some "x", .scalar⟩, .wildcard ⟨none, .glob⟩]
    let conditions : Conditions := ⟨[], none, false⟩
    ∃ compiled bindings asked, Pattern.compile (.tree pattern) [] = .ok compiled ∧
      conditions.matchNode (.call (.ident "g") [.int 1, .int 2, .int 3]) (.tree pattern) =
        .ok (.matched bindings, asked) ∧
      bindings.anonymous.map Capture.extent = [.scalar, .glob] ∧
      ∃ t, compiled.inject bindings = .ok t := by
  intro pattern conditions
  obtain ⟨bindings, asked, hMatch⟩ : ∃ bindings asked,
      conditions.matchNode (.call (.ident "g") [.int 1, .int 2, .int 3]) (.tree pattern) =
        .ok (.matched bindings, asked) := Outcome.exists_matched_of_verdict (by decide +kernel)
  have hWildcards : (pattern.wildcards.filter (·.name.isNone)).map Wildcard.extent =
      [.scalar, .glob] := by decide +kernel
  obtain ⟨compiled, -, hCompiled, -⟩ := exists_solution_of_matchNode hMatch
  obtain ⟨hExtents, hFilled⟩ := matched_bindings_refill rfl hCompiled (.inr ⟨_, hMatch⟩)
  rw [Pattern.root_of_compile hCompiled] at hExtents
  exact ⟨compiled, bindings, asked, hCompiled, hMatch, hExtents.trans hWildcards, hFilled⟩

end Conditions

end CodeShape
