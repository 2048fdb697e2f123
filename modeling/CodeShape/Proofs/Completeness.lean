import CodeShape.Proofs.Derivation

/-! Every derivation is found. As long as order does not matter, no search commits to a place, so
whatever a derivation chooses is among the alternatives that are tried, and what it arrives at is
among the solutions. -/
namespace CodeShape

namespace Outcome

/-- Whether looking for a pattern has found it, if there is a result at all. -/
def verdict? : Except Misuse (Outcome × List Inquiry) → Option Bool
  | .ok (matched _, _) => some true
  | .ok (failed _, _) => some false
  | .error _ => none

variable {result : Except Misuse (Outcome × List Inquiry)}

/-- A positive verdict comes from a match. -/
theorem exists_matched_of_verdict (h : verdict? result = some true) :
    ∃ found asked, result = .ok (matched found, asked) := by
  unfold verdict? at h
  split at h
  · exact ⟨_, _, rfl⟩
  · cases h
  · cases h

/-- A negative verdict comes from a failure, not from a misuse. -/
theorem exists_failed_of_verdict (h : verdict? result = some false) :
    ∃ reason asked, result = .ok (failed reason, asked) := by
  unfold verdict? at h
  split at h
  · cases h
  · exact ⟨_, _, rfl⟩
  · cases h

end Outcome

namespace Conditions

variable {conditions : Conditions}

/-- A binding that is allowed is listed. -/
theorem Binds.mem_bind {w : Wildcard} {value : Binding} {b b' : Branch}
    (h : conditions.Binds w value b b') : b' ∈ conditions.enumeration.bind w value b := by
  rw [Enumeration.bind_eq_check]
  cases h with
  | nameless hName => simp [hName]
  | again hName hOld hAgree =>
      have hAgree' : conditions.enumeration.conditions.agree _ value := hAgree
      simp [hName, hOld, hAgree']
  | fresh hName hNew hPass =>
      simp only [hName, hNew]
      exact List.mem_ite_nil_right.2 ⟨hPass, List.mem_singleton.2 rfl⟩

/-- What the alternatives of a task lead to. -/
def Reaches (conditions : Conditions) : Task → Branch → Branch → Prop
  | .node p c, b, b' => b' ∈ conditions.ways p c b
  | .duty d, b, b' => b' ∈ conditions.enumeration.perform d b
  | .duties ds, b, b' => b' ∈ conditions.enumeration.performAll ds b
  | .fixed ps cs, b, b' => b' ∈ conditions.enumeration.fixed ps cs b
  | .scan dive ps cs, b, b' => b' ∈ conditions.enumeration.scan dive ps cs b
  | .spot dive p ps spot np nc, b, b' => ⟨np, nc, b'⟩ ∈ conditions.enumeration.atSpot dive p ps spot b

/-- A search that never commits tries everything that can be derived. -/
theorem Solves.reaches {task : Task} {b b' : Branch} (h : conditions.Solves task b b')
    (hFree : conditions.orderMatters = false) : conditions.Reaches task b b' := by
  -- where declarations may be split, both ways to do so come after the plain comparison
  have hDeclared : ∀ {p ps spot b t}, conditions.splitsDeclarations →
      t ∈ conditions.enumeration.splitAt p spot (b.anchor (some spot.site)) ++
        conditions.enumeration.mergedAt p ps spot (b.anchor (some spot.site)) →
      t ∈ conditions.enumeration.atSpot true p ps spot b := by
    intro p ps spot b t hOn ht
    refine List.mem_append_right _ ?_
    rw [Conditions.splitsDeclarations] at hOn
    rw [enumeration, hOn]
    exact ht
  induction h with
  | @wildcard w c b b' hBind =>
      rw [Reaches, ways_eq_step]
      exact hBind.mem_bind
  | hole =>
      rw [Reaches, ways_eq_step]
      exact List.mem_singleton.2 rfl
  | @form p form c duties b b' hp hForm hShape hDuties _ ih =>
      rw [Reaches, ways_eq_step, Enumeration.step_concrete _ hp]
      refine List.mem_flatMap.2 ⟨form, hForm, ?_⟩
      rw [Enumeration.sameForm_eq_performAll, if_pos hShape, hDuties]
      exact ih
  | noDuties => exact List.mem_singleton.2 rfl
  | consDuties _ _ ihFirst ihRest => exact List.mem_flatMap.2 ⟨_, ihFirst, ihRest⟩
  | exact _ ih => exact ih
  | @within p c d b b' hd hSeek _ ih =>
      rw [Reaches, Enumeration.perform, Enumeration.nested_eq]
      rcases hSeek with rfl | hSeek
      · exact List.mem_append_left _ ih
      · rw [Site.descendants_eq] at hd
        rcases List.mem_cons.1 hd with rfl | hBelow
        · exact List.mem_append_left _ ih
        · refine List.mem_append_right _ ?_
          rw [if_pos hSeek, Site.descendants_eq, List.tail_cons]
          exact List.mem_flatMap.2 ⟨d, hBelow, ih⟩
  | fixed _ ih => exact ih
  | ordered _ ih => exact ih
  | statements _ ih => exact ih
  | fixedNil => exact List.mem_singleton.2 rfl
  | fixedLast hGlob hBind =>
      rw [Reaches, Enumeration.fixed_glob_last _ hGlob]
      exact hBind.mem_bind
  | @fixedGlob p q qs w run rest b b' b'' hGlob hBind _ ih =>
      rw [Reaches, Enumeration.fixed_glob _ hGlob]
      refine List.mem_flatMap.2 ⟨run.length, ?_, ?_⟩
      · rw [List.mem_range, List.length_append]
        omega
      · rw [List.take_left, List.drop_left]
        exact List.mem_flatMap.2 ⟨b', hBind.mem_bind, ih⟩
  | fixedCons hGlob _ _ ihFirst ihRest =>
      rw [Reaches, Enumeration.fixed_cons _ hGlob]
      exact List.mem_flatMap.2 ⟨_, ihFirst, ihRest⟩
  | scanNil =>
      rw [Reaches, Enumeration.scan_nil]
      exact List.mem_singleton.2 rfl
  | @scanCons dive p ps cs spot np nc b b' b'' hGlob hSpot _ _ ihFirst ihRest =>
      have hAll : conditions.enumeration.conditions.orderMatters = false := hFree
      rw [Reaches, Enumeration.scan_cons _ dive hGlob, Enumeration.chosen, hAll]
      exact List.mem_flatMap.2 ⟨spot, hSpot, List.mem_flatMap.2 ⟨_, ihFirst, ihRest⟩⟩
  | scanLast hGlob hBind =>
      rw [Reaches, Enumeration.scan_glob_last _ _ hGlob]
      exact hBind.mem_bind
  | @scanGlob dive p q qs w run spot np nc b b' b'' b''' hGlob hBind _ _ ihFirst ihRest =>
      rw [Reaches, Enumeration.scan_glob _ dive hGlob]
      refine List.mem_flatMap.2 ⟨(spot, run.length), Spot.mem_zipIdx_ofList run _ _, ?_⟩
      have hAnchor : (if run.length = 0 then b
          else b.anchor (run ++ spot.site :: spot.following).head?) = b.anchor run.head? := by
        cases run with
        | nil => simp [Branch.anchor]
        | cons c run => rfl
      simp only [hAnchor, List.take_left]
      exact List.mem_flatMap.2 ⟨b', hBind.mem_bind, List.mem_flatMap.2 ⟨_, ihFirst, ihRest⟩⟩
  | whole _ ih => exact List.mem_append_left _ (List.mem_map.2 ⟨_, ih, rfl⟩)
  | @split p declared assigned ps spot next rest b b' b'' hOn hSplit hNext _ _ ihFirst ihSecond =>
      refine hDeclared hOn (List.mem_append_left _ ?_)
      rw [Enumeration.splitAt, hSplit, hNext]
      exact List.mem_flatMap.2 ⟨b', ihFirst, List.mem_map.2 ⟨b'', ihSecond, rfl⟩⟩
  | @merged p q merged qs spot b b' hOn hMerge _ ih =>
      refine hDeclared hOn (List.mem_append_right _ ?_)
      rw [Enumeration.mergedAt, List.head?_cons, Option.bind_some, hMerge]
      exact List.mem_map.2 ⟨b', ih, rfl⟩

/-- Whatever is tried has a derivation. -/
theorem Reaches.solves {task : Task} {b b' : Branch} (h : conditions.Reaches task b b') :
    conditions.Solves task b b' := by
  have hLow : ∀ cs : List Site, ∀ c ∈ cs, c.node.height ≤ (cs.map (·.node.height)).foldl max 0 :=
    fun cs c hc => Node.le_foldl_max (.inl (List.mem_map_of_mem hc))
  cases task with
  | node p c => exact solves_of_mem_ways h
  | duty d =>
      exact Enumeration.solves_perform (fun _ hMem => solves_of_mem_ways hMem) (hLow d.sites) h
  | duties ds =>
      exact Enumeration.solves_performAll (fun _ hMem => solves_of_mem_ways hMem)
        (fun d hd s hs => hLow (ds.flatMap Duty.sites) s (List.mem_flatMap.2 ⟨d, hd, hs⟩)) h
  | fixed ps cs =>
      exact Enumeration.solves_fixed (fun _ hMem => solves_of_mem_ways hMem) (hLow cs) h
  | scan dive ps cs =>
      exact Enumeration.solves_scan (fun _ hMem => solves_of_mem_ways hMem) (hLow cs) h
  | spot dive p ps spot np nc =>
      exact Enumeration.solves_atSpot (fun _ hMem => solves_of_mem_ways hMem)
        (hLow (spot.site :: spot.following)) h

/-- Where looking for a pattern in a program starts: a task, and the bindings before it. -/
def openings (pattern : Node) (program : Site) : List (Task × Branch) :=
  match pattern with
  | .program ps =>
    let body := match program.node with
      | .program _ | .block _ => program.children
      | _ => [program]
    [(.scan true ps body, .start)]
  | p => program.descendants.map fun s => (.node p s, .rootedAt s)

/-- Where matching a pattern with a node itself starts. -/
def openingsAt (pattern : Node) (candidate : Site) : List (Task × Branch) :=
  match pattern, candidate.node with
  | .program ps, .program _ | .program ps, .block _ => [(.scan true ps candidate.children, .start)]
  | .program [], _ => [(.duties [], .rootedAt candidate)]
  | .program [p], _ => [(.node p candidate, .rootedAt candidate)]
  | .program _, _ => []
  | p, _ => [(.node p candidate, .rootedAt candidate)]

/-- How looking for a pattern can start at a top. Statements are scanned for in the body, or where
the body would be; anything else is matched with one site, which then is the root. -/
inductive Opens (top : Site) : (pattern : Node) → Task → Branch → Prop where
  | statements {ps : List Node} {cs : List Site}
      (hBody : .seq .statements cs ∈ top.fields ∨ cs = [top]) :
      Opens top (.program ps) (.scan true ps cs) .start
  | nothing : Opens top (.program []) (.duties []) (.rootedAt top)
  | alone {p : Node} : Opens top (.program [p]) (.node p top) (.rootedAt top)
  | anywhere {p : Node} {s : Site} (hs : s ∈ top.descendants) :
      Opens top p (.node p s) (.rootedAt s)

/-- What a search for code tries first is one of the ways to open it. -/
theorem opens_of_mem_openings {pattern : Node} {program : Site} {opening : Task × Branch}
    (h : opening ∈ openings pattern program) : Opens program pattern opening.1 opening.2 := by
  unfold openings at h
  split at h
  · obtain rfl := List.mem_singleton.1 h
    refine .statements ?_
    split
    · next body hNode => exact .inl (by simp [Site.fields_of_body (.inl hNode)])
    · next body hNode => exact .inl (by simp [Site.fields_of_body (.inr hNode)])
    · exact .inr rfl
  · obtain ⟨s, hs, rfl⟩ := List.mem_map.1 h
    exact .anywhere hs

theorem opens_of_mem_openingsAt {pattern : Node} {candidate : Site} {opening : Task × Branch}
    (h : opening ∈ openingsAt pattern candidate) :
    Opens candidate pattern opening.1 opening.2 := by
  unfold openingsAt at h
  split at h
  · next ps body hNode =>
      obtain rfl := List.mem_singleton.1 h
      exact .statements (.inl (by simp [Site.fields_of_body (.inl hNode)]))
  · next ps body hNode =>
      obtain rfl := List.mem_singleton.1 h
      exact .statements (.inl (by simp [Site.fields_of_body (.inr hNode)]))
  · obtain rfl := List.mem_singleton.1 h
    exact .nothing
  · obtain rfl := List.mem_singleton.1 h
    exact .alone
  · cases h
  · obtain rfl := List.mem_singleton.1 h
    exact .anywhere (Site.mem_descendants_self candidate)

/-- A branch is a solution if it is reached from one of the openings. -/
theorem mem_searchCode_iff_reaches {pattern : Node} {program : Site} {b : Branch} :
    b ∈ (conditions.searchCode pattern program).solutions ↔
      ∃ opening ∈ openings pattern program, conditions.Reaches opening.1 opening.2 b := by
  unfold searchCode openings
  split
  · rw [solutions_body]
    constructor
    · exact fun h => ⟨_, List.mem_singleton_self _, h⟩
    · rintro ⟨opening, hOpening, h⟩
      obtain rfl := List.mem_singleton.1 hOpening
      exact h
  · simp [solutions_node, Reaches]

/-- A branch is a solution for a single node if it is reached from one of the openings there. -/
theorem mem_searchNode_iff_reaches {pattern : Node} {candidate : Site} {b : Branch} :
    b ∈ (conditions.searchNode pattern candidate).solutions ↔
      ∃ opening ∈ openingsAt pattern candidate, conditions.Reaches opening.1 opening.2 b := by
  unfold searchNode openingsAt
  split
  · simp_all [solutions_body, Reaches]
  · simp_all [solutions_body, Reaches]
  · simp [Reaches, Enumeration.performAll]
  · simp [solutions_node, Reaches]
  · simp
  · simp [solutions_node, Reaches]

theorem exists_opening_of_mem_searchCode {pattern : Node} {program : Site} {b : Branch}
    (h : b ∈ (conditions.searchCode pattern program).solutions) :
    ∃ opening ∈ openings pattern program, conditions.Solves opening.1 opening.2 b := by
  obtain ⟨opening, hOpening, hReached⟩ := mem_searchCode_iff_reaches.1 h
  exact ⟨opening, hOpening, hReached.solves⟩

theorem exists_opening_of_mem_searchNode {pattern : Node} {candidate : Site} {b : Branch}
    (h : b ∈ (conditions.searchNode pattern candidate).solutions) :
    ∃ opening ∈ openingsAt pattern candidate, conditions.Solves opening.1 opening.2 b := by
  obtain ⟨opening, hOpening, hReached⟩ := mem_searchNode_iff_reaches.1 h
  exact ⟨opening, hOpening, hReached.solves⟩

/-- Unless order matters, what can be derived from an opening is found. -/
theorem mem_searchCode_of_opening {pattern : Node} {program : Site} {b : Branch}
    {opening : Task × Branch} (hFree : conditions.orderMatters = false)
    (hOpening : opening ∈ openings pattern program)
    (h : conditions.Solves opening.1 opening.2 b) :
    b ∈ (conditions.searchCode pattern program).solutions :=
  mem_searchCode_iff_reaches.2 ⟨opening, hOpening, h.reaches hFree⟩

theorem mem_searchNode_of_opening {pattern : Node} {candidate : Site} {b : Branch}
    {opening : Task × Branch} (hFree : conditions.orderMatters = false)
    (hOpening : opening ∈ openingsAt pattern candidate)
    (h : conditions.Solves opening.1 opening.2 b) :
    b ∈ (conditions.searchNode pattern candidate).solutions :=
  mem_searchNode_iff_reaches.2 ⟨opening, hOpening, h.reaches hFree⟩

/-- A match in a program is made from a solution of the search of its tree. -/
theorem exists_solution_of_matchCode {source : Source} {pattern : PatternSource}
    {bindings : Bindings} {asked : List Inquiry}
    (h : conditions.matchCode source pattern = .ok (.matched bindings, asked)) :
    ∃ n compiled b, source.tree? = .ok n ∧
      Pattern.compile pattern conditions.constraints = .ok compiled ∧
      b ∈ (conditions.searchCode compiled.root (.root n)).solutions ∧
      bindings = b.finish (.root n) := by
  unfold matchCode at h
  cases hTree : source.tree? with
  | error e => rw [hTree] at h; cases h
  | ok n =>
      cases hCompiled : Pattern.compile pattern conditions.constraints with
      | error e => rw [hTree, hCompiled] at h; cases h
      | ok compiled =>
          rw [hTree, hCompiled] at h
          obtain ⟨b, hb, hFinish⟩ := Outcome.exists_solution_of_ofSearch (Except.ok.inj h)
          exact ⟨n, compiled, b, rfl, rfl, hb, hFinish⟩

theorem exists_solution_of_matchNode {n : Node} {pattern : PatternSource} {bindings : Bindings}
    {asked : List Inquiry}
    (h : conditions.matchNode n pattern = .ok (.matched bindings, asked)) :
    ∃ compiled b, Pattern.compile pattern conditions.constraints = .ok compiled ∧
      b ∈ (conditions.searchNode compiled.root (.root n)).solutions ∧
      bindings = b.finish (.root n) := by
  unfold matchNode at h
  cases hCompiled : Pattern.compile pattern conditions.constraints with
  | error e => rw [hCompiled] at h; cases h
  | ok compiled =>
      rw [hCompiled] at h
      obtain ⟨b, hb, hFinish⟩ := Outcome.exists_solution_of_ofSearch (Except.ok.inj h)
      exact ⟨compiled, b, rfl, hb, hFinish⟩

/-- Where the search has a solution, the match succeeds. -/
theorem exists_matchCode_of_solution {source : Source} {pattern : PatternSource} {n : Node}
    {compiled : Pattern} {b : Branch} (hTree : source.tree? = .ok n)
    (hCompiled : Pattern.compile pattern conditions.constraints = .ok compiled)
    (hb : b ∈ (conditions.searchCode compiled.root (.root n)).solutions) :
    ∃ found asked, conditions.matchCode source pattern = .ok (.matched found, asked) := by
  obtain ⟨found, asked, hOutcome⟩ := Outcome.exists_matched hb (.root n)
  refine ⟨found, asked, ?_⟩
  rw [matchCode, hTree, hCompiled]
  exact congrArg Except.ok hOutcome

/-- Where the search for a single node has a solution, the match succeeds. -/
theorem exists_matchNode_of_solution {n : Node} {pattern : PatternSource} {compiled : Pattern}
    {b : Branch} (hCompiled : Pattern.compile pattern conditions.constraints = .ok compiled)
    (hb : b ∈ (conditions.searchNode compiled.root (.root n)).solutions) :
    ∃ found asked, conditions.matchNode n pattern = .ok (.matched found, asked) := by
  obtain ⟨found, asked, hOutcome⟩ := Outcome.exists_matched hb (.root n)
  refine ⟨found, asked, ?_⟩
  rw [matchNode, hCompiled]
  exact congrArg Except.ok hOutcome

end Conditions

end CodeShape
