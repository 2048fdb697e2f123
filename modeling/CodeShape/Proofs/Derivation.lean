import CodeShape.Finder
import CodeShape.Proofs.Enumeration

/-! How a match comes about. A derivation names one alternative at every choice, whatever the order
in which alternatives are tried, so a property that every rule preserves holds of every solution of
every search, with and without commitment. -/
namespace CodeShape

/-- How binding a wildcard changes the bindings. -/
inductive Conditions.Binds (conditions : Conditions) (w : Wildcard) (value : Binding) (b : Branch) :
    Branch → Prop where
  | nameless (hName : w.name = none) :
      Binds conditions w value b { b with anonymous := b.anonymous ++ [value] }
  | again {name : String} {old : Binding} (hName : w.name = some name)
      (hOld : b.find? name = some old) (hAgree : conditions.agree old value) :
      Binds conditions w value b b
  | fresh {name : String} (hName : w.name = some name) (hNew : b.find? name = none)
      (hPass : (Constraint.check (fun v => (Branch.find?
        { b with named := b.named ++ [(name, value)] } v).map Binding.capture) name
        conditions.constraints).2 = .pass) :
      Binds conditions w value b { b with named := b.named ++ [(name, value)] }

/-- What is listed for a binding is one of the three ways to bind. -/
theorem Enumeration.binds_of_mem {e : Enumeration} {w : Wildcard} {value : Binding}
    {b b' : Branch} (h : b' ∈ e.bind w value b) : e.conditions.Binds w value b b' := by
  rw [bind_eq_check] at h
  split at h
  · next hName =>
      rw [List.mem_singleton.1 h]
      exact .nameless hName
  · next name hName =>
      split at h
      · next old hOld =>
          split at h
          · next hAgree =>
              rw [List.mem_singleton.1 h]
              exact .again hName hOld hAgree
          · simp at h
      · next hNew =>
          simp only at h
          split at h
          · next hPass =>
              rw [List.mem_singleton.1 h]
              exact .fresh hName hNew hPass
          · simp at h

/-- A part of a search. -/
inductive Task where
  | node (pattern : Node) (candidate : Site)
  | duty (duty : Duty)
  | duties (duties : List Duty)
  | fixed (patterns : List Node) (candidates : List Site)
  | scan (dive : Bool) (patterns : List Node) (candidates : List Site)
  /-- The first element of a list at one spot. It takes the given numbers of
  elements of the pattern and of the program beyond the first. -/
  | spot (dive : Bool) (p : Node) (ps : List Node) (spot : Spot) (patterns candidates : Nat)

/-- A task can be done with these bindings before and after it. -/
inductive Conditions.Solves (conditions : Conditions) : Task → Branch → Branch → Prop where
  | wildcard {w : Wildcard} {c : Site} {b b' : Branch}
      (hBind : conditions.Binds w (w.valueAt c) b b') :
      Solves conditions (.node (.wildcard w) c) b b'
  | hole {c : Site} {b : Branch} : Solves conditions (.node .hole c) b b
  | form {p form : Node} {c : Site} {duties : List Duty} {b b' : Branch} (hp : p.isConcrete)
      (hForm : form ∈ conditions.forms p c.node) (hShape : form.sameShape c.node)
      (hDuties : Duty.ofNodes? form c = some duties)
      (done : Solves conditions (.duties duties) b b') :
      Solves conditions (.node p c) b b'
  | noDuties {b : Branch} : Solves conditions (.duties []) b b
  | consDuties {duty : Duty} {duties : List Duty} {b b' b'' : Branch}
      (first : Solves conditions (.duty duty) b b')
      (rest : Solves conditions (.duties duties) b' b'') :
      Solves conditions (.duties (duty :: duties)) b b''
  | exact {p : Node} {c : Site} {b b' : Branch} (done : Solves conditions (.node p c) b b') :
      Solves conditions (.duty (.exact p c)) b b'
  | within {p : Node} {c d : Site} {b b' : Branch} (hd : d ∈ c.descendants)
      (hSeek : d = c ∨ ListMatcher.seeksBelow p) (done : Solves conditions (.node p d) b b') :
      Solves conditions (.duty (.below p c)) b b'
  | fixed {ps : List Node} {cs : List Site} {b b' : Branch}
      (done : Solves conditions (.fixed ps cs) b b') :
      Solves conditions (.duty (.list .fixed ps cs)) b b'
  | ordered {ps : List Node} {cs : List Site} {b b' : Branch}
      (done : Solves conditions (.scan false ps cs) b b') :
      Solves conditions (.duty (.list .ordered ps cs)) b b'
  | statements {ps : List Node} {cs : List Site} {b b' : Branch}
      (done : Solves conditions (.scan true ps cs) b b') :
      Solves conditions (.duty (.list .statements ps cs)) b b'
  | fixedNil {cs : List Site} {b : Branch} : Solves conditions (.fixed [] cs) b b
  | fixedLast {p : Node} {w : Wildcard} {cs : List Site} {b b' : Branch}
      (hGlob : p.glob? = some w) (hBind : conditions.Binds w (.many cs) b b') :
      Solves conditions (.fixed [p] cs) b b'
  | fixedGlob {p q : Node} {qs : List Node} {w : Wildcard} {run rest : List Site}
      {b b' b'' : Branch} (hGlob : p.glob? = some w)
      (hBind : conditions.Binds w (.many run) b b')
      (done : Solves conditions (.fixed (q :: qs) rest) b' b'') :
      Solves conditions (.fixed (p :: q :: qs) (run ++ rest)) b b''
  | fixedCons {p : Node} {ps : List Node} {c : Site} {cs : List Site} {b b' b'' : Branch}
      (hGlob : p.glob? = none) (first : Solves conditions (.node p c) b b')
      (rest : Solves conditions (.fixed ps cs) b' b'') :
      Solves conditions (.fixed (p :: ps) (c :: cs)) b b''
  | scanNil {dive : Bool} {cs : List Site} {b : Branch} : Solves conditions (.scan dive [] cs) b b
  | scanCons {dive : Bool} {p : Node} {ps : List Node} {cs : List Site} {spot : Spot}
      {np nc : Nat} {b b' b'' : Branch} (hGlob : p.glob? = none)
      (hSpot : spot ∈ Spot.positions dive cs)
      (first : Solves conditions (.spot dive p ps spot np nc) b b')
      (rest : Solves conditions (.scan dive (ps.drop np) (spot.following.drop nc)) b' b'') :
      Solves conditions (.scan dive (p :: ps) cs) b b''
  | scanLast {dive : Bool} {p : Node} {w : Wildcard} {cs : List Site} {b b' : Branch}
      (hGlob : p.glob? = some w) (hBind : conditions.Binds w (.many cs) (b.anchor cs.head?) b') :
      Solves conditions (.scan dive [p] cs) b b'
  | scanGlob {dive : Bool} {p q : Node} {qs : List Node} {w : Wildcard} {run : List Site}
      {spot : Spot} {np nc : Nat} {b b' b'' b''' : Branch} (hGlob : p.glob? = some w)
      (hBind : conditions.Binds w (.many run) (b.anchor run.head?) b')
      (first : Solves conditions (.spot dive q qs spot np nc) b' b'')
      (rest : Solves conditions (.scan dive (qs.drop np) (spot.following.drop nc)) b'' b''') :
      Solves conditions (.scan dive (p :: q :: qs) (run ++ spot.site :: spot.following)) b b'''
  | whole {dive : Bool} {p : Node} {ps : List Node} {spot : Spot} {b b' : Branch}
      (done : Solves conditions (.node p spot.site) (b.anchor (some spot.site)) b') :
      Solves conditions (.spot dive p ps spot 0 0) b b'
  | split {p declared assigned : Node} {ps : List Node} {spot : Spot} {next : Site}
      {rest : List Site} {b b' b'' : Branch} (hOn : conditions.splitsDeclarations)
      (hSplit : p.splitDeclaration? = some (declared, assigned))
      (hNext : spot.following = next :: rest)
      (first : Solves conditions (.node declared spot.site) (b.anchor (some spot.site)) b')
      (second : Solves conditions (.node assigned next) b' b'') :
      Solves conditions (.spot true p ps spot 0 1) b b''
  | merged {p q merged : Node} {qs : List Node} {spot : Spot} {b b' : Branch}
      (hOn : conditions.splitsDeclarations) (hMerge : p.mergeDeclaration? q = some merged)
      (done : Solves conditions (.node merged spot.site) (b.anchor (some spot.site)) b') :
      Solves conditions (.spot true p (q :: qs) spot 1 0) b b'

/-- The spots of a list with their numbers cut the list in two. -/
theorem Spot.eq_append_of_mem_zipIdx {list : List Site} {spot : Spot} {j : Nat}
    (h : (spot, j) ∈ (ofList list).zipIdx) :
    list = list.take j ++ spot.site :: spot.following := by
  have hGet := List.mem_zipIdx_iff_getElem?.1 h
  clear h
  induction list generalizing j with
  | nil => simp [ofList] at hGet
  | cons s rest ih =>
      cases j with
      | zero =>
          obtain rfl := Option.some.inj hGet
          rfl
      | succ j =>
          have hRest := ih (by simpa [ofList] using hGet)
          simpa using hRest

/-- Every cut of a list is at one of its spots. -/
theorem Spot.mem_zipIdx_ofList (front : List Site) (c : Site) (cs : List Site) :
    (⟨c, cs⟩, front.length) ∈ (ofList (front ++ c :: cs)).zipIdx := by
  rw [List.mem_zipIdx_iff_getElem?]
  induction front with
  | nil => rfl
  | cons s front ih => simpa [ofList] using ih

namespace Enumeration

variable {conditions : Conditions} {bound : Nat}
  (hNode : ∀ {p : Node} {c : Site} {b b' : Branch}, c.node.height ≤ bound →
    b' ∈ conditions.ways p c b → conditions.Solves (.node p c) b b')

include hNode

/-- What is listed for a fixed list has a derivation. The induction is on the patterns. -/
theorem solves_fixed {patterns : List Node} {candidates : List Site} {b b' : Branch}
    (hLow : ∀ c ∈ candidates, c.node.height ≤ bound)
    (h : b' ∈ conditions.enumeration.fixed patterns candidates b) :
    conditions.Solves (.fixed patterns candidates) b b' := by
  induction patterns generalizing candidates b with
  | nil => exact List.mem_singleton.1 h ▸ .fixedNil
  | cons p ps ih =>
      cases hGlob : p.glob? with
      | some w =>
          cases ps with
          | nil =>
              rw [fixed_glob_last _ hGlob] at h
              exact .fixedLast hGlob (binds_of_mem h)
          | cons q qs =>
              rw [fixed_glob _ hGlob] at h
              obtain ⟨j, -, h⟩ := List.mem_flatMap.1 h
              obtain ⟨b₁, hBind, h⟩ := List.mem_flatMap.1 h
              rw [← List.take_append_drop j candidates]
              exact .fixedGlob hGlob (binds_of_mem hBind)
                (ih (fun c hc => hLow c (List.mem_of_mem_drop hc)) h)
      | none =>
          cases candidates with
          | nil => simp [fixed_none _ hGlob] at h
          | cons c cs =>
              rw [fixed_cons _ hGlob] at h
              obtain ⟨b₁, hFirst, h⟩ := List.mem_flatMap.1 h
              exact .fixedCons hGlob (hNode (hLow c (by simp)) hFirst)
                (ih (fun x hx => hLow x (by simp [hx])) h)

/-- What is listed at a spot has a derivation: whole, split or merged. -/
theorem solves_atSpot {dive : Bool} {p : Node} {ps : List Node} {spot : Spot} {b : Branch}
    {t : Taken} (hLow : ∀ c ∈ spot.site :: spot.following, c.node.height ≤ bound)
    (h : t ∈ conditions.enumeration.atSpot dive p ps spot b) :
    conditions.Solves (.spot dive p ps spot t.patterns t.candidates) b t.branch := by
  have hSite : spot.site.node.height ≤ bound := hLow _ (by simp)
  rw [atSpot] at h
  rcases List.mem_append.1 h with hWhole | hDecl
  · obtain ⟨b₁, hFirst, rfl⟩ := List.mem_map.1 hWhole
    exact .whole (hNode hSite hFirst)
  · split at hDecl
    · next hOn =>
        obtain ⟨rfl, hOn⟩ := Bool.and_eq_true_iff.1 hOn
        rcases List.mem_append.1 hDecl with hSplitAt | hMergedAt
        · rw [splitAt] at hSplitAt
          split at hSplitAt
          · next declared assigned next rest hSplit hNext =>
              obtain ⟨b₁, hFirst, h⟩ := List.mem_flatMap.1 hSplitAt
              obtain ⟨b₂, hSecond, rfl⟩ := List.mem_map.1 h
              exact .split hOn hSplit hNext (hNode hSite hFirst)
                (hNode (hLow next (by simp [hNext])) hSecond)
          · simp at hSplitAt
        · rw [mergedAt] at hMergedAt
          split at hMergedAt
          · next merged hMerge =>
              obtain ⟨q, hq, hMerge⟩ := Option.bind_eq_some_iff.1 hMerge
              obtain ⟨qs, rfl⟩ := List.head?_eq_some_iff.1 hq
              obtain ⟨b₁, hFirst, rfl⟩ := List.mem_map.1 hMergedAt
              exact .merged hOn hMerge (hNode hSite hFirst)
          · simp at hMergedAt
    · simp at hDecl

/-- What is listed for a scan has a derivation. -/
theorem solves_scan {dive : Bool} {patterns : List Node} {candidates : List Site} {b b' : Branch}
    (hLow : ∀ c ∈ candidates, c.node.height ≤ bound)
    (h : b' ∈ conditions.enumeration.scan dive patterns candidates b) :
    conditions.Solves (.scan dive patterns candidates) b b' := by
  induction hLength : patterns.length using Nat.strongRecOn
    generalizing patterns candidates b with
  | ind n ih =>
      -- a scan goes on from a spot in the same way whether a pattern or the end of a run was looked
      -- for
      have after : ∀ {p ps spot b}, ps.length < n →
          (∀ c ∈ spot.site :: spot.following, c.node.height ≤ bound) →
          b' ∈ conditions.enumeration.scanFrom dive p ps b spot →
          ∃ np nc b₁, conditions.Solves (.spot dive p ps spot np nc) b b₁ ∧
            conditions.Solves (.scan dive (ps.drop np) (spot.following.drop nc)) b₁ b' := by
        intro p ps spot b hShort hSpot h
        obtain ⟨t, ht, h⟩ := List.mem_flatMap.1 h
        refine ⟨t.patterns, t.candidates, t.branch, solves_atSpot hNode hSpot ht, ?_⟩
        refine ih _ ?_ (fun c hc => hSpot c ?_) h rfl
        · exact Nat.lt_of_le_of_lt (by simp) hShort
        · exact List.mem_cons_of_mem _ (List.mem_of_mem_drop hc)
      cases patterns with
      | nil =>
          rw [scan_nil] at h
          exact List.mem_singleton.1 h ▸ .scanNil
      | cons p ps =>
          have hShort : ps.length < n := by rw [← hLength]; exact Nat.lt_succ_self _
          cases hGlob : p.glob? with
          | none =>
              rw [scan_cons _ dive hGlob] at h
              obtain ⟨spot, hChosen, h⟩ := List.mem_flatMap.1 h
              have hSpot : spot ∈ Spot.positions dive candidates := by
                rw [chosen] at hChosen
                split at hChosen
                · exact List.mem_of_find?_eq_some (Option.mem_toList.1 hChosen)
                · exact hChosen
              obtain ⟨np, nc, b₁, hFirst, hRest⟩ :=
                after hShort (ListMatcher.Agree.low_of_mem_positions hLow hSpot) h
              exact .scanCons hGlob hSpot hFirst hRest
          | some w =>
              cases ps with
              | nil =>
                  rw [scan_glob_last _ dive hGlob] at h
                  exact .scanLast hGlob (binds_of_mem h)
              | cons q qs =>
                  rw [scan_glob _ dive hGlob] at h
                  obtain ⟨⟨spot, j⟩, hPlace, h⟩ := List.mem_flatMap.1 h
                  obtain ⟨b₁, hBind, h⟩ := List.mem_flatMap.1 h
                  have hSpot : spot ∈ Spot.positions false candidates :=
                    Spot.mem_positions_of_mem_zipIdx hPlace
                  obtain ⟨np, nc, b₂, hFirst, hRest⟩ := after (Nat.lt_of_succ_lt hShort)
                    (ListMatcher.Agree.low_of_mem_positions hLow hSpot) h
                  -- an empty run anchors nothing
                  have hAnchor : (if j = 0 then b else b.anchor candidates.head?) =
                      b.anchor (candidates.take j).head? := by
                    cases j with
                    | zero => simp [Branch.anchor]
                    | succ j => cases candidates <;> rfl
                  rw [Spot.eq_append_of_mem_zipIdx hPlace]
                  simp only [hAnchor] at hBind
                  exact .scanGlob hGlob (binds_of_mem hBind) hFirst hRest

/-- What is listed for a duty has a derivation. -/
theorem solves_perform {duty : Duty} {b b' : Branch}
    (hLow : ∀ s ∈ duty.sites, s.node.height ≤ bound)
    (h : b' ∈ conditions.enumeration.perform duty b) : conditions.Solves (.duty duty) b b' := by
  cases duty with
  | exact p c => exact .exact (hNode (hLow c (by simp [Duty.sites])) h)
  | below p c =>
      have hc : c.node.height ≤ bound := hLow c (by simp [Duty.sites])
      rw [perform, nested_eq] at h
      rcases List.mem_append.1 h with hHere | hBelow
      · exact .within (Site.mem_descendants_self c) (.inl rfl) (hNode hc hHere)
      · split at hBelow
        · next hSeek =>
            obtain ⟨d, hd, hBelow⟩ := List.mem_flatMap.1 hBelow
            have hd := List.mem_of_mem_tail hd
            have hLower := Site.height_le_of_mem_descendants hd
            exact .within hd (.inr hSeek) (hNode (Nat.le_trans hLower hc) hBelow)
        · simp at hBelow
  | list pairing ps cs =>
      cases pairing with
      | fixed => exact .fixed (solves_fixed hNode hLow h)
      | ordered => exact .ordered (solves_scan hNode hLow h)
      | statements => exact .statements (solves_scan hNode hLow h)

theorem solves_performAll {duties : List Duty} {b b' : Branch}
    (hLow : ∀ duty ∈ duties, ∀ s ∈ duty.sites, s.node.height ≤ bound)
    (h : b' ∈ conditions.enumeration.performAll duties b) :
    conditions.Solves (.duties duties) b b' := by
  induction duties generalizing b with
  | nil => exact List.mem_singleton.1 h ▸ .noDuties
  | cons duty duties ih =>
      obtain ⟨b₁, hFirst, h⟩ := List.mem_flatMap.1 h
      exact .consDuties (solves_perform hNode (hLow duty (by simp)) hFirst)
        (ih (fun d hd => hLow d (by simp [hd])) h)

end Enumeration

namespace Conditions

variable {conditions : Conditions}

/-- Every way to match a node has a derivation. -/
theorem solves_of_mem_ways {p : Node} {c : Site} {b b' : Branch}
    (h : b' ∈ conditions.ways p c b) : conditions.Solves (.node p c) b b' := by
  induction hHeight : c.node.height using Nat.strongRecOn generalizing p c b b' with
  | ind height ih =>
      rw [ways_eq_step] at h
      cases hp : p.isConcrete with
      | false =>
          cases p <;> cases hp
          · exact List.mem_singleton.1 h ▸ .hole
          · exact .wildcard (Enumeration.binds_of_mem h)
      | true =>
          rw [Enumeration.step_concrete _ hp] at h
          obtain ⟨form, hForm, h⟩ := List.mem_flatMap.1 h
          rw [Enumeration.sameForm_eq_performAll] at h
          split at h
          · next hShape =>
              cases hDuties : Duty.ofNodes? form c with
              | none => simp [hDuties] at h
              | some duties =>
                  rw [hDuties] at h
                  have hNode : ∀ {q : Node} {d : Site} {b b' : Branch},
                      d.node.height ≤ height - 1 → b' ∈ conditions.ways q d b →
                      conditions.Solves (.node q d) b b' := by
                    intro q d b b' hd hMem
                    have hPos := c.node.height_pos
                    exact ih _ (by omega) hMem rfl
                  refine .form hp hForm hShape hDuties (Enumeration.solves_performAll hNode ?_ h)
                  intro duty hDuty s hs
                  have := Duty.height_lt_of_mem_sites hDuties hDuty hs
                  omega
          · simp at h

/-- Every way to find statements in a list has a derivation. -/
theorem solves_of_mem_body {patterns : List Node} {candidates : List Site} {b b' : Branch}
    (h : b' ∈ (conditions.body patterns candidates b).solutions) :
    conditions.Solves (.scan true patterns candidates) b b' := by
  rw [solutions_body] at h
  have hLow : ∀ c ∈ candidates, c.node.height ≤ (candidates.map (·.node.height)).foldl max 0 :=
    fun c hc => Node.le_foldl_max (.inl (List.mem_map_of_mem hc))
  exact Enumeration.solves_scan (fun _ hMem => solves_of_mem_ways hMem) hLow h

/-- How a whole pattern is found in a program or matched with a node. Statements are scanned for in
the body, or where the body would be; anything else is matched with one site, which then is the
root. -/
inductive Finds (conditions : Conditions) (top : Site) : (pattern : Node) → Branch → Prop where
  | statements {ps : List Node} {cs : List Site} {b : Branch}
      (hBody : .seq .statements cs ∈ top.fields ∨ cs = [top])
      (done : conditions.Solves (.scan true ps cs) .start b) : Finds conditions top (.program ps) b
  | nothing : Finds conditions top (.program []) (.rootedAt top)
  | alone {p : Node} {b : Branch} (done : conditions.Solves (.node p top) (.rootedAt top) b) :
      Finds conditions top (.program [p]) b
  | anywhere {p : Node} {s : Site} {b : Branch} (hs : s ∈ top.descendants)
      (done : conditions.Solves (.node p s) (.rootedAt s) b) : Finds conditions top p b

/-- Every solution of a search for code has a derivation. -/
theorem finds_of_mem_searchCode {pattern : Node} {top : Site} {b : Branch}
    (h : b ∈ (conditions.searchCode pattern top).solutions) : conditions.Finds top pattern b := by
  unfold searchCode at h
  split at h
  · next ps =>
      refine .statements ?_ (solves_of_mem_body h)
      split
      · next body hNode => exact .inl (by simp [Site.fields_of_body (.inl hNode)])
      · next body hNode => exact .inl (by simp [Site.fields_of_body (.inr hNode)])
      · exact .inr rfl
  · rw [Search.solutions_firstOf] at h
    obtain ⟨s, hs, h⟩ := List.mem_flatMap.1 h
    rw [solutions_node] at h
    exact .anywhere hs (solves_of_mem_ways h)

/-- Every solution of a search for one node has a derivation. -/
theorem finds_of_mem_searchNode {pattern : Node} {top : Site} {b : Branch}
    (h : b ∈ (conditions.searchNode pattern top).solutions) : conditions.Finds top pattern b := by
  unfold searchNode at h
  split at h
  · next ps body hNode =>
      exact .statements (.inl (by simp [Site.fields_of_body (.inl hNode)])) (solves_of_mem_body h)
  · next ps body hNode =>
      exact .statements (.inl (by simp [Site.fields_of_body (.inr hNode)])) (solves_of_mem_body h)
  · obtain rfl := List.mem_singleton.1 h
    exact .nothing
  · rw [solutions_node] at h
    exact .alone (solves_of_mem_ways h)
  · cases h
  · rw [solutions_node] at h
    exact .anywhere (Site.mem_descendants_self top) (solves_of_mem_ways h)

end Conditions

namespace Outcome

/-- A search that ends with a match ends with one of its solutions. -/
theorem exists_solution_of_ofSearch {search : Matching} {fallback : Site} {bindings : Bindings}
    {asked : List Inquiry} (h : ofSearch search fallback = (matched bindings, asked)) :
    ∃ b ∈ search.solutions, bindings = b.finish fallback := by
  unfold ofSearch at h
  rcases hFirst : search.first with ⟨found, events⟩
  have hHead : found = search.solutions.head? := by rw [← Search.first_fst, hFirst]
  rw [hFirst] at h
  cases found with
  | none => cases congrArg Prod.fst h
  | some b =>
      cases congrArg Prod.fst h
      exact ⟨b, List.mem_of_mem_head? hHead.symm, rfl⟩

/-- A search with a solution ends in a match. -/
theorem exists_matched {search : Matching} {b : Branch} (h : b ∈ search.solutions)
    (fallback : Site) : ∃ found asked, ofSearch search fallback = (matched found, asked) := by
  unfold ofSearch
  rcases hFirst : search.first with ⟨first, asked⟩
  have hHead : first = search.solutions.head? := by rw [← Search.first_fst, hFirst]
  cases first with
  | none => exact absurd (List.head?_eq_none_iff.1 hHead.symm) (List.ne_nil_of_mem h)
  | some first => exact ⟨_, _, rfl⟩

end Outcome

namespace Conditions

variable {conditions : Conditions}

/-- What a match is made from: the program, the compiled pattern and the bindings that the search
ended with. -/
theorem exists_finds_of_matchCode {source : Source} {pattern : PatternSource}
    {compiled : Pattern} {bindings : Bindings} {asked : List Inquiry}
    (hCompiled : Pattern.compile pattern conditions.constraints = .ok compiled)
    (h : conditions.matchCode source pattern = .ok (.matched bindings, asked)) :
    ∃ top b, conditions.Finds top compiled.root b ∧ bindings = b.finish top := by
  unfold matchCode at h
  cases hTree : source.tree? with
  | error e => rw [hTree] at h; cases h
  | ok n =>
      rw [hTree, hCompiled] at h
      obtain ⟨b, hb, rfl⟩ := Outcome.exists_solution_of_ofSearch (Except.ok.inj h)
      exact ⟨_, b, finds_of_mem_searchCode hb, rfl⟩

/-- Behind every match of a tree stands a derivation. -/
theorem exists_finds_of_matchNode {n : Node} {pattern : PatternSource}
    {compiled : Pattern} {bindings : Bindings} {asked : List Inquiry}
    (hCompiled : Pattern.compile pattern conditions.constraints = .ok compiled)
    (h : conditions.matchNode n pattern = .ok (.matched bindings, asked)) :
    ∃ top b, conditions.Finds top compiled.root b ∧ bindings = b.finish top := by
  unfold matchNode at h
  rw [hCompiled] at h
  obtain ⟨b, hb, rfl⟩ := Outcome.exists_solution_of_ofSearch (Except.ok.inj h)
  exact ⟨_, b, finds_of_mem_searchNode hb, rfl⟩

end Conditions

end CodeShape
