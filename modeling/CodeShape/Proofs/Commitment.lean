import CodeShape.Proofs.Completeness
import Mathlib.Data.List.Flatten

/-! What commitment leaves out. A search that commits to the first place for a statement only drops
places, at every list it goes through, nested ones included. So it finds a part of what the free
search finds, in the same order, and nothing of its own. -/
namespace CodeShape

/-- The same conditions with all places to choose from. -/
def Conditions.freed (conditions : Conditions) : Conditions :=
  { conditions with orderMatters := false }

/-- Fewer items with fewer results each give fewer results. -/
theorem flatMap_sublist {α β : Type} {as as' : List α} {f g : α → List β}
    (hItems : as.Sublist as') (h : ∀ a ∈ as, (f a).Sublist (g a)) :
    (as.flatMap f).Sublist (as'.flatMap g) :=
  (List.Sublist.flatMap_right as h).trans (hItems.flatMap g)

/-- One enumeration lists some of the ways of another one that chooses places freely, in the same
order. -/
structure Enumeration.Thins (e free : Enumeration) : Prop where
  conditions : free.conditions = e.conditions.freed
  node : ∀ p c b, (e.node p c b).Sublist (free.node p c b)

namespace Enumeration.Thins

variable {e free : Enumeration}

/-- Binding does not depend on whether the order matters. -/
theorem bind_eq (h : e.Thins free) (w : Wildcard) (value : Binding) (b : Branch) :
    free.bind w value b = e.bind w value b := by
  simp only [bind, accepts, h.conditions]
  rfl

/-- Fixed lists have fewer ways where the order matters. -/
theorem fixed (h : e.Thins free) (patterns : List Node) (candidates : List Site) (b : Branch) :
    (e.fixed patterns candidates b).Sublist (free.fixed patterns candidates b) := by
  induction patterns generalizing candidates b with
  | nil => exact List.Sublist.refl _
  | cons p ps ih =>
      cases hGlob : p.glob? with
      | some w =>
          cases ps with
          | nil => rw [fixed_glob_last _ hGlob, fixed_glob_last _ hGlob, h.bind_eq]
          | cons q qs =>
              rw [fixed_glob _ hGlob, fixed_glob _ hGlob]
              apply List.Sublist.flatMap_right
              intro j _
              rw [h.bind_eq]
              exact List.Sublist.flatMap_right _ fun b _ => ih (candidates.drop j) b
      | none =>
          cases candidates with
          | nil => rw [fixed_none _ hGlob, fixed_none _ hGlob]
          | cons c cs =>
              rw [fixed_cons _ hGlob, fixed_cons _ hGlob]
              exact flatMap_sublist (h.node p c b) fun b _ => ih cs b

theorem splitAt (h : e.Thins free) (p : Node) (spot : Spot) (b : Branch) :
    (e.splitAt p spot b).Sublist (free.splitAt p spot b) := by
  rw [Enumeration.splitAt, Enumeration.splitAt]
  cases p.splitDeclaration? with
  | none => exact List.Sublist.refl _
  | some halves =>
      cases spot.following with
      | nil => exact List.Sublist.refl _
      | cons next rest =>
          exact flatMap_sublist (h.node halves.1 spot.site b) fun b _ =>
            (h.node halves.2 next b).map _

theorem mergedAt (h : e.Thins free) (p : Node) (ps : List Node) (spot : Spot) (b : Branch) :
    (e.mergedAt p ps spot b).Sublist (free.mergedAt p ps spot b) := by
  rw [Enumeration.mergedAt, Enumeration.mergedAt]
  cases ps.head?.bind p.mergeDeclaration? with
  | none => exact List.Sublist.refl _
  | some merged => exact (h.node merged spot.site b).map _

/-- There are fewer ways at a spot where the order matters. -/
theorem atSpot (h : e.Thins free) (dive : Bool) (p : Node) (ps : List Node) (spot : Spot)
    (b : Branch) : (e.atSpot dive p ps spot b).Sublist (free.atSpot dive p ps spot b) := by
  rw [Enumeration.atSpot, Enumeration.atSpot, h.conditions]
  apply List.Sublist.append
  · exact (h.node p spot.site _).map _
  · change List.Sublist (if dive && e.conditions.splitsDeclarations then _ else _)
      (if dive && e.conditions.splitsDeclarations then _ else _)
    split
    · exact (h.splitAt p spot _).append (h.mergedAt p ps spot _)
    · exact List.Sublist.refl _

/-- The places gone on from are among all places. -/
theorem chosen (e : Enumeration) (dive : Bool) (p : Node) (ps : List Node) (b : Branch)
    (spots : List Spot) : (e.chosen dive p ps b spots).Sublist spots := by
  rw [Enumeration.chosen]
  split
  · cases hFind : spots.find? fun spot => !(e.atSpot dive p ps spot b).isEmpty with
    | none => exact List.nil_sublist _
    | some spot => exact List.singleton_sublist.2 (List.mem_of_find?_eq_some hFind)
  · exact List.Sublist.refl _

/-- Committing drops all spots but the first, and with it their ways. -/
theorem scan (h : e.Thins free) (dive : Bool) (patterns : List Node) (candidates : List Site)
    (b : Branch) :
    (e.scan dive patterns candidates b).Sublist (free.scan dive patterns candidates b) := by
  induction hLength : patterns.length using Nat.strongRecOn
    generalizing patterns candidates b with
  | ind n ih =>
      have hFrom : ∀ p ps b spot, ps.length < n →
          (e.scanFrom dive p ps b spot).Sublist (free.scanFrom dive p ps b spot) := by
        intro p ps b spot hShort
        apply flatMap_sublist (h.atSpot dive p ps spot b)
        intro t _
        exact ih _ (Nat.lt_of_le_of_lt (by simp) hShort) _ _ _ rfl
      cases patterns with
      | nil => rw [scan_nil, scan_nil]
      | cons p ps =>
          have hShort : ps.length < n := by rw [← hLength]; exact Nat.lt_succ_self _
          cases hGlob : p.glob? with
          | none =>
              have hAll : free.chosen dive p ps b (Spot.positions dive candidates) =
                  Spot.positions dive candidates := by
                rw [Enumeration.chosen, h.conditions]
                rfl
              rw [scan_cons _ dive hGlob, scan_cons _ dive hGlob, hAll]
              exact flatMap_sublist (chosen e dive p ps b _) fun spot _ => hFrom p ps b spot hShort
          | some w =>
              cases ps with
              | nil => rw [scan_glob_last _ dive hGlob, scan_glob_last _ dive hGlob, h.bind_eq]
              | cons q qs =>
                  rw [scan_glob _ dive hGlob, scan_glob _ dive hGlob]
                  apply List.Sublist.flatMap_right
                  intro place _
                  rw [h.bind_eq]
                  apply List.Sublist.flatMap_right
                  intro b _
                  exact hFrom q qs b place.1 (Nat.lt_of_succ_lt hShort)

theorem perform (h : e.Thins free) (duty : Duty) (b : Branch) :
    (e.perform duty b).Sublist (free.perform duty b) := by
  cases duty with
  | exact p c => exact h.node p c b
  | below p c =>
      apply (h.node p c b).append
      split
      · exact List.Sublist.refl _
      · exact List.Sublist.flatMap_right _ fun d _ => h.node p d b
  | list pairing ps cs =>
      cases pairing with
      | fixed => exact h.fixed ps cs b
      | ordered => exact h.scan false ps cs b
      | statements => exact h.scan true ps cs b

/-- Rows of duties have fewer ways where the order matters. -/
theorem performAll (h : e.Thins free) (duties : List Duty) (b : Branch) :
    (e.performAll duties b).Sublist (free.performAll duties b) := by
  induction duties generalizing b with
  | nil => exact List.Sublist.refl _
  | cons duty duties ih => exact flatMap_sublist (h.perform duty b) fun b _ => ih b

/-- A layer has fewer ways where the order matters. -/
theorem step (h : e.Thins free) (p : Node) (c : Site) (b : Branch) :
    (e.step p c b).Sublist (free.step p c b) := by
  cases hp : p.isConcrete with
  | false =>
      cases p <;> cases hp
      · exact List.Sublist.refl _
      · rw [Enumeration.step, Enumeration.step, h.bind_eq]
  | true =>
      rw [step_concrete _ hp, step_concrete _ hp, h.conditions]
      apply List.Sublist.flatMap_right
      intro form _
      rw [sameForm_eq_performAll, sameForm_eq_performAll]
      split
      · cases Duty.ofNodes? form c with
        | none => exact List.Sublist.refl _
        | some duties => exact h.performAll duties b
      · exact List.Sublist.refl _

end Enumeration.Thins

namespace Conditions

variable (conditions : Conditions)

/-- Every layer has fewer ways where the order matters, in the same order. -/
theorem waysAt_sublist (height : Nat) (p : Node) (c : Site) (b : Branch) :
    (conditions.waysAt height p c b).Sublist (conditions.freed.waysAt height p c b) := by
  induction height generalizing p c b with
  | zero => exact List.Sublist.refl _
  | succ height ih =>
      have hThins : Enumeration.Thins ⟨conditions, conditions.waysAt height⟩
          ⟨conditions.freed, conditions.freed.waysAt height⟩ := ⟨rfl, ih⟩
      exact hThins.step p c b

/-- The enumeration is thinned by the order. -/
theorem enumeration_thins : conditions.enumeration.Thins conditions.freed.enumeration :=
  ⟨rfl, fun p c b => conditions.waysAt_sublist c.node.height p c b⟩

theorem body_sublist (ps : List Node) (cs : List Site) (b : Branch) :
    (conditions.body ps cs b).solutions.Sublist (conditions.freed.body ps cs b).solutions := by
  rw [solutions_body, solutions_body]
  exact conditions.enumeration_thins.scan true ps cs b

/-- The solutions for a node are among those with the order freed, in the same order. -/
theorem node_sublist (p : Node) (c : Site) (b : Branch) :
    (conditions.node p c b).solutions.Sublist (conditions.freed.node p c b).solutions := by
  rw [solutions_node, solutions_node]
  exact conditions.enumeration_thins.node p c b

/-- Looking for a pattern in a program with commitment finds a part of what is found without. -/
theorem searchCode_sublist (pattern : Node) (program : Site) :
    (conditions.searchCode pattern program).solutions.Sublist
      (conditions.freed.searchCode pattern program).solutions := by
  unfold searchCode
  split
  · exact conditions.body_sublist ..
  · rw [Search.solutions_firstOf, Search.solutions_firstOf]
    exact List.Sublist.flatMap_right _ fun s _ => conditions.node_sublist ..

theorem searchNode_sublist (pattern : Node) (candidate : Site) :
    (conditions.searchNode pattern candidate).solutions.Sublist
      (conditions.freed.searchNode pattern candidate).solutions := by
  unfold searchNode
  split
  · exact conditions.body_sublist ..
  · exact conditions.body_sublist ..
  · exact List.Sublist.refl _
  · exact conditions.node_sublist ..
  · exact List.Sublist.refl _
  · exact conditions.node_sublist ..

end Conditions

/-- A search that ends with a match ends with the first thing it finds. -/
theorem Outcome.exists_first_of_ofSearch {search : Matching} {fallback : Site}
    {bindings : Bindings} {asked : List Inquiry}
    (h : ofSearch search fallback = (matched bindings, asked)) :
    ∃ b, search.first.1 = some b ∧ bindings = b.finish fallback := by
  unfold ofSearch at h
  rcases hFirst : search.first with ⟨found, events⟩
  rw [hFirst] at h
  cases found with
  | none => cases congrArg Prod.fst h
  | some b =>
      cases congrArg Prod.fst h
      exact ⟨b, rfl, rfl⟩

namespace Conditions

variable {conditions : Conditions}

/-- A match of code is the first solution of its search. -/
theorem matchCode_eq {source : Source} {pattern : PatternSource} {n : Node} {compiled : Pattern}
    (hTree : source.tree? = .ok n)
    (hCompiled : Pattern.compile pattern conditions.constraints = .ok compiled) :
    conditions.matchCode source pattern =
      .ok (Outcome.ofSearch (conditions.searchCode compiled.root (.root n)) (.root n)) := by
  rw [matchCode, hTree, hCompiled]
  rfl

/-- A match of a tree is the first solution of its search. -/
theorem matchNode_eq {n : Node} {pattern : PatternSource} {compiled : Pattern}
    (hCompiled : Pattern.compile pattern conditions.constraints = .ok compiled) :
    conditions.matchNode n pattern =
      .ok (Outcome.ofSearch (conditions.searchNode compiled.root (.root n)) (.root n)) := by
  rw [matchNode, hCompiled]
  rfl

/-- Order only restricts. If a pattern is matched under conditions that may commit to places, the
bindings and the root that the search ended with are among those that the search without commitment
goes through, and so the pattern is matched without commitment too. -/
theorem order_only_restricts (conditions : Conditions) (pattern : PatternSource) :
    (∀ source found asked, conditions.matchCode source pattern = .ok (.matched found, asked) →
      ∃ n compiled b, source.tree? = .ok n ∧
        Pattern.compile pattern conditions.constraints = .ok compiled ∧
        (conditions.searchCode compiled.root (.root n)).first.1 = some b ∧
        found = b.finish (.root n) ∧
        b ∈ (conditions.freed.searchCode compiled.root (.root n)).solutions ∧
        ∃ found' asked', conditions.freed.matchCode source pattern =
          .ok (.matched found', asked')) ∧
    ∀ n found asked, conditions.matchNode n pattern = .ok (.matched found, asked) →
      ∃ compiled b, Pattern.compile pattern conditions.constraints = .ok compiled ∧
        (conditions.searchNode compiled.root (.root n)).first.1 = some b ∧
        found = b.finish (.root n) ∧
        b ∈ (conditions.freed.searchNode compiled.root (.root n)).solutions ∧
        ∃ found' asked', conditions.freed.matchNode n pattern =
          .ok (.matched found', asked') := by
  constructor
  · intro source found asked hMatched
    obtain ⟨n, compiled, -, hTree, hCompiled, -, -⟩ := exists_solution_of_matchCode hMatched
    rw [matchCode_eq hTree hCompiled] at hMatched
    obtain ⟨b, hFirst, hFinish⟩ := Outcome.exists_first_of_ofSearch (Except.ok.inj hMatched)
    have hFree : b ∈ (conditions.freed.searchCode compiled.root (.root n)).solutions := by
      apply (conditions.searchCode_sublist compiled.root (.root n)).mem
      rw [Search.first_fst] at hFirst
      exact List.mem_of_mem_head? hFirst
    exact ⟨n, compiled, b, hTree, hCompiled, hFirst, hFinish, hFree,
      exists_matchCode_of_solution hTree hCompiled hFree⟩
  · intro n found asked hMatched
    obtain ⟨compiled, -, hCompiled, -, -⟩ := exists_solution_of_matchNode hMatched
    rw [matchNode_eq hCompiled] at hMatched
    obtain ⟨b, hFirst, hFinish⟩ := Outcome.exists_first_of_ofSearch (Except.ok.inj hMatched)
    have hFree : b ∈ (conditions.freed.searchNode compiled.root (.root n)).solutions := by
      apply (conditions.searchNode_sublist compiled.root (.root n)).mem
      rw [Search.first_fst] at hFirst
      exact List.mem_of_mem_head? hFirst
    exact ⟨compiled, b, hCompiled, hFirst, hFinish, hFree,
      exists_matchNode_of_solution hCompiled hFree⟩

/-- The pattern `f($a); g($a);`, found with commitment in the loop of
`while (x) { f(1); g(1); } f(2);`, is found there without commitment too. -/
theorem order_only_restricts_loop :
    let invoke (f : String) (argument : Node) : Node := .expr (.call (.ident f) [argument])
    let a : Node := .wildcard ⟨some "a", .scalar⟩
    let pattern : Node := .program [invoke "f" a, invoke "g" a]
    let source : Node := .program
      [.whileLoop (.ident "x") (.block [invoke "f" (.int 1), invoke "g" (.int 1)]),
        invoke "f" (.int 2)]
    let conditions : Conditions := ⟨[], some .all, true⟩
    (∃ found asked, conditions.matchCode (.tree source) (.tree pattern) =
      .ok (.matched found, asked)) ∧
    ∃ found asked, conditions.freed.matchCode (.tree source) (.tree pattern) =
      .ok (.matched found, asked) := by
  intro invoke a pattern source conditions
  obtain ⟨found, asked, hMatch⟩ : ∃ found asked,
      conditions.matchCode (.tree source) (.tree pattern) = .ok (.matched found, asked) :=
    Outcome.exists_matched_of_verdict (by decide +kernel)
  obtain ⟨-, -, -, -, -, -, -, -, hFree⟩ :=
    (order_only_restricts conditions (.tree pattern)).1 (.tree source) found asked hMatch
  exact ⟨⟨found, asked, hMatch⟩, hFree⟩

end Conditions

end CodeShape
