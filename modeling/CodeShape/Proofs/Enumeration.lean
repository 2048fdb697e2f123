import CodeShape.Proofs.Depth
import Mathlib.Data.List.Find

/-!
The ways to match, as plain lists. What a search tries one after the other is concatenated here, and
going on from an alternative is a flat map. The lists are the reference that searches are held
against, so they name every alternative themselves and share no step with the search.
-/
namespace CodeShape

/-- Whether two runs are equal node by node, with a statement that is just an expression taken for
the expression. -/
def equalRuns (rules : Option Rules) : List Site → List Site → Bool
  | [], [] => true
  | s :: ss, t :: ts =>
    let bare : Node → Node
      | .expr e => e
      | n => n
    Node.equivalent rules (bare s.node) (bare t.node) && equalRuns rules ss ts
  | _, _ => false

/-- Matching lists of nodes, given all ways to match one node. -/
structure Enumeration where
  conditions : Conditions
  node : (pattern : Node) → (candidate : Site) → Branch → List Branch

namespace Enumeration

variable (e : Enumeration)

/-- Whether the conditions on a name accept the bindings. A condition counts as soon as all of its
variables are bound. -/
def accepts (name : String) (b : Branch) : Bool :=
  e.conditions.constraints.all fun c => !c.vars.contains name ||
    (c.vars.mapM fun v => (b.find? v).map Binding.capture).all fun values => c.test values = .pass

/-- The bindings with a wildcard bound: always if it is nameless, unchanged if its name stands for an
equal run already, and else if the conditions on the name accept them. -/
def bind (w : Wildcard) (value : Binding) (b : Branch) : List Branch :=
  match w.name with
  | none => [{ b with anonymous := b.anonymous ++ [value] }]
  | some name =>
    match b.find? name with
    | some old => if equalRuns e.conditions.rules old.sites value.sites then [b] else []
    | none =>
      let bound := { b with named := b.named ++ [(name, value)] }
      if e.accepts name bound then [bound] else []

/-- Element by element; the runs of a glob from the shortest to the longest, or everything for a
glob in last position. -/
def fixed : (patterns : List Node) → (candidates : List Site) → Branch → List Branch
  | [], _, b => [b]
  | p :: ps, cs, b =>
    match p.glob? with
    | some w =>
      if ps.isEmpty then e.bind w (.many cs) b
      else (List.range (cs.length + 1)).flatMap fun j =>
        (e.bind w (.many (cs.take j)) b).flatMap fun b => fixed ps (cs.drop j) b
    | none =>
      match cs with
      | [] => []
      | c :: cs => (e.node p c b).flatMap fun b => fixed ps cs b

/-- A declaration with a value at a declaration and an assignment. -/
def splitAt (p : Node) (spot : Spot) (b : Branch) : List Taken :=
  match p.splitDeclaration?, spot.following with
  | some (declared, assigned), next :: _ =>
    (e.node declared spot.site b).flatMap fun b =>
      (e.node assigned next b).map fun b => ⟨0, 1, b⟩
  | _, _ => []

/-- A declaration and an assignment at a declaration with a value. -/
def mergedAt (p : Node) (ps : List Node) (spot : Spot) (b : Branch) : List Taken :=
  match ps.head?.bind p.mergeDeclaration? with
  | some merged => (e.node merged spot.site b).map fun b => ⟨1, 0, b⟩
  | none => []

/-- The first element at one spot: as it is, then split over two statements, then merged with the
element after it. -/
def atSpot (dive : Bool) (p : Node) (ps : List Node) (spot : Spot) (b : Branch) : List Taken :=
  let b := b.anchor (some spot.site)
  (e.node p spot.site b).map (fun b => ⟨0, 0, b⟩) ++
    if dive && e.conditions.rules.any Rules.declarationSplit
      then e.splitAt p spot b ++ e.mergedAt p ps spot b else []

/-- The elements in order, at all places in depth-first order. If order matters, the first element
only takes the first place that has any way. -/
def scan (dive : Bool) (patterns : List Node) (candidates : List Site) (b : Branch) :
    List Branch :=
  match patterns with
  | [] => [b]
  | p :: ps =>
    match p.glob?, ps with
    | none, ps =>
      let spots := Spot.positions dive candidates
      let chosen := if e.conditions.orderMatters
        then (spots.find? fun spot => !(e.atSpot dive p ps spot b).isEmpty).toList else spots
      chosen.flatMap fun spot => (e.atSpot dive p ps spot b).flatMap fun t =>
        scan dive (ps.drop t.patterns) (spot.following.drop t.candidates) t.branch
    | some w, [] => e.bind w (.many candidates) (b.anchor candidates.head?)
    | some w, q :: qs =>
      (Spot.along candidates).zipIdx.flatMap fun (spot, j) =>
        let b := if j = 0 then b else b.anchor candidates.head?
        (e.bind w (.many (candidates.take j)) b).flatMap fun b =>
          (e.atSpot dive q qs spot b).flatMap fun t =>
            scan dive (qs.drop t.patterns) (spot.following.drop t.candidates) t.branch
termination_by patterns.length
decreasing_by all_goals grind

/-- Patterns that are not looked for below a candidate: blocks, and those without parts. -/
def isShallow : Node → Bool
  | .block _ => true
  | p => p.children.isEmpty

/-- A part that may stand deeper: at the candidate itself, then at everything below it in
pre-order. -/
def nested (p : Node) (c : Site) (b : Branch) : List Branch :=
  e.node p c b ++
    if isShallow p then [] else c.descendants.tail.flatMap fun d => e.node p d b

/-- One slot. A part that the pattern leaves out asks for nothing; a part that only the pattern has
cannot be matched. With `whole`, a part has to stand in the slot itself. -/
def slot (whole : Bool) : Field Node → Field Site → Branch → List Branch
  | .one p, .one c, b | .opt (some p), .opt (some c), b =>
    if whole then e.node p c b else e.nested p c b
  | .stmt (some p), .stmt (some c), b =>
    let ps := match p with
      | .block body => body
      | p => [p]
    e.scan true ps c.statements b
  | .seq .fixed ps, .seq _ cs, b => e.fixed ps cs b
  | .seq .ordered ps, .seq _ cs, b => e.scan false ps cs b
  | .seq .statements ps, .seq _ cs, b => e.scan true ps cs b
  | .opt none, _, b | .stmt none, _, b => [b]
  | _, _, _ => []

def slots (whole : Bool) : List (Field Node) → List (Field Site) → Branch → List Branch
  | f :: fs, g :: gs, b => (e.slot whole f g b).flatMap (slots whole fs gs)
  | _, _, b => [b]

/-- Whether all attributes agree, but for the mark of an abbreviated property. -/
def sameAttributes (form candidate : Node) : Bool :=
  match form.label, candidate.label with
  | .property kind computed _ isMethod, .property kind' computed' _ isMethod' =>
    kind == kind' && computed == computed' && isMethod == isMethod'
  | label, label' => label == label'

def sameForm (form : Node) (candidate : Site) (b : Branch) : List Branch :=
  if sameAttributes form candidate.node then
    e.slots (Duty.wholeOnly form) form.fields candidate.fields b
  else []

/-- One node: the form that the pattern has, then each form that the rules give it. A hole stands
for anything. -/
def step (p : Node) (c : Site) (b : Branch) : List Branch :=
  match p with
  | .wildcard w => e.bind w (w.valueAt c) b
  | .hole => [b]
  | p => e.sameForm p c b ++
      match e.conditions.rules with
      | some rules => (p.alternatives rules c.node).flatMap fun form => e.sameForm form c b
      | none => []

end Enumeration

/-- The matcher compares two bindings of one name as runs of equivalent subtrees. -/
theorem agree_eq_equalRuns (conditions : Conditions) (old new : Binding) :
    conditions.agree old new = equalRuns conditions.rules old.sites new.sites := by
  rw [Conditions.agree]
  generalize old.sites = ss
  generalize new.sites = ts
  induction ss generalizing ts with
  | nil => cases ts <;> rfl
  | cons s ss ih =>
      cases ts with
      | nil => rfl
      | cons t ts =>
          rw [equalRuns, ← ih ts, Bool.and_left_comm]
          congr 1
          simp

/-- A check passes if every condition that can be asked now does. -/
theorem Constraint.check_pass_iff (value? : String → Option Capture) (name : String)
    (constraints : List Constraint) :
    (check value? name constraints).2 = .pass ↔
      (constraints.all fun c => !c.vars.contains name ||
        (c.vars.mapM value?).all fun values => c.test values = .pass) = true := by
  induction constraints with
  | nil => simp [check]
  | cons c rest ih =>
      rw [check, List.all_cons]
      by_cases hName : name ∈ c.vars
      · cases hValues : c.vars.mapM value? with
        | none => simpa [hName, evaluate?, hValues] using ih
        | some values =>
            by_cases hTest : c.test values = .pass
            · simpa [hName, evaluate?, hValues, hTest] using ih
            · simp [hName, evaluate?, hValues, hTest]
      · simpa [hName] using ih

namespace Enumeration

variable (e : Enumeration)

/-- A binding is accepted when every constraint that has all its variables, this one among them,
passes on their values. -/
theorem accepts_iff_forall {e : Enumeration} {name : String} {b : Branch} :
    e.accepts name b ↔ ∀ c ∈ e.conditions.constraints, name ∈ c.vars → ∀ values,
      c.vars.mapM (fun v => (b.find? v).map Binding.capture) = some values →
        c.test values = .pass := by
  simp [accepts, Option.all_eq_true, or_iff_not_imp_left]

/-- The constraints are checked in order up to the first that fails, which is to say that all
pass. -/
theorem accepts_iff (name : String) (b : Branch) :
    e.accepts name b ↔ (Constraint.check (fun v => (b.find? v).map Binding.capture) name
      e.conditions.constraints).2 = .pass :=
  (Constraint.check_pass_iff ..).symm

/-- Binding in terms of the comparison and the check that searches make. -/
theorem bind_eq_check (w : Wildcard) (value : Binding) (b : Branch) :
    e.bind w value b =
      match w.name with
      | none => [{ b with anonymous := b.anonymous ++ [value] }]
      | some name =>
        match b.find? name with
        | some old => if e.conditions.agree old value then [b] else []
        | none =>
          let bound := { b with named := b.named ++ [(name, value)] }
          let known (v : String) : Option Capture := (bound.find? v).map Binding.capture
          if (Constraint.check known name e.conditions.constraints).2 = .pass
            then [bound] else [] := by
  simp only [bind, agree_eq_equalRuns, accepts_iff]

def perform : Duty → Branch → List Branch
  | .exact p c, b => e.node p c b
  | .below p c, b => e.nested p c b
  | .list .fixed ps cs, b => e.fixed ps cs b
  | .list .ordered ps cs, b => e.scan false ps cs b
  | .list .statements ps cs, b => e.scan true ps cs b

def performAll : List Duty → Branch → List Branch
  | [], b => [b]
  | duty :: duties, b => (e.perform duty b).flatMap (performAll duties)

/-- Duties are done one after the other, so a row of them can be cut anywhere. -/
theorem performAll_append (duties duties' : List Duty) (b : Branch) :
    e.performAll (duties ++ duties') b =
      (e.performAll duties b).flatMap (e.performAll duties') := by
  induction duties generalizing b with
  | nil => simp [performAll]
  | cons duty duties ih =>
      rw [List.cons_append, performAll, performAll, List.flatMap_assoc]
      congr 1
      exact funext ih

theorem performAll_singleton (duty : Duty) (b : Branch) :
    e.performAll [duty] b = e.perform duty b :=
  List.flatMap_singleton' _

/-- A nested slot takes the candidate or, where the pattern seeks below, any node under it. -/
theorem nested_eq (p : Node) (c : Site) (b : Branch) :
    e.nested p c b = e.node p c b ++
      if ListMatcher.seeksBelow p then c.descendants.tail.flatMap fun d => e.node p d b else [] := by
  have hBelow : ListMatcher.seeksBelow p = !isShallow p := by
    cases p <;> rfl
  rw [nested, hBelow]
  cases isShallow p <;> rfl

/-- A slot lists the ways of the duties that the search draws up for it, and none where it draws up
none. -/
theorem slot_eq (whole : Bool) (f : Field Node) (g : Field Site) (b : Branch) :
    e.slot whole f g b =
      match Duty.ofSlots? whole f g with
      | some duties => e.performAll duties b
      | none => [] := by
  have hPart : ∀ p c, (if whole then e.node p c b else e.nested p c b) =
      e.performAll [if whole then Duty.exact p c else Duty.below p c] b := by
    intro p c
    rw [performAll_singleton]
    cases whole <;> rfl
  cases f with
  | one p =>
      cases g with
      | one c => exact hPart p c
      | _ => rfl
  | opt p? =>
      cases p? with
      | none => rfl
      | some p =>
          cases g with
          | opt c? =>
              cases c? with
              | none => rfl
              | some c => exact hPart p c
          | _ => rfl
  | stmt p? =>
      cases p? with
      | none => rfl
      | some p =>
          cases g with
          | stmt c? =>
              cases c? with
              | none => rfl
              | some c =>
                  exact (e.performAll_singleton
                    (.list .statements (Duty.statements p) c.statements) b).symm
          | _ => rfl
  | seq pairing ps =>
      cases g with
      | seq _ cs =>
          refine Eq.trans ?_ (e.performAll_singleton (.list pairing ps cs) b).symm
          cases pairing <;> rfl
      | _ => cases pairing <;> rfl

/-- The rows of fields paired slot by slot are the duties the matcher makes of them. -/
theorem slots_eq (whole : Bool) (fs : List (Field Node)) (gs : List (Field Site)) (b : Branch) :
    e.slots whole fs gs b =
      match Duty.ofFields? whole fs gs with
      | some duties => e.performAll duties b
      | none => [] := by
  induction fs generalizing gs b with
  | nil => rfl
  | cons f fs ih =>
      cases gs with
      | nil => rfl
      | cons g gs =>
          rw [slots, Duty.ofFields?, slot_eq, funext (ih gs)]
          cases Duty.ofSlots? whole f g with
          | none => rfl
          | some first =>
              cases Duty.ofFields? whole fs gs with
              | none => simp
              | some rest => exact (e.performAll_append first rest b).symm

/-- Comparing the attributes kind by kind comes to comparing the outlines, shorthand aside. -/
theorem sameAttributes_eq (form candidate : Node) :
    sameAttributes form candidate = form.sameShape candidate := by
  rw [sameAttributes, Node.sameShape]
  generalize form.label = l
  generalize candidate.label = l'
  have hPlain : l'.unabbreviated = l' ∨
      ∃ kind computed shorthand isMethod, l' = .property kind computed shorthand isMethod := by
    cases l' <;> first | exact .inl rfl | exact .inr ⟨_, _, _, _, rfl⟩
  cases l with
  | property kind computed _ isMethod =>
      cases l' with
      | property kind' computed' _ isMethod' =>
          change _ = (kind == kind' && (computed == computed' &&
            (false == false && isMethod == isMethod')))
          rw [BEq.rfl, Bool.true_and, ← Bool.and_assoc]
      | _ => rfl
  | _ =>
      rcases hPlain with hSame | ⟨kind', computed', shorthand', isMethod', rfl⟩
      · rw [hSame]
        rfl
      · rfl

/-- A form in terms of the duties that the search draws up for it. -/
theorem sameForm_eq_performAll (form : Node) (candidate : Site) (b : Branch) :
    e.sameForm form candidate b =
      if form.sameShape candidate.node then
        match Duty.ofNodes? form candidate with
        | some duties => e.performAll duties b
        | none => []
      else [] := by
  rw [sameForm, sameAttributes_eq, Duty.ofNodes?_eq, ← slots_eq]

/-- The list of a concrete pattern is that of its own form and then those of its rewrites, in the
order the matcher tries them. -/
theorem step_concrete {p : Node} (hp : p.isConcrete) (c : Site) (b : Branch) :
    e.step p c b =
      (e.conditions.forms p c.node).flatMap fun form => e.sameForm form c b := by
  have hStep : e.step p c b = e.sameForm p c b ++
      match e.conditions.rules with
      | some rules => (p.alternatives rules c.node).flatMap fun form => e.sameForm form c b
      | none => [] := by
    cases p <;> first | rfl | cases hp
  rw [hStep, Conditions.forms, List.flatMap_cons]
  cases e.conditions.rules <;> rfl

/-- A last glob lists the run of all that is left. -/
theorem fixed_glob_last {p : Node} {w : Wildcard} (hGlob : p.glob? = some w)
    (candidates : List Site) (b : Branch) :
    e.fixed [p] candidates b = e.bind w (.many candidates) b := by
  rw [fixed.eq_def]
  simp only [hGlob]
  rfl

/-- A glob with patterns after it lists the runs by length, and after each what the rest has. -/
theorem fixed_glob {p q : Node} {w : Wildcard} (hGlob : p.glob? = some w) (qs : List Node)
    (candidates : List Site) (b : Branch) :
    e.fixed (p :: q :: qs) candidates b =
      (List.range (candidates.length + 1)).flatMap fun j =>
        (e.bind w (.many (candidates.take j)) b).flatMap fun b =>
          e.fixed (q :: qs) (candidates.drop j) b := by
  rw [fixed.eq_def]
  simp only [hGlob]
  rfl

theorem fixed_none {p : Node} (hGlob : p.glob? = none) (ps : List Node) (b : Branch) :
    e.fixed (p :: ps) [] b = [] := by
  rw [fixed.eq_def]
  simp only [hGlob]

/-- A pattern that is no glob lists its ways with the first candidate, and after each what the rest
has. -/
theorem fixed_cons {p : Node} (hGlob : p.glob? = none) (ps : List Node) (c : Site)
    (cs : List Site) (b : Branch) :
    e.fixed (p :: ps) (c :: cs) b = (e.node p c b).flatMap fun b => e.fixed ps cs b := by
  rw [fixed.eq_def]
  simp only [hGlob]

/-- With no patterns left the one way is the branch itself. -/
theorem scan_nil (dive : Bool) (candidates : List Site) (b : Branch) :
    e.scan dive [] candidates b = [b] := by
  rw [scan]

/-- One place for the first element, and the ways to go on after it. -/
def scanFrom (dive : Bool) (p : Node) (ps : List Node) (b : Branch) (spot : Spot) :
    List Branch :=
  (e.atSpot dive p ps spot b).flatMap fun t =>
    e.scan dive (ps.drop t.patterns) (spot.following.drop t.candidates) t.branch

/-- The places that are gone on from: all, or the first with any way to match there if order
matters. -/
def chosen (dive : Bool) (p : Node) (ps : List Node) (b : Branch) (spots : List Spot) :
    List Spot :=
  if e.conditions.orderMatters
    then (spots.find? fun spot => !(e.atSpot dive p ps spot b).isEmpty).toList else spots

/-- A scan lists the ways of its first pattern at the positions chosen, and after each what the rest
has. -/
theorem scan_cons (dive : Bool) {p : Node} (hGlob : p.glob? = none) (ps : List Node)
    (candidates : List Site) (b : Branch) :
    e.scan dive (p :: ps) candidates b =
      (e.chosen dive p ps b (Spot.positions dive candidates)).flatMap
        (e.scanFrom dive p ps b) := by
  rw [scan.eq_def]
  simp only [hGlob]
  rfl

/-- A last glob lists the run of all the candidates. -/
theorem scan_glob_last (dive : Bool) {p : Node} {w : Wildcard} (hGlob : p.glob? = some w)
    (candidates : List Site) (b : Branch) :
    e.scan dive [p] candidates b = e.bind w (.many candidates) (b.anchor candidates.head?) := by
  rw [scan.eq_def]
  simp only [hGlob]

/-- A glob with patterns after it lists the runs that end before each candidate. -/
theorem scan_glob (dive : Bool) {p q : Node} {w : Wildcard} (hGlob : p.glob? = some w)
    (qs : List Node) (candidates : List Site) (b : Branch) :
    e.scan dive (p :: q :: qs) candidates b =
      (Spot.ofList candidates).zipIdx.flatMap fun place =>
        (e.bind w (.many (candidates.take place.2))
          (if place.2 = 0 then b else b.anchor candidates.head?)).flatMap fun b =>
            e.scanFrom dive q qs b place.1 := by
  rw [scan.eq_def, ← Spot.along_eq_ofList]
  simp only [hGlob]
  rfl

end Enumeration

/-- Searches whose solutions the enumeration lists, for candidates up to a height. -/
structure Enumeration.Lists (e : Enumeration) (m : ListMatcher) (bound : Nat) : Prop where
  conditions : m.conditions = e.conditions
  node : ∀ p c b, c.node.height ≤ bound → (m.node p c b).solutions = e.node p c b
  depth : bound ≤ m.depth

namespace Enumeration

variable {e : Enumeration} {m : ListMatcher} {bound : Nat}

/-- Binding as it is written out lists what the search of the matcher's own binding finds. -/
theorem solutions_bind (conditions : Conditions) (node : Node → Site → Branch → List Branch)
    (w : Wildcard) (value : Binding) (b : Branch) :
    (conditions.bind w value b).solutions = bind ⟨conditions, node⟩ w value b := by
  obtain ⟨name, extent⟩ := w
  cases name with
  | none => rfl
  | some name =>
      simp only [Conditions.bind, bind_eq_check]
      cases b.find? name with
      | some old =>
          simp only
          split <;> rfl
      | none =>
          simp only [Search.solutions_after]
          split <;> rfl

namespace Lists

/-- Binding does not look at the lists below, so it needs no bound. -/
theorem bind_eq (h : e.Lists m bound) (w : Wildcard) (value : Binding) (b : Branch) :
    (m.conditions.bind w value b).solutions = e.bind w value b := by
  rw [h.conditions, solutions_bind e.conditions e.node]

/-- The search of a fixed list finds its ways in the order of the list. -/
theorem fixed_eq (h : e.Lists m bound) {patterns : List Node} {candidates : List Site}
    (hLow : ∀ c ∈ candidates, c.node.height ≤ bound) (b : Branch) :
    (m.fixed patterns candidates b).solutions = e.fixed patterns candidates b := by
  induction patterns generalizing candidates b with
  | nil => rfl
  | cons p ps ih =>
      cases hGlob : p.glob? with
      | some w =>
          cases ps with
          | nil => rw [m.fixed_glob_last hGlob, e.fixed_glob_last hGlob, h.bind_eq]
          | cons q qs =>
              have hDrop : ∀ j b, (m.fixed (q :: qs) (candidates.drop j) b).solutions =
                  e.fixed (q :: qs) (candidates.drop j) b :=
                fun j b => ih (fun c hc => hLow c (List.mem_of_mem_drop hc)) b
              rw [m.fixed_glob hGlob, e.fixed_glob hGlob, Search.solutions_firstOf]
              simp only [Search.solutions_andThen, h.bind_eq, hDrop]
      | none =>
          cases candidates with
          | nil =>
              rw [m.fixed_none hGlob, e.fixed_none hGlob]
              rfl
          | cons c cs =>
              have hRest : ∀ b, (m.fixed ps cs b).solutions = e.fixed ps cs b :=
                fun b => ih (fun x hx => hLow x (by simp [hx])) b
              rw [m.fixed_cons hGlob, e.fixed_cons hGlob, Search.solutions_andThen,
                h.node p c b (hLow c (by simp))]
              simp only [hRest]

/-- A declaration split off a statement is found in the order listed. -/
theorem splitAt_eq (h : e.Lists m bound) (p : Node) {spot : Spot}
    (hLow : ∀ c ∈ spot.site :: spot.following, c.node.height ≤ bound) (b : Branch) :
    (m.splitAt p spot b).solutions = e.splitAt p spot b := by
  rw [ListMatcher.splitAt, splitAt]
  cases p.splitDeclaration? with
  | none => rfl
  | some halves =>
      cases hFollow : spot.following with
      | nil => rfl
      | cons next rest =>
          have hHere : ∀ q b, (m.node q spot.site b).solutions = e.node q spot.site b :=
            fun q b => h.node q spot.site b (hLow _ (by simp))
          have hThere : ∀ q b, (m.node q next b).solutions = e.node q next b :=
            fun q b => h.node q next b (hLow next (by simp [hFollow]))
          simp [hHere, hThere, List.map_eq_flatMap]

/-- A declaration merged from two statements is found in the order listed. -/
theorem mergedAt_eq (h : e.Lists m bound) (p : Node) (ps : List Node) {spot : Spot}
    (hLow : spot.site.node.height ≤ bound) (b : Branch) :
    (m.mergedAt p ps spot b).solutions = e.mergedAt p ps spot b := by
  rw [ListMatcher.mergedAt, mergedAt]
  cases ps.head?.bind p.mergeDeclaration? with
  | none => rfl
  | some merged => simp [h.node merged spot.site b hLow, List.map_eq_flatMap]

/-- What is found at one spot is what is listed there, in that order. -/
theorem atSpot_eq (h : e.Lists m bound) (dive : Bool) (p : Node) (ps : List Node) {spot : Spot}
    (hLow : ∀ c ∈ spot.site :: spot.following, c.node.height ≤ bound) (b : Branch) :
    (m.atSpot dive p ps spot b).solutions = e.atSpot dive p ps spot b := by
  have hSite : spot.site.node.height ≤ bound := hLow _ (by simp)
  rw [m.atSpot_unfold, atSpot, Search.solutions_orElse, Search.solutions_andThen,
    h.node _ _ _ hSite, h.conditions, List.map_eq_flatMap]
  congr 1
  cases dive with
  | false => rfl
  | true =>
      rw [Conditions.splitsDeclarations]
      cases e.conditions.rules.any Rules.declarationSplit with
      | false => rfl
      | true =>
          rw [← h.splitAt_eq p hLow, ← h.mergedAt_eq p ps hSite]
          exact Search.solutions_orElse _ _

/-- A scan finds its ways in the order of the list. -/
theorem scan_eq (h : e.Lists m bound) (dive : Bool) {patterns : List Node}
    {candidates : List Site} (hLow : ∀ c ∈ candidates, c.node.height ≤ bound) (b : Branch) :
    (m.scan dive patterns candidates b).solutions = e.scan dive patterns candidates b := by
  -- on the number of patterns, as a merged declaration takes two of them at once
  induction hLength : patterns.length using Nat.strongRecOn
    generalizing patterns candidates b with
  | ind n ih =>
      have from_eq : ∀ p ps spot b, ps.length < n →
          (∀ c ∈ spot.site :: spot.following, c.node.height ≤ bound) →
          (m.scanFrom dive p ps b spot).solutions = e.scanFrom dive p ps b spot := by
        intro p ps spot b hShort hSpot
        rw [ListMatcher.scanFrom, scanFrom, Search.solutions_andThen, h.atSpot_eq dive p ps hSpot]
        congr 1
        funext t
        refine ih _ ?_ (fun c hc => hSpot c ?_) _ rfl
        · exact Nat.lt_of_le_of_lt (by simp) hShort
        · exact List.mem_cons_of_mem _ (List.mem_of_mem_drop hc)
      cases patterns with
      | nil => rw [m.scan_nil, e.scan_nil, Search.solutions_one]
      | cons p ps =>
          have hShort : ps.length < n := by rw [← hLength]; exact Nat.lt_succ_self _
          cases hGlob : p.glob? with
          | none =>
              have hSpots : ∀ spot ∈ Spot.positions dive candidates,
                  ∀ c ∈ spot.site :: spot.following, c.node.height ≤ bound :=
                fun spot hSpot => ListMatcher.Agree.low_of_mem_positions hLow hSpot
              rw [m.scan_cons dive hGlob, e.scan_cons dive hGlob, h.conditions,
                Spot.within_eq_positions fun c hc => Nat.le_trans (hLow c hc) h.depth, chosen]
              simp only
              split
              · have hProbe : (Spot.positions dive candidates).find?
                    (fun spot => !(m.atSpot dive p ps spot b).solutions.isEmpty) =
                    (Spot.positions dive candidates).find?
                      (fun spot => !(e.atSpot dive p ps spot b).isEmpty) := by
                  apply List.find?_congr
                  intro spot hSpot
                  rw [h.atSpot_eq dive p ps (hSpots spot hSpot)]
                rw [Search.solutions_committed, hProbe]
                cases hFind : (Spot.positions dive candidates).find? _ with
                | none => rfl
                | some spot =>
                    have hSpot := List.mem_of_find?_eq_some hFind
                    simp [from_eq p ps spot b hShort (hSpots spot hSpot)]
              · rw [Search.solutions_firstOf]
                exact List.flatMap_congr fun spot hSpot =>
                  from_eq p ps spot b hShort (hSpots spot hSpot)
          | some w =>
              cases ps with
              | nil => rw [m.scan_glob_last dive hGlob, e.scan_glob_last dive hGlob, h.bind_eq]
              | cons q qs =>
                  rw [m.scan_glob dive hGlob, e.scan_glob dive hGlob, Search.solutions_firstOf]
                  apply List.flatMap_congr
                  rintro ⟨spot, j⟩ hPlace
                  have hSpot : spot ∈ Spot.positions false candidates :=
                    Spot.mem_positions_of_mem_zipIdx hPlace
                  rw [Search.solutions_andThen, h.bind_eq]
                  congr 1
                  funext b
                  exact from_eq q qs spot b (Nat.lt_of_succ_lt hShort)
                    (ListMatcher.Agree.low_of_mem_positions hLow hSpot)

/-- One duty finds its ways in the order listed. -/
theorem perform_eq (h : e.Lists m bound) {duty : Duty}
    (hLow : ∀ s ∈ duty.sites, s.node.height ≤ bound) (b : Branch) :
    (m.perform duty b).solutions = e.perform duty b := by
  cases duty with
  | exact p c => exact h.node p c b (hLow c (by simp [Duty.sites]))
  | below p c =>
      have hc : c.node.height ≤ bound := hLow c (by simp [Duty.sites])
      rw [ListMatcher.perform, perform, nested_eq, Search.solutions_orElse, h.node p c b hc]
      congr 1
      split
      · rw [Search.solutions_firstOf]
        apply List.flatMap_congr
        intro d hd
        have hLower := Site.height_le_of_mem_descendants (List.mem_of_mem_tail hd)
        exact h.node p d b (Nat.le_trans hLower hc)
      · rfl
  | list pairing ps cs =>
      cases pairing with
      | fixed => exact h.fixed_eq hLow b
      | ordered => exact h.scan_eq false hLow b
      | statements => exact h.scan_eq true hLow b

/-- A row of duties finds its ways in the order listed. -/
theorem performAll_eq (h : e.Lists m bound) {duties : List Duty}
    (hLow : ∀ duty ∈ duties, ∀ s ∈ duty.sites, s.node.height ≤ bound) (b : Branch) :
    (m.performAll duties b).solutions = e.performAll duties b := by
  induction duties generalizing b with
  | nil => rfl
  | cons duty duties ih =>
      rw [ListMatcher.performAll, performAll, Search.solutions_andThen,
        h.perform_eq (hLow duty (by simp))]
      congr 1
      funext b
      exact ih (fun d hd => hLow d (by simp [hd])) b

/-- A form finds its ways in the order listed. Its duties are about sites strictly below the
candidate, so the bound goes down by one. -/
theorem sameForm_eq (h : e.Lists m bound) (form : Node) {candidate : Site}
    (hLow : candidate.node.height ≤ bound + 1) (b : Branch) :
    (m.sameForm form candidate b).solutions = e.sameForm form candidate b := by
  rw [ListMatcher.sameForm, sameForm_eq_performAll]
  split
  · cases hDuties : Duty.ofNodes? form candidate with
    | none => rfl
    | some duties =>
        apply h.performAll_eq
        intro duty hDuty s hs
        have := Duty.height_lt_of_mem_sites hDuties hDuty hs
        omega
  · rfl

end Lists

end Enumeration

namespace Conditions

variable (conditions : Conditions)

/-- All ways to match a node with a candidate of at most the given height. -/
def waysAt : (height : Nat) → Node → Site → Branch → List Branch
  | 0, _, _, _ => []
  | height + 1, p, c, b => Enumeration.step ⟨conditions, waysAt height⟩ p c b

/-- All ways to match a node, in the order in which they are tried. -/
def ways (p : Node) (c : Site) (b : Branch) : List Branch :=
  conditions.waysAt c.node.height p c b

/-- All ways to match lists of nodes. -/
def enumeration : Enumeration := ⟨conditions, conditions.ways⟩

/-- Matching lists with bounds that just cover the candidates. -/
def listsFor (candidates : List Site) : ListMatcher :=
  let height := (candidates.map (·.node.height)).foldl max 0
  ⟨conditions, conditions.nodeAt height, height⟩

/-- A layer that is high enough finds the ways of a node. The induction is on the height, and the
candidate's children are held by the layer below. -/
theorem solutions_nodeAt {height : Nat} {c : Site} (h : c.node.height ≤ height) (p : Node)
    (b : Branch) : (conditions.nodeAt height p c b).solutions = conditions.waysAt height p c b := by
  induction height generalizing p c b with
  | zero => exact absurd h (Nat.not_le_of_lt c.node.height_pos)
  | succ height ih =>
      have hLists : Enumeration.Lists ⟨conditions, conditions.waysAt height⟩
          ⟨conditions, conditions.nodeAt height, height⟩ height :=
        ⟨rfl, fun p c b hc => ih hc p b, Nat.le_refl _⟩
      rw [waysAt]
      cases hp : p.isConcrete with
      | false =>
          cases p <;> cases hp
          · rfl
          · rw [nodeAt_wildcard, Enumeration.solutions_bind conditions (conditions.waysAt height)]
            rfl
      | true =>
          rw [nodeAt_concrete conditions height hp, Enumeration.step_concrete _ hp,
            Search.solutions_firstOf]
          apply List.flatMap_congr
          intro form _
          exact hLists.sameForm_eq form h b

/-- The matcher finds the ways of a node, each once and in the order listed. -/
theorem solutions_node (p : Node) (c : Site) (b : Branch) :
    (conditions.node p c b).solutions = conditions.ways p c b :=
  conditions.solutions_nodeAt (Nat.le_refl _) p b

/-- The list matcher that the search uses is told by the enumeration, at every depth. -/
theorem enumeration_lists (depth : Nat) :
    conditions.enumeration.Lists (conditions.lists depth) depth :=
  ⟨rfl, fun p c b _ => conditions.solutions_node p c b, Nat.le_refl _⟩

/-- The ways to match a node are made from the ways to match what is below it; no bound on the
height is left. -/
theorem ways_eq_step (p : Node) (c : Site) (b : Branch) :
    conditions.ways p c b = conditions.enumeration.step p c b := by
  rw [← solutions_node]
  cases hp : p.isConcrete with
  | false =>
      cases p <;> cases hp
      · rw [node_hole]
        rfl
      · rw [node_wildcard, Enumeration.solutions_bind conditions conditions.ways]
        rfl
  | true =>
      rw [node_concrete conditions hp, Enumeration.step_concrete _ hp, Search.solutions_firstOf]
      apply List.flatMap_congr
      intro form _
      exact (conditions.enumeration_lists c.node.height).sameForm_eq form (Nat.le_succ _) b

/-- The list matcher made for some candidates is deep enough for them. -/
theorem listsFor_lists (candidates : List Site) :
    conditions.enumeration.Lists (conditions.listsFor candidates)
      ((candidates.map (·.node.height)).foldl max 0) where
  conditions := rfl
  node p c b hc := by
    have hNode : (conditions.listsFor candidates).node p c b = conditions.node p c b :=
      conditions.nodeAt_eq_nodeAt hc (Nat.le_refl _) p b
    rw [hNode, solutions_node]
    rfl
  depth := Nat.le_refl _

/-- Every bound that covers the candidates gives the lists of the enumeration. -/
theorem nodeAt_lists (height : Nat) :
    conditions.enumeration.Lists ⟨conditions, conditions.nodeAt height, height⟩ height where
  conditions := rfl
  node p c b hc := by
    change (conditions.nodeAt height p c b).solutions = conditions.ways p c b
    rw [← solutions_node]
    exact congrArg Search.solutions (conditions.nodeAt_eq_nodeAt hc (Nat.le_refl _) p b)
  depth := Nat.le_refl _

/-- A whole body is found in the order listed. -/
theorem solutions_body (patterns : List Node) (candidates : List Site) (b : Branch) :
    (conditions.body patterns candidates b).solutions =
      conditions.enumeration.scan true patterns candidates b :=
  (conditions.listsFor_lists candidates).scan_eq true
    (fun _ hc => Node.le_foldl_max (.inl (List.mem_map_of_mem hc))) b

end Conditions

end CodeShape
