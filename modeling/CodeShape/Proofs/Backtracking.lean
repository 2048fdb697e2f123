import CodeShape.Proofs.Enumeration

/-!
Backtracking. A search can be told as a sequence of trials: each hands what it found to what comes
next and, if that fails, goes on where it is. Such a trial runs through the list of all ways, in the
order of the list, and stops at the first that is accepted.
-/
namespace CodeShape

/-- An attempt that tells whether it succeeded. The reasons that conditions have given so far are
kept, the oldest first. -/
abbrev Trial := StateM (List String) Bool

namespace Trial

variable {α : Type}

/-- The second trial is made if the first one fails. -/
def orTry (first : Trial) (second : Unit → Trial) : Trial := do
  if ← first then return true else second ()

/-- Trials in turn, up to the first that succeeds. -/
def any (trial : α → Trial) : List α → Trial
  | [] => return false
  | a :: as => (trial a).orTry fun _ => any trial as

/-- Probes in turn, up to the first that succeeds, and then the trial of that element alone. -/
def commit (probe trial : α → Trial) : List α → Trial
  | [] => return false
  | a :: as => do
    if ← probe a then trial a else commit probe trial as

/-- Adds reasons to the log first. -/
def noting (reasons : List String) (trial : Trial) : Trial := do
  modify (· ++ reasons)
  trial

/-- Whether a trial succeeds, and the reasons that are given in it. -/
def result (trial : Trial) : Bool × List String := Id.run (trial.run [])

/-- A trial that hands something on refines a list of alternatives if, whatever comes next, it succeeds
exactly if some alternative is accepted, and it stops at the first one in the order of the list: what
is made of that one is all that happens, but for the reasons given before. -/
structure Refines (trial : (α → Trial) → Trial) (alternatives : List α) : Prop where
  succeeds_iff (accept : α → Bool) :
    (trial fun a => return accept a).result.1 = true ↔ ∃ a ∈ alternatives, accept a = true
  stops (accept : α → Bool) : ∃ reasons, ∀ use : α → StateM (List String) PUnit,
    (trial fun a => if accept a then do use a; return true else return false) =
      noting reasons (match alternatives.find? accept with
        | some a => do use a; return true
        | none => return false)

/-- Trying what always fails, after anything, changes nothing. -/
theorem orTry_false (trial : Trial) : (trial.orTry fun _ => return false) = trial := by
  have hSame : (fun success => if success = true then return true else return false) =
      (pure : Bool → Trial) := by
    funext success
    cases success <;> rfl
  rw [orTry, hSame, bind_pure]

/-- Of three trials in a row it does not matter which two are put together first. -/
theorem orTry_assoc (x : Trial) (y z : Unit → Trial) :
    (x.orTry y).orTry z = x.orTry fun _ => (y ()).orTry z := by
  simp only [orTry, bind_assoc]
  congr 1
  funext success
  cases success <;> simp

/-- Reasons told before a trial are told before anything tried after it. -/
theorem orTry_noting (reasons : List String) (x : Trial) (y : Unit → Trial) :
    (x.noting reasons).orTry y = (x.orTry y).noting reasons := by
  simp only [orTry, noting, bind_assoc]

theorem run_noting (reasons : List String) (x : Trial) (log : List String) :
    (x.noting reasons).run log = x.run (log ++ reasons) := rfl

theorem noting_nil (x : Trial) : x.noting [] = x := by
  funext log
  exact congrArg x (List.append_nil log)

/-- Two rounds of telling are one. -/
theorem noting_append (reasons reasons' : List String) (x : Trial) :
    x.noting (reasons ++ reasons') = (x.noting reasons').noting reasons := by
  funext log
  exact congrArg x (List.append_assoc ..).symm

end Trial

namespace Search

variable {α β : Type}

/-- The trial that passes every solution on until one is accepted, and writes down the reasons that
conditions give on the way. -/
def visit (next : α → Trial) : Search Inquiry α → Trial
  | done => return false
  | found a rest => (next a).orTry fun _ => (rest ()).visit next
  | event q rest => ((rest ()).visit next).noting q.reason?.toList

/-- Visiting a single answer is trying it. -/
theorem visit_one (next : α → Trial) (a : α) : (one a).visit next = next a :=
  Trial.orTry_false (next a)

/-- An alternative is tried where the first search has failed. -/
theorem visit_orElse (next : α → Trial) (s : Search Inquiry α) (t : Unit → Search Inquiry α) :
    (s.orElse t).visit next = (s.visit next).orTry fun _ => (t ()).visit next := by
  induction s with
  | done => simp [orElse, visit, Trial.orTry]
  | found a rest ih => rw [orElse, visit, visit, Trial.orTry_assoc, ih]
  | event q rest ih => rw [orElse, visit, visit, Trial.orTry_noting, ih]

/-- A search after another is visited from within it, so that a failure comes back into the
first. -/
theorem visit_andThen (next : β → Trial) (s : Search Inquiry α) (f : α → Search Inquiry β) :
    (s.andThen f).visit next = s.visit fun a => (f a).visit next := by
  induction s with
  | done => rfl
  | found a rest ih => rw [andThen, visit_orElse, visit, ih]
  | event q rest ih => rw [andThen, visit, visit, ih]

/-- The items are tried one after the other up to the first that succeeds. -/
theorem visit_firstOf (next : β → Trial) (f : α → Search Inquiry β) (items : List α) :
    (firstOf f items).visit next = Trial.any (fun a => (f a).visit next) items := by
  induction items with
  | nil => rfl
  | cons a items ih => rw [firstOf, visit_orElse, ih, Trial.any]

/-- What is asked before a search is told before its trial, the inquiries without a reason left
out. -/
theorem visit_after (next : α → Trial) (asked : List Inquiry) (s : Search Inquiry α) :
    (after asked s).visit next = (s.visit next).noting (asked.filterMap Inquiry.reason?) := by
  induction asked with
  | nil => exact (Trial.noting_nil _).symm
  | cons q asked ih =>
      have hReasons : (q :: asked).filterMap Inquiry.reason? =
          q.reason?.toList ++ asked.filterMap Inquiry.reason? := by
        rw [List.filterMap_cons]
        cases q.reason? <;> rfl
      rw [hReasons, Trial.noting_append, ← ih]
      rfl

/-- A probe is a visit that stops at its first answer. Its reasons are told although the branch it
found is dropped. -/
theorem visit_succeeds (next : Bool → Trial) (s : Search Inquiry α) :
    s.succeeds.visit next = s.visit (fun _ => return true) >>= next := by
  induction s with
  | done => simp [succeeds, visit_one, visit]
  | found a rest ih => simp [succeeds, visit_one, visit, Trial.orTry]
  | event q rest ih =>
      rw [succeeds, visit, visit, ih]
      simp only [Trial.noting, bind_assoc]

/-- Committing runs the first item whose probe succeeds, and comes back to no other. -/
theorem visit_committed {γ : Type} (next : β → Trial) (probe : α → Search Inquiry γ)
    (run : α → Search Inquiry β) (items : List α) :
    (committed probe run items).visit next =
      Trial.commit (fun a => (probe a).visit fun _ => return true)
        (fun a => (run a).visit next) items := by
  induction items with
  | nil => rfl
  | cons a items ih =>
      rw [committed, visit_andThen, visit_succeeds, Trial.commit]
      congr 1
      funext success
      cases success with
      | true => rfl
      | false => exact ih

/-- Visiting a search goes through its solutions up to the first that is accepted. -/
theorem exists_visit_eq (s : Search Inquiry α) (accept : α → Bool) :
    ∃ reasons, ∀ use : α → StateM (List String) PUnit,
      (s.visit fun a => if accept a then do use a; return true else return false) =
        Trial.noting reasons (match s.solutions.find? accept with
          | some a => do use a; return true
          | none => return false) := by
  induction s with
  | done => exact ⟨[], fun use => (Trial.noting_nil _).symm⟩
  | found a rest ih =>
      by_cases hAccept : accept a = true
      · refine ⟨[], fun use => ?_⟩
        simp [visit, solutions, hAccept, Trial.orTry, Trial.noting_nil]
      · obtain ⟨reasons, hRest⟩ := ih ()
        refine ⟨reasons, fun use => ?_⟩
        rw [solutions, List.find?_cons_of_neg hAccept, ← hRest use]
        simp [visit, hAccept, Trial.orTry]
  | event q rest ih =>
      obtain ⟨reasons, hRest⟩ := ih ()
      refine ⟨q.reason?.toList ++ reasons, fun use => ?_⟩
      rw [visit, hRest use, Trial.noting_append]
      rfl

/-- A trial that tells a search refines the list of its solutions. -/
theorem refines_of_visit {s : Search Inquiry α} {trial : (α → Trial) → Trial}
    {alternatives : List α} (hVisit : ∀ next, s.visit next = trial next)
    (hSolutions : s.solutions = alternatives) : Trial.Refines trial alternatives where
  succeeds_iff accept := by
    obtain ⟨reasons, hStops⟩ := s.exists_visit_eq accept
    let idle (_ : α) : StateM (List String) PUnit := pure ⟨⟩
    have hPure : (fun a => return accept a : α → Trial) =
        fun a => if accept a then do idle a; return true else return false := by
      funext a
      cases accept a <;> rfl
    rw [← hVisit, hPure, hStops idle, hSolutions, ← List.find?_isSome]
    cases alternatives.find? accept <;> simp [Trial.result, Trial.run_noting, idle]
  stops accept := by
    obtain ⟨reasons, hStops⟩ := s.exists_visit_eq accept
    refine ⟨reasons, fun use => ?_⟩
    rw [← hVisit, hStops use, hSolutions]

/-- Taking the first solution, with the reasons given before it. -/
theorem run_visit (s : Search Inquiry α) (log : List String) :
    (s.visit fun _ => return true).run log =
      (s.first.1.isSome, log ++ s.first.2.filterMap Inquiry.reason?) := by
  induction s generalizing log with
  | done => exact Prod.ext rfl (List.append_nil log).symm
  | found a rest ih => exact Prod.ext rfl (List.append_nil log).symm
  | event q rest ih =>
      rw [visit, Trial.run_noting, ih, first, List.filterMap_cons]
      cases q.reason? <;> simp

end Search

/-- The last condition that is asked decides, so its reason is the only one of a check. -/
theorem Constraint.reasons_check (value? : String → Option Capture) (name : String)
    (constraints : List Constraint) :
    (Constraint.check value? name constraints).1.filterMap Inquiry.reason? =
      match (Constraint.check value? name constraints).2 with
      | .failure message => [message]
      | _ => [] := by
  induction constraints with
  | nil => rfl
  | cons c rest ih =>
      rw [check]
      split
      · exact ih
      · cases c.evaluate? value? with
        | none => exact ih
        | some q =>
            obtain ⟨values, verdict⟩ := q
            cases verdict with
            | pass => exact ih
            | fail => rfl
            | failure message => rfl

/-- A trial of a node at a place, with what is to be done after it. -/
abbrev NodeTrial := Node → Site → Branch → (Branch → Trial) → Trial

namespace Conditions

variable (conditions : Conditions)

/-- The trial that binds a wildcard. If a check refuses the binding with a reason, the reason is
written down. -/
def tryBind (w : Wildcard) (value : Binding) (b : Branch) (next : Branch → Trial) : Trial :=
  match w.name with
  | none => next { b with anonymous := b.anonymous ++ [value] }
  | some name =>
    match b.find? name with
    | some old => if conditions.agree old value then next b else return false
    | none =>
      let b := { b with named := b.named ++ [(name, value)] }
      let (_, verdict) :=
        Constraint.check (fun v => (b.find? v).map Binding.capture) name conditions.constraints
      match verdict with
      | .pass => next b
      | .fail => return false
      | .failure message => do
        modify (· ++ [message])
        return false

/-- Binding a wildcard is tried as the constraints say, their reasons told in the order they are
asked. -/
theorem visit_bind (w : Wildcard) (value : Binding) (b : Branch) (next : Branch → Trial) :
    (conditions.bind w value b).visit next = conditions.tryBind w value b next := by
  unfold bind tryBind
  cases w.name with
  | none => exact Search.visit_one next _
  | some name =>
      simp only
      cases b.find? name with
      | some old =>
          simp only
          split
          · exact Search.visit_one next b
          · rfl
      | none =>
          have hReasons := Constraint.reasons_check
            (fun v => (Branch.find? { b with named := b.named ++ [(name, value)] } v).map
              Binding.capture) name conditions.constraints
          simp only [Search.visit_after, hReasons]
          generalize (Constraint.check _ name conditions.constraints).2 = verdict
          cases verdict with
          | pass => exact (Trial.noting_nil _).trans (Search.visit_one next _)
          | fail => exact Trial.noting_nil _
          | failure message => rfl

end Conditions

/-- Trials of lists by trials of nodes. They try what a way of matching lists finds, but hand every
find to what comes next at once. -/
structure ListTrial where
  conditions : Conditions
  node : NodeTrial
  depth : Nat

namespace ListTrial

variable (t : ListTrial)

def fixed : List Node → List Site → Branch → (Branch → Trial) → Trial
  | [], _, b, next => next b
  | p :: ps, cs, b, next =>
    match p.glob? with
    | some w =>
      if ps.isEmpty then t.conditions.tryBind w (.many cs) b next
      else
        Trial.any (fun j => t.conditions.tryBind w (.many (cs.take j)) b fun b =>
          fixed ps (cs.drop j) b next) (List.range (cs.length + 1))
    | none =>
      match cs with
      | [] => return false
      | c :: cs => t.node p c b fun b => fixed ps cs b next

def atSpot (dive : Bool) (p : Node) (ps : List Node) (spot : Spot) (b : Branch)
    (next : Taken → Trial) : Trial :=
  let b := b.anchor (some spot.site)
  (t.node p spot.site b fun b => next ⟨0, 0, b⟩).orTry fun _ =>
    if !dive || !t.conditions.splitsDeclarations then return false
    else
      let split : Trial := match p.splitDeclaration?, spot.following with
        | some (declared, assigned), after :: _ =>
          t.node declared spot.site b fun b => t.node assigned after b fun b => next ⟨0, 1, b⟩
        | _, _ => return false
      split.orTry fun _ =>
        match ps.head?.bind p.mergeDeclaration? with
        | some merged => t.node merged spot.site b fun b => next ⟨1, 0, b⟩
        | none => return false

def scan (dive : Bool) (patterns : List Node) (candidates : List Site) (b : Branch)
    (next : Branch → Trial) : Trial :=
  match patterns with
  | [] => next b
  | p :: ps =>
    match p.glob?, ps with
    | none, ps =>
      let spots := Spot.within (if dive then t.depth else 0) candidates
      let trial (spot : Spot) : Trial := t.atSpot dive p ps spot b fun taken =>
        scan dive (ps.drop taken.patterns) (spot.following.drop taken.candidates) taken.branch next
      if t.conditions.orderMatters then
        -- the probe of a spot accepts whatever it finds there first
        Trial.commit (fun spot => t.atSpot dive p ps spot b fun _ => return true) trial spots
      else Trial.any trial spots
    | some w, [] => t.conditions.tryBind w (.many candidates) (b.anchor candidates.head?) next
    | some w, q :: qs =>
      Trial.any (fun (spot, j) =>
        let b := if j = 0 then b else b.anchor candidates.head?
        t.conditions.tryBind w (.many (candidates.take j)) b fun b =>
          t.atSpot dive q qs spot b fun taken =>
            scan dive (qs.drop taken.patterns) (spot.following.drop taken.candidates) taken.branch
              next)
        (Spot.ofList candidates).zipIdx
termination_by patterns.length
decreasing_by all_goals grind

def perform : Duty → Branch → (Branch → Trial) → Trial
  | .exact p c, b, next => t.node p c b next
  | .below p c, b, next =>
    (t.node p c b next).orTry fun _ =>
      if ListMatcher.seeksBelow p then Trial.any (fun d => t.node p d b next) c.descendants.tail
      else return false
  | .list .fixed ps cs, b, next => t.fixed ps cs b next
  | .list .ordered ps cs, b, next => t.scan false ps cs b next
  | .list .statements ps cs, b, next => t.scan true ps cs b next

def performAll : List Duty → Branch → (Branch → Trial) → Trial
  | [], b, next => next b
  | duty :: duties, b, next => t.perform duty b fun b => performAll duties b next

def sameForm (pattern : Node) (candidate : Site) (b : Branch) (next : Branch → Trial) : Trial :=
  if pattern.sameShape candidate.node then
    match Duty.ofNodes? pattern candidate with
    | some duties => t.performAll duties b next
    | none => return false
  else return false

end ListTrial

namespace Conditions

variable (conditions : Conditions)

def tryNodeAt : (height : Nat) → NodeTrial
  | 0, _, _, _, _ => return false
  | height + 1, p, c, b, next =>
    match p with
    | .wildcard w => conditions.tryBind w (w.valueAt c) b next
    | .hole => next b
    | _ =>
      Trial.any (fun form => ListTrial.sameForm ⟨conditions, tryNodeAt height, height⟩ form c b next)
        (conditions.forms p c.node)

/-- The trial of a node at a place. -/
def tryNode : NodeTrial := fun p c b next => conditions.tryNodeAt c.node.height p c b next

/-- The trial of statements in a list of statements. -/
def tryBody (patterns : List Node) (candidates : List Site) (b : Branch) (next : Branch → Trial) :
    Trial :=
  let height := (candidates.map (·.node.height)).foldl max 0
  ListTrial.scan ⟨conditions, conditions.tryNodeAt height, height⟩ true patterns candidates b next

end Conditions

/-- The trials try what a way of matching lists finds, in the same order. -/
structure ListTrial.Tells (t : ListTrial) (m : ListMatcher) : Prop where
  conditions : t.conditions = m.conditions
  node (p : Node) (c : Site) (b : Branch) (next : Branch → Trial) :
    (m.node p c b).visit next = t.node p c b next
  depth : t.depth = m.depth

namespace ListTrial.Tells

variable {t : ListTrial} {m : ListMatcher} (h : t.Tells m)

include h

/-- A list matcher that is told binds as the trial does. -/
theorem visit_bind (w : Wildcard) (value : Binding) (b : Branch) (next : Branch → Trial) :
    (m.conditions.bind w value b).visit next = t.conditions.tryBind w value b next := by
  rw [m.conditions.visit_bind, h.conditions]

/-- A fixed list is visited as the trial of it goes. -/
theorem visit_fixed (ps : List Node) (cs : List Site) (b : Branch) (next : Branch → Trial) :
    (m.fixed ps cs b).visit next = t.fixed ps cs b next := by
  induction ps generalizing cs b with
  | nil => exact Search.visit_one next b
  | cons p ps ih =>
      rw [ListMatcher.fixed.eq_def, fixed.eq_def]
      simp only
      cases p.glob? with
      | some w =>
          simp only
          split
          · exact h.visit_bind w _ b next
          · simp only [Search.visit_firstOf, Search.visit_andThen, ih, h.visit_bind]
      | none =>
          cases cs with
          | nil => rfl
          | cons c cs => simp only [Search.visit_andThen, ih, h.node]

/-- One spot is visited as the trial of it goes. -/
theorem visit_atSpot (dive : Bool) (p : Node) (ps : List Node) (spot : Spot) (b : Branch)
    (next : Taken → Trial) :
    (m.atSpot dive p ps spot b).visit next = t.atSpot dive p ps spot b next := by
  have hSplit : ∀ b, (m.splitAt p spot b).visit next =
      match p.splitDeclaration?, spot.following with
      | some (declared, assigned), after :: _ =>
        t.node declared spot.site b fun b => t.node assigned after b fun b => next ⟨0, 1, b⟩
      | _, _ => return false := by
    intro b
    rw [ListMatcher.splitAt]
    cases p.splitDeclaration? with
    | none => rfl
    | some halves =>
        cases spot.following with
        | nil => rfl
        | cons => simp only [Search.visit_andThen, Search.visit_one, h.node]
  have hMerged : ∀ b, (m.mergedAt p ps spot b).visit next =
      match ps.head?.bind p.mergeDeclaration? with
      | some merged => t.node merged spot.site b fun b => next ⟨1, 0, b⟩
      | none => return false := by
    intro b
    rw [ListMatcher.mergedAt]
    cases ps.head?.bind p.mergeDeclaration? with
    | none => rfl
    | some merged => simp only [Search.visit_andThen, Search.visit_one, h.node]
  rw [m.atSpot_unfold, Search.visit_orElse, Search.visit_andThen, h.node, atSpot, h.conditions]
  simp only [Search.visit_one]
  congr 1
  funext _
  split
  · rfl
  · rw [Search.visit_orElse, hSplit, hMerged]

/-- A scan is visited as the trial of it goes, probes included. -/
theorem visit_scan (dive : Bool) (ps : List Node) (cs : List Site) (b : Branch)
    (next : Branch → Trial) : (m.scan dive ps cs b).visit next = t.scan dive ps cs b next := by
  induction hLength : ps.length using Nat.strongRecOn generalizing ps cs b with
  | ind n ih =>
      -- what is tried at a spot goes on with the rest of the scan, which is shorter
      have hFrom : ∀ p ps spot b, ps.length < n → (m.scanFrom dive p ps b spot).visit next =
          t.atSpot dive p ps spot b fun taken => t.scan dive (ps.drop taken.patterns)
            (spot.following.drop taken.candidates) taken.branch next := by
        intro p ps spot b hShort
        rw [ListMatcher.scanFrom, Search.visit_andThen, h.visit_atSpot]
        congr 1
        funext taken
        exact ih _ (Nat.lt_of_le_of_lt (by simp) hShort) _ _ _ rfl
      cases ps with
      | nil =>
          rw [m.scan_nil, scan]
          exact Search.visit_one next b
      | cons p ps =>
          have hShort : ps.length < n := by rw [← hLength]; exact Nat.lt_succ_self _
          rw [scan.eq_def]
          cases hGlob : p.glob? with
          | none =>
              simp only [m.scan_cons dive hGlob, hGlob, h.depth, h.conditions]
              split
              · simp only [Search.visit_committed, h.visit_atSpot, hFrom p ps _ _ hShort]
              · simp only [Search.visit_firstOf, hFrom p ps _ _ hShort]
          | some w =>
              cases ps with
              | nil =>
                  simp only [m.scan_glob_last dive hGlob, hGlob]
                  exact h.visit_bind w _ _ next
              | cons q qs =>
                  simp only [m.scan_glob dive hGlob, hGlob, Search.visit_firstOf,
                    Search.visit_andThen, h.visit_bind, hFrom q qs _ _ (Nat.lt_of_succ_lt hShort)]

/-- One duty is visited as the trial of it goes. -/
theorem visit_perform (duty : Duty) (b : Branch) (next : Branch → Trial) :
    (m.perform duty b).visit next = t.perform duty b next := by
  cases duty with
  | exact p c => exact h.node p c b next
  | below p c =>
      rw [ListMatcher.perform, perform, Search.visit_orElse, h.node]
      congr 1
      funext _
      split
      · simp only [Search.visit_firstOf, h.node]
      · rfl
  | list pairing ps cs =>
      cases pairing with
      | fixed => exact h.visit_fixed ps cs b next
      | ordered => exact h.visit_scan false ps cs b next
      | statements => exact h.visit_scan true ps cs b next

/-- A row of duties is visited as the trial of it goes. -/
theorem visit_performAll (duties : List Duty) (b : Branch) (next : Branch → Trial) :
    (m.performAll duties b).visit next = t.performAll duties b next := by
  induction duties generalizing b with
  | nil => exact Search.visit_one next b
  | cons duty duties ih =>
      simp only [ListMatcher.performAll, performAll, Search.visit_andThen, h.visit_perform, ih]

/-- A form is visited as the trial of it goes. -/
theorem visit_sameForm (p : Node) (c : Site) (b : Branch) (next : Branch → Trial) :
    (m.sameForm p c b).visit next = t.sameForm p c b next := by
  rw [ListMatcher.sameForm, sameForm]
  split
  · cases Duty.ofNodes? p c with
    | none => rfl
    | some duties => exact h.visit_performAll duties b next
  · rfl

end ListTrial.Tells

namespace Conditions

variable (conditions : Conditions)

/-- Every layer of the matcher is visited as the trial at that height goes. The induction is on the
height. -/
theorem visit_nodeAt (height : Nat) (p : Node) (c : Site) (b : Branch) (next : Branch → Trial) :
    (conditions.nodeAt height p c b).visit next = conditions.tryNodeAt height p c b next := by
  induction height generalizing p c b next with
  | zero => rfl
  | succ height ih =>
      have hLists : ListTrial.Tells ⟨conditions, conditions.tryNodeAt height, height⟩
          ⟨conditions, conditions.nodeAt height, height⟩ := ⟨rfl, ih, rfl⟩
      cases hConcrete : p.isConcrete with
      | true =>
          have hTrial : conditions.tryNodeAt (height + 1) p c b next =
              Trial.any (fun form => ListTrial.sameForm
                ⟨conditions, conditions.tryNodeAt height, height⟩ form c b next)
                (conditions.forms p c.node) := by
            cases p <;> first | rfl | cases hConcrete
          rw [conditions.nodeAt_concrete height hConcrete, hTrial, Search.visit_firstOf]
          simp only [hLists.visit_sameForm]
      | false =>
          cases p with
          | hole => exact Search.visit_one next b
          | wildcard w =>
              rw [conditions.nodeAt_wildcard]
              exact conditions.visit_bind w _ b next
          | _ => cases hConcrete

/-- A whole body is visited as the trial of it goes. -/
theorem visit_body (ps : List Node) (cs : List Site) (b : Branch) (next : Branch → Trial) :
    (conditions.body ps cs b).visit next = conditions.tryBody ps cs b next :=
  ListTrial.Tells.visit_scan ⟨rfl, conditions.visit_nodeAt _, rfl⟩ true ps cs b next

/-- The trials of lists of nodes, with statement lists searched as deep as the candidates go. -/
def trialsFor (candidates : List Site) : ListTrial :=
  ⟨conditions, conditions.tryNode, (candidates.map (·.node.height)).foldl max 0⟩

/-- The matcher's own list search is told by the trials, at every depth. -/
theorem lists_told (depth : Nat) :
    ListTrial.Tells ⟨conditions, conditions.tryNode, depth⟩ (conditions.lists depth) :=
  ⟨rfl, fun p c b next => conditions.visit_nodeAt c.node.height p c b next, rfl⟩

/-- The search is sound, complete and ordered. Whatever follows a match and may turn it down, the trial
of a node, of a list with clutter and of a list element by element goes through the plain list of ways
and stops at the first member that is accepted. The lists obey their own equations at every height.
What is looked for first is the head of the list, and the search that computes it can be told as the
trial. -/
theorem search_refines_ways (conditions : Conditions) (b : Branch) :
    (∀ p c, conditions.ways p c b = conditions.enumeration.step p c b) ∧
    (∀ p c, Trial.Refines (conditions.tryNode p c b) (conditions.ways p c b)) ∧
    (∀ dive ps cs, Trial.Refines ((conditions.trialsFor cs).scan dive ps cs b)
      (conditions.enumeration.scan dive ps cs b)) ∧
    (∀ ps cs, Trial.Refines ((conditions.trialsFor cs).fixed ps cs b)
      (conditions.enumeration.fixed ps cs b)) ∧
    (∀ p c next, (conditions.node p c b).visit next = conditions.tryNode p c b next) ∧
    (∀ p c, (conditions.node p c b).first.1 = (conditions.ways p c b).head?) ∧
    (∀ ps cs, (conditions.body ps cs b).first.1 =
      (conditions.enumeration.scan true ps cs b).head?) := by
  have hCovered : ∀ cs : List Site, ∀ c ∈ cs,
      c.node.height ≤ (cs.map (·.node.height)).foldl max 0 :=
    fun cs c hc => Node.le_foldl_max (.inl (List.mem_map_of_mem hc))
  -- a node is searched at its own height, so no bound on it is left
  have hNode : ∀ p c next, (conditions.node p c b).visit next = conditions.tryNode p c b next :=
    fun p c next => conditions.visit_nodeAt c.node.height p c b next
  refine ⟨fun p c => conditions.ways_eq_step p c b, fun p c => ?_, fun dive ps cs => ?_,
    fun ps cs => ?_, hNode, fun p c => ?_, fun ps cs => ?_⟩
  · exact Search.refines_of_visit (hNode p c) (conditions.solutions_node p c b)
  · exact Search.refines_of_visit ((conditions.lists_told _).visit_scan dive ps cs b)
      ((conditions.enumeration_lists _).scan_eq dive (hCovered cs) b)
  · exact Search.refines_of_visit ((conditions.lists_told _).visit_fixed ps cs b)
      ((conditions.enumeration_lists _).fixed_eq (hCovered cs) b)
  · rw [Search.first_fst, solutions_node]
  · rw [Search.first_fst, solutions_body]

end Conditions

end CodeShape
