import CodeShape.Proofs.Backtracking
import CodeShape.Proofs.Commitment
import CodeShape.Proofs.Lockstep

/-!
The reasons that conditions give. The reasons of refused bindings are written to a log that outlives
all trials of a search, those of probes included. The log ends with the reason that a failed search
reports, and what is found does not depend on it.
-/
namespace CodeShape

namespace Conditions

variable (conditions : Conditions)

/-- The trial of a pattern in a program. It ends with the first way to find the pattern. -/
def tryCode (pattern : Node) (program : Site) : Trial :=
  match pattern with
  | .program ps =>
    let body := match program.node with
      | .program _ | .block _ => program.children
      | _ => [program]
    conditions.tryBody ps body .start fun _ => return true
  | p =>
    Trial.any (fun s => conditions.tryNode p s (.rootedAt s) fun _ => return true)
      program.descendants

/-- Looking for a pattern is a trial of it. -/
theorem visit_searchCode (pattern : Node) (program : Site) :
    ((conditions.searchCode pattern program).visit fun _ => return true) =
      conditions.tryCode pattern program := by
  by_cases hProgram : pattern.label = .program
  · cases pattern <;> cases hProgram
    exact conditions.visit_body _ _ _ _
  · have hTrial : conditions.tryCode pattern program =
        Trial.any (fun s => conditions.tryNode pattern s (.rootedAt s) fun _ => return true)
          program.descendants := by
      cases pattern <;> first | rfl | exact absurd rfl hProgram
    rw [conditions.searchCode_of_other hProgram, hTrial, Search.visit_firstOf]
    congr 1
    funext s
    exact conditions.visit_nodeAt _ pattern s _ _

end Conditions

/-- Every tree corresponds to itself alone. -/
theorem Node.congruence_eq : Node.Congruence Eq where
  label h := h ▸ BEq.refl _
  fields h := h ▸ List.forall₂_same.2 fun field _ => .refl (fun _ => rfl) field
  equivalent rules h h' := by rw [h, h']
  alternatives rules h h' := by
    rw [h, h']
    exact List.forall₂_same.2 fun _ _ => rfl
  splitDeclaration {p p'} h := by
    subst h
    cases p.splitDeclaration? with
    | none => exact .none
    | some halves => exact .some ⟨rfl, rfl⟩
  mergeDeclaration {p p' q q'} h h' := by
    subst h h'
    cases p.mergeDeclaration? q with
    | none => exact .none
    | some merged => exact .some rfl

theorem Site.Twin.eq {s t : Site} (h : Site.Twin Eq s t) : s = t := by
  cases s
  cases t
  cases h.path
  cases h.node
  rfl

theorem Branch.Twin.eq {b b' : Branch} (h : Branch.Twin Eq b b') : b = b' := by
  have hSites : ∀ {ss ts : List Site}, List.Forall₂ (Site.Twin Eq) ss ts → ss = ts := by
    intro ss ts hss
    rw [← List.forall₂_eq_eq_eq]
    exact hss.imp fun _ _ hSite => hSite.eq
  have hValue : ∀ {v v' : Binding}, Binding.Twin Eq v v' → v = v' := by
    intro v v' hv
    cases hv with
    | one hSite => rw [hSite.eq]
    | many hss => rw [hSites hss]
  obtain ⟨anonymous, named, root⟩ := b
  obtain ⟨anonymous', named', root'⟩ := b'
  have hAnonymous : anonymous = anonymous' := by
    rw [← List.forall₂_eq_eq_eq]
    exact h.anonymous.imp fun _ _ hv => hValue hv
  have hNamed : named = named' := by
    rw [← List.forall₂_eq_eq_eq]
    exact h.named.imp fun _ _ hPair => Prod.ext hPair.1 (hValue hPair.2)
  have hRoot : root = root' := by
    cases h.root with
    | none => rfl
    | some hSite => rw [hSite.eq]
  rw [hAnonymous, hNamed, hRoot]

/-- Whether a pattern is accepted depends on the variables of the conditions only. -/
theorem Pattern.compile_eq_of_vars (pattern : PatternSource)
    {constraints constraints' : List Constraint}
    (h : constraints.flatMap Constraint.vars = constraints'.flatMap Constraint.vars) :
    Pattern.compile pattern constraints = Pattern.compile pattern constraints' := by
  simp only [compile, validate, h]

/-- The conditions read the same variables and let the same values pass. They may reject with
different reasons, or without. -/
def Constraint.Concurs (c c' : Constraint) : Prop :=
  c.vars = c'.vars ∧ ∀ values, c.test values = .pass ↔ c'.test values = .pass

namespace Conditions

variable {conditions conditions' : Conditions}

theorem twin_of_concurs
    (hConstraints : List.Forall₂ Constraint.Concurs conditions.constraints conditions'.constraints)
    (hRules : conditions.rules = conditions'.rules)
    (hOrder : conditions.orderMatters = conditions'.orderMatters) :
    Conditions.Twin Eq (fun v v' => v = .pass ↔ v' = .pass) conditions conditions' where
  constraints := by
    have hValues : ∀ {vs vs' : List Capture}, List.Forall₂ (Capture.Twin Eq) vs vs' → vs = vs' := by
      intro vs vs' h
      rw [← List.forall₂_eq_eq_eq]
      refine h.imp fun _ _ hv => ?_
      cases hv with
      | one h => rw [h]
      | many h =>
          rw [List.forall₂_eq_eq_eq] at h
          rw [h]
    exact hConstraints.imp fun _ _ hConcurs =>
      ⟨hConcurs.1, fun vs vs' h => hValues h ▸ hConcurs.2 vs⟩
  rules := hRules
  orderMatters := hOrder
  pass _ _ h := h

/-- A pattern that is not found has been tried in vain, and the last reason that was written down is
the one reported. -/
theorem exists_trial_of_failed {source : Source} {pattern : PatternSource}
    {diagnostic : Option String} {asked : List Inquiry}
    (h : conditions.matchCode source pattern = .ok (.failed diagnostic, asked)) :
    ∃ program compiled reasons, source.tree? = .ok program ∧
      Pattern.compile pattern conditions.constraints = .ok compiled ∧
      (conditions.tryCode compiled.root (.root program)).result = (false, reasons) ∧
      diagnostic = reasons.getLast? := by
  cases hTree : source.tree? with
  | error e =>
      rw [matchCode, hTree] at h
      cases h
  | ok program =>
      cases hCompiled : Pattern.compile pattern conditions.constraints with
      | error e =>
          rw [matchCode, hTree, hCompiled] at h
          cases h
      | ok compiled =>
          rw [matchCode_eq hTree hCompiled] at h
          have hRun := (conditions.searchCode compiled.root (.root program)).run_visit []
          rw [conditions.visit_searchCode, List.nil_append] at hRun
          have hOutcome := Except.ok.inj h
          unfold Outcome.ofSearch at hOutcome
          rcases hFirst : (conditions.searchCode compiled.root (.root program)).first with
            ⟨found, events⟩
          rw [hFirst] at hRun hOutcome
          cases found with
          | some b => cases congrArg Prod.fst hOutcome
          | none =>
              have hReason := Outcome.failed.inj (congrArg Prod.fst hOutcome)
              exact ⟨program, compiled, _, rfl, rfl, hRun, hReason.symm⟩

/-- Conditions that let the same pass find the same, whatever reasons they give. -/
theorem matchCode_of_concurs
    (hConstraints : List.Forall₂ Constraint.Concurs conditions.constraints conditions'.constraints)
    (hRules : conditions.rules = conditions'.rules)
    (hOrder : conditions.orderMatters = conditions'.orderMatters) (source : Source)
    (pattern : PatternSource) :
    Outcome.Alike (fun _ _ => True) Eq (conditions.matchCode source pattern)
      (conditions'.matchCode source pattern) := by
  have hVars : conditions.constraints.flatMap Constraint.vars =
      conditions'.constraints.flatMap Constraint.vars := by
    rw [← List.forall₂_eq_eq_eq]
    refine forall₂_flatMap hConstraints fun c c' hConcurs => ?_
    rw [List.forall₂_eq_eq_eq]
    exact hConcurs.1
  have hCompile := Pattern.compile_eq_of_vars pattern hVars
  cases hTree : source.tree? with
  | error e =>
      rw [matchCode, matchCode, hTree]
      exact .error e
  | ok program =>
      cases hCompiled : Pattern.compile pattern conditions.constraints with
      | error e =>
          rw [matchCode, matchCode, hTree, ← hCompile, hCompiled]
          exact .error e
      | ok compiled =>
          rw [matchCode_eq hTree hCompiled, matchCode_eq hTree (hCompile.symm.trans hCompiled)]
          have hTwin := twin_of_concurs hConstraints hRules hOrder
          obtain ⟨hFound, -⟩ := (hTwin.searchCode Node.congruence_eq (p := compiled.root) rfl
            (.root (a := program) rfl)).first
          simp only [Outcome.ofSearch]
          generalize (conditions.searchCode compiled.root (.root program)).first.1 = found at hFound
          generalize (conditions'.searchCode compiled.root (.root program)).first.1 = found' at hFound
          cases hFound with
          | none => exact .failed trivial
          | some hBranch => exact .matched (by rw [hBranch.eq])

/-- Reasons are advice. Conditions that let the same pass find the same, whatever reasons they give.
If nothing is found, the search was a trial that failed, and the reason reported is the last one that
a check gave in the whole trial, its probes included; there is none only if no check gave any. -/
theorem reasons_are_advice
    (hConstraints : List.Forall₂ Constraint.Concurs conditions.constraints conditions'.constraints)
    (hRules : conditions.rules = conditions'.rules)
    (hOrder : conditions.orderMatters = conditions'.orderMatters) (source : Source)
    (pattern : PatternSource) :
    Outcome.Alike (fun _ _ => True) Eq (conditions.matchCode source pattern)
      (conditions'.matchCode source pattern) ∧
    ∀ diagnostic asked, conditions.matchCode source pattern = .ok (.failed diagnostic, asked) →
      ∃ program compiled reasons, source.tree? = .ok program ∧
        Pattern.compile pattern conditions.constraints = .ok compiled ∧
        (conditions.tryCode compiled.root (.root program)).result = (false, reasons) ∧
        diagnostic = reasons.getLast? ∧ (diagnostic = none ↔ reasons = []) := by
  refine ⟨matchCode_of_concurs hConstraints hRules hOrder source pattern, ?_⟩
  intro diagnostic asked hFailed
  obtain ⟨program, compiled, reasons, hTree, hCompiled, hRun, hLast⟩ :=
    exists_trial_of_failed hFailed
  refine ⟨program, compiled, reasons, hTree, hCompiled, hRun, hLast, ?_⟩
  rw [hLast, List.getLast?_eq_none_iff]

/-- The pattern `f($a); g($a);` in `f(1); f(2); g(3);`, each statement at the first place where it
fits. The condition on `$a` refuses both calls of `f`, each with its own reason; another one refuses
them without. -/
theorem reasons_are_advice_calls :
    let invoke (f : String) (argument : Node) : Node := .expr (.call (.ident f) [argument])
    let a : Node := .wildcard ⟨some "a", .scalar⟩
    let pattern : Node := .program [invoke "f" a, invoke "g" a]
    let source : Node := .program [invoke "f" (.int 1), invoke "f" (.int 2), invoke "g" (.int 3)]
    let talking : Constraint := ⟨["a"], fun values =>
      if values == [.one (.int 3)] then .pass
      else if values == [.one (.int 1)] then .failure "one" else .failure "other"⟩
    let silent : Constraint :=
      ⟨["a"], fun values => if values == [.one (.int 3)] then .pass else .fail⟩
    let conditions : Conditions := ⟨[talking], some .all, true⟩
    let conditions' : Conditions := ⟨[silent], some .all, true⟩
    (∃ diagnostic asked,
      conditions.matchCode (.tree source) (.tree pattern) = .ok (.failed diagnostic, asked) ∧
      (conditions.tryCode pattern (.root source)).result = (false, ["one", "other"]) ∧
      diagnostic = some "other") ∧
    ∃ diagnostic asked,
      conditions'.matchCode (.tree source) (.tree pattern) = .ok (.failed diagnostic, asked) := by
  intro invoke a pattern source talking silent conditions conditions'
  have hConstraints :
      List.Forall₂ Constraint.Concurs conditions.constraints conditions'.constraints := by
    refine .cons ⟨rfl, fun values => ?_⟩ .nil
    simp only [talking, silent]
    split
    · exact Iff.rfl
    · split <;> simp
  obtain ⟨hSame, hReason⟩ :=
    reasons_are_advice hConstraints rfl rfl (.tree source) (.tree pattern)
  obtain ⟨diagnostic, asked, hFailed⟩ : ∃ diagnostic asked,
      conditions.matchCode (.tree source) (.tree pattern) = .ok (.failed diagnostic, asked) :=
    Outcome.exists_failed_of_verdict (by decide +kernel)
  obtain ⟨program, compiled, reasons, hTree, hCompiled, hRun, hLast, -⟩ :=
    hReason diagnostic asked hFailed
  have hTrial : (conditions.tryCode pattern (.root source)).result = (false, ["one", "other"]) := by
    decide +kernel
  cases hTree
  rw [Pattern.root_of_compile hCompiled, hTrial] at hRun
  cases hRun
  rw [hFailed] at hSame
  refine ⟨⟨diagnostic, asked, hFailed, hTrial, hLast⟩, ?_⟩
  generalize conditions'.matchCode (.tree source) (.tree pattern) = other at hSame
  cases hSame with
  | failed => exact ⟨_, _, rfl⟩

end Conditions

end CodeShape
