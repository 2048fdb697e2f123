import CodeShape.Proofs.Completeness
import CodeShape.Proofs.Names

/-! What a way through a search comes past. A derivation only says which bindings it ends with; a
record of it also holds the places that a name was compared with again, and the statements that the
elements of the pattern's statement lists were matched with. Records are kept of searches in which
no declaration is split, so every element has its own statement. -/
namespace CodeShape

/-- A record of a way through a search. -/
structure Log where
  /-- Every wildcard that was met, with what it met there, in the order of the search. A name that
  is met again has another entry. -/
  captures : List (Wildcard × Binding)
  /-- The elements of the list that is being scanned, each with the members it was matched with. -/
  elements : List (Node × List Site)
  /-- The same of every statement list in the pattern that has been matched. -/
  bodies : List (List (Node × List Site))

namespace Log

def nothing : Log := ⟨[], [], []⟩

def met (w : Wildcard) (value : Binding) : Log := ⟨[(w, value)], [], []⟩

def element (p : Node) (sites : List Site) : Log := ⟨[], [(p, sites)], []⟩

/-- One record after the other. -/
instance : Append Log :=
  ⟨fun log log' =>
    ⟨log.captures ++ log'.captures, log.elements ++ log'.elements, log.bodies ++ log'.bodies⟩⟩

/-- The record at the end of a list that is not one of statements. -/
def passed (log : Log) : Log := { log with elements := [] }

/-- The record at the end of a statement list. -/
def closed (log : Log) : Log := ⟨log.captures, [], log.elements :: log.bodies⟩

/-- The captures of two records in a row are those of each. -/
@[simp]
theorem captures_append (log log' : Log) : (log ++ log').captures = log.captures ++ log'.captures :=
  rfl

@[simp]
theorem elements_append (log log' : Log) : (log ++ log').elements = log.elements ++ log'.elements :=
  rfl

@[simp]
theorem bodies_append (log log' : Log) : (log ++ log').bodies = log.bodies ++ log'.bodies := rfl

end Log

/-- A task can be done with these bindings before and after it, and this is the record of it. -/
inductive Conditions.Records (conditions : Conditions) : Task → Branch → Branch → Log → Prop where
  | wildcard {w : Wildcard} {c : Site} {b b' : Branch}
      (hBind : conditions.Binds w (w.valueAt c) b b') :
      Records conditions (.node (.wildcard w) c) b b' (.met w (w.valueAt c))
  | hole {c : Site} {b : Branch} : Records conditions (.node .hole c) b b .nothing
  | form {p form : Node} {c : Site} {duties : List Duty} {b b' : Branch} {log : Log}
      (hp : p.isConcrete) (hForm : form ∈ conditions.forms p c.node)
      (hShape : form.sameShape c.node) (hDuties : Duty.ofNodes? form c = some duties)
      (done : Records conditions (.duties duties) b b' log) :
      Records conditions (.node p c) b b' log
  | noDuties {b : Branch} : Records conditions (.duties []) b b .nothing
  | consDuties {duty : Duty} {duties : List Duty} {b b' b'' : Branch} {log log' : Log}
      (first : Records conditions (.duty duty) b b' log)
      (rest : Records conditions (.duties duties) b' b'' log') :
      Records conditions (.duties (duty :: duties)) b b'' (log ++ log')
  | exact {p : Node} {c : Site} {b b' : Branch} {log : Log}
      (done : Records conditions (.node p c) b b' log) :
      Records conditions (.duty (.exact p c)) b b' log
  | within {p : Node} {c d : Site} {b b' : Branch} {log : Log} (hd : d ∈ c.descendants)
      (hSeek : d = c ∨ ListMatcher.seeksBelow p) (done : Records conditions (.node p d) b b' log) :
      Records conditions (.duty (.below p c)) b b' log
  | fixed {ps : List Node} {cs : List Site} {b b' : Branch} {log : Log}
      (done : Records conditions (.fixed ps cs) b b' log) :
      Records conditions (.duty (.list .fixed ps cs)) b b' log
  | ordered {ps : List Node} {cs : List Site} {b b' : Branch} {log : Log}
      (done : Records conditions (.scan false ps cs) b b' log) :
      Records conditions (.duty (.list .ordered ps cs)) b b' log.passed
  | statements {ps : List Node} {cs : List Site} {b b' : Branch} {log : Log}
      (done : Records conditions (.scan true ps cs) b b' log) :
      Records conditions (.duty (.list .statements ps cs)) b b' log.closed
  | fixedNil {cs : List Site} {b : Branch} : Records conditions (.fixed [] cs) b b .nothing
  | fixedLast {p : Node} {w : Wildcard} {cs : List Site} {b b' : Branch}
      (hGlob : p.glob? = some w) (hBind : conditions.Binds w (.many cs) b b') :
      Records conditions (.fixed [p] cs) b b' (.met w (.many cs))
  | fixedGlob {p q : Node} {qs : List Node} {w : Wildcard} {run rest : List Site}
      {b b' b'' : Branch} {log : Log} (hGlob : p.glob? = some w)
      (hBind : conditions.Binds w (.many run) b b')
      (done : Records conditions (.fixed (q :: qs) rest) b' b'' log) :
      Records conditions (.fixed (p :: q :: qs) (run ++ rest)) b b'' (.met w (.many run) ++ log)
  | fixedCons {p : Node} {ps : List Node} {c : Site} {cs : List Site} {b b' b'' : Branch}
      {log log' : Log} (hGlob : p.glob? = none) (first : Records conditions (.node p c) b b' log)
      (rest : Records conditions (.fixed ps cs) b' b'' log') :
      Records conditions (.fixed (p :: ps) (c :: cs)) b b'' (log ++ log')
  | scanNil {dive : Bool} {cs : List Site} {b : Branch} :
      Records conditions (.scan dive [] cs) b b .nothing
  | scanCons {dive : Bool} {p : Node} {ps : List Node} {cs : List Site} {spot : Spot}
      {b b' b'' : Branch} {log log' : Log} (hGlob : p.glob? = none)
      (hSpot : spot ∈ Spot.positions dive cs)
      (first : Records conditions (.node p spot.site) (b.anchor (some spot.site)) b' log)
      (rest : Records conditions (.scan dive ps spot.following) b' b'' log') :
      Records conditions (.scan dive (p :: ps) cs) b b'' (.element p [spot.site] ++ log ++ log')
  | scanLast {dive : Bool} {p : Node} {w : Wildcard} {cs : List Site} {b b' : Branch}
      (hGlob : p.glob? = some w) (hBind : conditions.Binds w (.many cs) (b.anchor cs.head?) b') :
      Records conditions (.scan dive [p] cs) b b' (.element p cs ++ .met w (.many cs))
  | scanGlob {dive : Bool} {p q : Node} {qs : List Node} {w : Wildcard} {run : List Site}
      {spot : Spot} {b b' b'' b''' : Branch} {log log' : Log} (hGlob : p.glob? = some w)
      (hBind : conditions.Binds w (.many run) (b.anchor run.head?) b')
      (first : Records conditions (.node q spot.site) (b'.anchor (some spot.site)) b'' log)
      (rest : Records conditions (.scan dive qs spot.following) b'' b''' log') :
      Records conditions (.scan dive (p :: q :: qs) (run ++ spot.site :: spot.following)) b b'''
        (.element p run ++ .met w (.many run) ++ (.element q [spot.site] ++ log ++ log'))

namespace Branch

/-- How a record accounts for bindings: what was met is of the extent of the wildcard, the nameless
wildcards are bound in the order of the record, and a name is bound to what one of its wildcards
met. -/
structure Gains (captures : List (Wildcard × Binding)) (b b' : Branch) : Prop where
  extent : ∀ entry ∈ captures, entry.2.extent = entry.1.extent
  anonymous : b'.anonymous = b.anonymous ++ (captures.filter (·.1.name.isNone)).map Prod.snd
  named : ∀ entry ∈ b'.named,
    entry ∈ b.named ∨ ∃ w, w.name = some entry.1 ∧ (w, entry.2) ∈ captures

namespace Gains

variable {captures captures' : List (Wildcard × Binding)} {b b' b'' : Branch}

theorem refl (b : Branch) : b.Gains [] b := ⟨by simp, by simp, fun _ hEntry => .inl hEntry⟩

/-- What a branch gains in two goes it gains in one. -/
theorem trans (h : b.Gains captures b') (h' : b'.Gains captures' b'') :
    b.Gains (captures ++ captures') b'' where
  extent := List.forall_mem_append.2 ⟨h.extent, h'.extent⟩
  anonymous := by simp [h'.anonymous, h.anonymous]
  named entry hEntry := by
    rcases h'.named entry hEntry with hEarly | ⟨w, hName, hMem⟩
    · rcases h.named entry hEarly with hOld | ⟨w, hName, hMem⟩
      · exact .inl hOld
      · exact .inr ⟨w, hName, List.mem_append_left _ hMem⟩
    · exact .inr ⟨w, hName, List.mem_append_right _ hMem⟩

theorem of_anchor {s : Option Site} (h : (b.anchor s).Gains captures b') : b.Gains captures b' :=
  ⟨h.extent, h.anonymous, h.named⟩

end Gains

end Branch

namespace Conditions

variable {conditions : Conditions}

/-- A binding gains the one capture. -/
theorem Binds.gains {w : Wildcard} {value : Binding} {b b' : Branch}
    (h : conditions.Binds w value b b') (hExtent : value.extent = w.extent) :
    b.Gains [(w, value)] b' where
  extent := by simpa using hExtent
  anonymous := by
    cases h with
    | nameless hName => simp [hName]
    | again hName | fresh hName => simp [hName]
  named entry hEntry := by
    cases h with
    | nameless | again => exact .inl hEntry
    | fresh hName =>
        rcases List.mem_append.1 hEntry with hOld | hNew
        · exact .inl hOld
        · obtain rfl := List.mem_singleton.1 hNew
          exact .inr ⟨w, hName, List.mem_singleton_self _⟩

/-- If no declaration is split, every derivation has a record. At a spot, the element then takes the
one statement there. -/
theorem Solves.exists_log {task : Task} {b b' : Branch}
    (hWhole : conditions.splitsDeclarations = false) (h : conditions.Solves task b b') :
    ∃ log, match task with
      | .spot _ p _ spot np nc => np = 0 ∧ nc = 0 ∧
          conditions.Records (.node p spot.site) (b.anchor (some spot.site)) b' log
      | task => conditions.Records task b b' log := by
  induction h with
  | wildcard hBind => exact ⟨_, .wildcard hBind⟩
  | hole => exact ⟨_, .hole⟩
  | form hp hForm hShape hDuties _ ih =>
      obtain ⟨log, hLog⟩ := ih
      exact ⟨log, .form hp hForm hShape hDuties hLog⟩
  | noDuties => exact ⟨_, .noDuties⟩
  | consDuties _ _ ihFirst ihRest =>
      obtain ⟨log, hFirst⟩ := ihFirst
      obtain ⟨log', hRest⟩ := ihRest
      exact ⟨_, .consDuties hFirst hRest⟩
  | exact _ ih =>
      obtain ⟨log, hLog⟩ := ih
      exact ⟨log, .exact hLog⟩
  | within hd hSeek _ ih =>
      obtain ⟨log, hLog⟩ := ih
      exact ⟨log, .within hd hSeek hLog⟩
  | fixed _ ih =>
      obtain ⟨log, hLog⟩ := ih
      exact ⟨log, .fixed hLog⟩
  | ordered _ ih =>
      obtain ⟨log, hLog⟩ := ih
      exact ⟨_, .ordered hLog⟩
  | statements _ ih =>
      obtain ⟨log, hLog⟩ := ih
      exact ⟨_, .statements hLog⟩
  | fixedNil => exact ⟨_, .fixedNil⟩
  | fixedLast hGlob hBind => exact ⟨_, .fixedLast hGlob hBind⟩
  | fixedGlob hGlob hBind _ ih =>
      obtain ⟨log, hLog⟩ := ih
      exact ⟨_, .fixedGlob hGlob hBind hLog⟩
  | fixedCons hGlob _ _ ihFirst ihRest =>
      obtain ⟨log, hFirst⟩ := ihFirst
      obtain ⟨log', hRest⟩ := ihRest
      exact ⟨_, .fixedCons hGlob hFirst hRest⟩
  | scanNil => exact ⟨_, .scanNil⟩
  | scanCons hGlob hSpot _ _ ihFirst ihRest =>
      obtain ⟨log, rfl, rfl, hFirst⟩ := ihFirst
      obtain ⟨log', hRest⟩ := ihRest
      exact ⟨_, .scanCons hGlob hSpot hFirst hRest⟩
  | scanLast hGlob hBind => exact ⟨_, .scanLast hGlob hBind⟩
  | scanGlob hGlob hBind _ _ ihFirst ihRest =>
      obtain ⟨log, rfl, rfl, hFirst⟩ := ihFirst
      obtain ⟨log', hRest⟩ := ihRest
      exact ⟨_, .scanGlob hGlob hBind hFirst hRest⟩
  | whole _ ih =>
      obtain ⟨log, hLog⟩ := ih
      exact ⟨log, rfl, rfl, hLog⟩
  | split hOn => rw [hWhole] at hOn; cases hOn
  | merged hOn => rw [hWhole] at hOn; cases hOn

/-- Every solution has a record, if declarations are not split. -/
theorem Opens.exists_log {top : Site} {pattern : Node} {task : Task} {start b : Branch}
    (hOpens : Opens top pattern task start) (hWhole : conditions.splitsDeclarations = false)
    (h : conditions.Solves task start b) : ∃ log, conditions.Records task start b log := by
  obtain ⟨log, hLog⟩ := h.exists_log hWhole
  cases hOpens <;> exact ⟨log, hLog⟩

theorem exists_log_of_mem_searchCode (hWhole : conditions.splitsDeclarations = false)
    {pattern : Node} {program : Site} {b : Branch}
    (h : b ∈ (conditions.searchCode pattern program).solutions) :
    ∃ opening ∈ openings pattern program, ∃ log, conditions.Records opening.1 opening.2 b log := by
  obtain ⟨opening, hOpening, hSolves⟩ := exists_opening_of_mem_searchCode h
  exact ⟨opening, hOpening, (opens_of_mem_openings hOpening).exists_log hWhole hSolves⟩

theorem exists_log_of_mem_searchNode (hWhole : conditions.splitsDeclarations = false)
    {pattern : Node} {candidate : Site} {b : Branch}
    (h : b ∈ (conditions.searchNode pattern candidate).solutions) :
    ∃ opening ∈ openingsAt pattern candidate, ∃ log,
      conditions.Records opening.1 opening.2 b log := by
  obtain ⟨opening, hOpening, hSolves⟩ := exists_opening_of_mem_searchNode h
  exact ⟨opening, hOpening, (opens_of_mem_openingsAt hOpening).exists_log hWhole hSolves⟩

/-- Without rules no declaration is split. -/
theorem splitsDeclarations_of_plain (hPlain : conditions.rules = none) :
    conditions.splitsDeclarations = false := by
  rw [splitsDeclarations, hPlain]
  rfl

/-- Without rules a pattern has no form but its own. -/
theorem eq_of_mem_forms (hPlain : conditions.rules = none) {p c form : Node}
    (h : form ∈ conditions.forms p c) : form = p := by
  rw [forms, hPlain] at h
  exact List.mem_singleton.1 h

namespace Records

variable {task : Task} {b b' : Branch} {log : Log}

/-- Without rules the wildcards of a pattern are met in the order of its text, each once. -/
theorem wildcards_eq (hPlain : conditions.rules = none) (h : conditions.Records task b b' log) :
    log.captures.map Prod.fst = task.wildcards := by
  induction h with
  | @wildcard w => exact (Node.wildcards_wildcard w).symm
  | hole =>
      rw [Task.wildcards, Node.wildcards_eq]
      rfl
  | form hp hForm hShape hDuties _ ih =>
      obtain rfl := eq_of_mem_forms hPlain hForm
      rw [ih, Task.wildcards, Task.wildcards]
      exact Duty.flatMap_wildcards_of_ofNodes? hShape (wildcard?_of_isConcrete hp) hDuties
  | noDuties => rfl
  | consDuties _ _ ihFirst ihRest => simp [ihFirst, ihRest, Task.wildcards]
  | exact _ ih => simp [ih, Task.wildcards, Duty.wildcards, Duty.patterns]
  | within _ _ _ ih => simp [ih, Task.wildcards, Duty.wildcards, Duty.patterns]
  | fixed _ ih => exact ih
  | ordered _ ih => exact ih
  | statements _ ih => exact ih
  | fixedNil => rfl
  | fixedLast hGlob _ =>
      rw [(Node.eq_wildcard_of_glob? hGlob).1]
      simp [Task.wildcards, Log.met]
  | fixedGlob hGlob _ _ ih =>
      rw [(Node.eq_wildcard_of_glob? hGlob).1]
      simp [ih, Task.wildcards, Log.met]
  | fixedCons _ _ _ ihFirst ihRest => simp [ihFirst, ihRest, Task.wildcards]
  | scanNil => rfl
  | scanCons _ _ _ _ ihFirst ihRest => simp [ihFirst, ihRest, Task.wildcards, Log.element]
  | scanLast hGlob _ =>
      rw [(Node.eq_wildcard_of_glob? hGlob).1]
      simp [Task.wildcards, Log.met, Log.element]
  | scanGlob hGlob _ _ _ ihFirst ihRest =>
      rw [(Node.eq_wildcard_of_glob? hGlob).1]
      simp [ihFirst, ihRest, Task.wildcards, Log.met, Log.element]

/-- The bindings after a search are made of the entries of its record. -/
theorem gains (h : conditions.Records task b b' log) : b.Gains log.captures b' := by
  induction h with
  | @wildcard w c b b' hBind => exact hBind.gains (w.extent_valueAt c)
  | hole | noDuties | fixedNil | scanNil => exact .refl _
  | form _ _ _ _ _ ih | exact _ ih | within _ _ _ ih | fixed _ ih | ordered _ ih
  | statements _ ih => exact ih
  | consDuties _ _ ihFirst ihRest | fixedCons _ _ _ ihFirst ihRest => exact ihFirst.trans ihRest
  | fixedLast hGlob hBind => exact hBind.gains (Node.eq_wildcard_of_glob? hGlob).2.symm
  | fixedGlob hGlob hBind _ ih =>
      exact (hBind.gains (Node.eq_wildcard_of_glob? hGlob).2.symm).trans ih
  | scanCons _ _ _ _ ihFirst ihRest => exact ihFirst.of_anchor.trans ihRest
  | scanLast hGlob hBind => exact (hBind.gains (Node.eq_wildcard_of_glob? hGlob).2.symm).of_anchor
  | scanGlob hGlob hBind _ _ ihFirst ihRest =>
      have hRun := (hBind.gains (Node.eq_wildcard_of_glob? hGlob).2.symm).of_anchor
      exact hRun.trans (ihFirst.of_anchor.trans ihRest)

end Records

/-- A search starts with a task that has the wildcards of the pattern and with nothing bound. -/
theorem Opens.wildcards_eq {top : Site} {pattern : Node} {task : Task} {start : Branch}
    (h : Opens top pattern task start) :
    task.wildcards = pattern.wildcards ∧ start.anonymous = [] ∧ start.named = [] := by
  cases h with
  | statements => exact ⟨(Node.wildcards_program _).symm, rfl, rfl⟩
  | nothing => exact ⟨(Node.wildcards_program []).symm, rfl, rfl⟩
  | alone => exact ⟨by simp [Task.wildcards], rfl, rfl⟩
  | anywhere => exact ⟨rfl, rfl, rfl⟩

end Conditions

end CodeShape
