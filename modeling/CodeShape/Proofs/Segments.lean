import CodeShape.Proofs.Choices
import CodeShape.Proofs.Enumeration

/-! Matching a list element by element. The candidates are cut into consecutive runs from the front,
one for each element of the pattern: a glob takes any run, any other element a run of one. What is left
at the end is ignored, except that a glob in last position leaves nothing. The search comes by these
cuts in the lexicographic order of the lengths of the runs and of the ways to match. -/
namespace CodeShape

/-- There is at most one way to bind a wildcard. -/
theorem Enumeration.length_bind_le (e : Enumeration) (w : Wildcard) (value : Binding) (b : Branch) :
    (e.bind w value b).length ≤ 1 := by
  unfold bind
  split
  · exact Nat.le_refl 1
  · split
    · split
      · exact Nat.le_refl 1
      · exact Nat.zero_le 1
    · dsimp only
      split
      · exact Nat.le_refl 1
      · exact Nat.zero_le 1

namespace Conditions

/-- What the bindings are after a glob is bound to a run. -/
inductive BindsRun (conditions : Conditions) (w : Wildcard) (run : List Site) (b : Branch) :
    Branch → Prop where
  /-- Without a name the run is written down. -/
  | nameless (hName : w.name = none) :
      BindsRun conditions w run b { b with anonymous := b.anonymous ++ [.many run] }
  /-- A name that has a value needs an equal run. -/
  | again {name : String} {old : Binding} (hName : w.name = some name)
      (hOld : b.find? name = some old) (hEqual : equalRuns conditions.rules old.sites run) :
      BindsRun conditions w run b b
  /-- A new name is accepted by every condition on it all of whose variables have values. -/
  | fresh {name : String} {bound : Branch} (hName : w.name = some name) (hNew : b.find? name = none)
      (hBound : bound = { b with named := b.named ++ [(name, .many run)] })
      (hPass : ∀ c ∈ conditions.constraints, name ∈ c.vars → ∀ values,
        c.vars.mapM (fun v => (bound.find? v).map Binding.capture) = some values →
          c.test values = .pass) :
      BindsRun conditions w run b bound

/-- An element of a pattern that takes a run of candidates: a glob is bound to all of them, any other
element matches the only one. The number is the length of the run of a glob, else it tells which of
the ways to match is taken. -/
inductive TakesRun (conditions : Conditions) : Node → List Site → Branch → Nat → Branch → Prop where
  | glob {p : Node} {w : Wildcard} {run : List Site} {b b' : Branch} (hGlob : p.glob? = some w)
      (hBind : conditions.BindsRun w run b b') :
      TakesRun conditions p run b run.length b'
  | single {p : Node} {c : Site} {b b' : Branch} {j : Nat} (hGlob : p.glob? = none)
      (hWay : (conditions.node p c b).solutions[j]? = some b') : TakesRun conditions p [c] b j b'

/-- The elements of a pattern take runs one after the other. -/
inductive TakesRuns (conditions : Conditions) :
    List Node → List (List Site) → Branch → List Nat → Branch → Prop where
  | nil {b : Branch} : TakesRuns conditions [] [] b [] b
  | cons {p : Node} {ps : List Node} {run : List Site} {runs : List (List Site)}
      {b b' b'' : Branch} {n : Nat} {choices : List Nat} (hFirst : conditions.TakesRun p run b n b')
      (hRest : TakesRuns conditions ps runs b' choices b'') :
      TakesRuns conditions (p :: ps) (run :: runs) b (n :: choices) b''

/-- The runs that the elements take are a cut of the front of the candidates, and of all of them if the
last element is a glob. -/
def Cuts (conditions : Conditions) (ps : List Node) (cs : List Site) (b : Branch)
    (runs : List (List Site)) (choices : List Nat) (b' : Branch) : Prop :=
  ∃ rest, runs.flatten ++ rest = cs ∧ ((∃ p ∈ ps.getLast?, p.glob?.isSome) → rest = []) ∧
    conditions.TakesRuns ps runs b choices b'

variable {conditions : Conditions} {p q : Node} {ps qs : List Node} {w : Wildcard} {c : Site}
variable {cs : List Site} {b b' : Branch} {choices : List Nat}

theorem bindsRun_iff {run : List Site} :
    conditions.BindsRun w run b b' ↔ b' ∈ conditions.enumeration.bind w (.many run) b := by
  rw [Enumeration.bind]
  constructor
  · intro h
    cases h with
    | nameless hName => simp [hName]
    | again hName hOld hEqual =>
        simp only [hName, hOld]
        exact List.mem_ite_nil_right.2 ⟨hEqual, List.mem_singleton.2 rfl⟩
    | fresh hName hNew hBound hPass =>
        simp only [hName, hNew, ← hBound]
        exact List.mem_ite_nil_right.2
          ⟨Enumeration.accepts_iff_forall.2 hPass, List.mem_singleton.2 rfl⟩
  · intro h
    cases hName : w.name with
    | none =>
        rw [hName] at h
        exact List.mem_singleton.1 h ▸ .nameless hName
    | some name =>
        cases hOld : b.find? name with
        | some old =>
            simp only [hName, hOld] at h
            obtain ⟨hEqual, hSame⟩ := List.mem_ite_nil_right.1 h
            rw [List.mem_singleton.1 hSame]
            exact .again hName hOld hEqual
        | none =>
            simp only [hName, hOld] at h
            obtain ⟨hAccepts, hSame⟩ := List.mem_ite_nil_right.1 h
            exact .fresh hName hOld (List.mem_singleton.1 hSame)
              (List.mem_singleton.1 hSame ▸ Enumeration.accepts_iff_forall.1 hAccepts)

theorem cuts_nil_iff {runs : List (List Site)} :
    conditions.Cuts [] cs b runs choices b' ↔ runs = [] ∧ choices = [] ∧ b' = b := by
  constructor
  · rintro ⟨rest, -, -, hRuns⟩
    cases hRuns
    exact ⟨rfl, rfl, rfl⟩
  · rintro ⟨rfl, rfl, rfl⟩
    exact ⟨cs, rfl, by simp, .nil⟩

/-- A glob at the end takes everything. -/
theorem exists_cuts_last_iff (hGlob : p.glob? = some w) :
    (∃ runs, conditions.Cuts [p] cs b runs choices b') ↔
      ∃ rest, (b' ∈ conditions.enumeration.bind w (.many cs) b ∧ rest = []) ∧
        choices = cs.length :: rest := by
  rw [← bindsRun_iff]
  constructor
  · rintro ⟨runs, rest, hCut, hEnd, hRuns⟩
    obtain rfl := hEnd ⟨p, rfl, by rw [hGlob]; rfl⟩
    cases hRuns with
    | cons hFirst hRest =>
        cases hRest
        rw [List.flatten_singleton, List.append_nil] at hCut
        subst hCut
        cases hFirst with
        | glob hGlob' hBind =>
            cases hGlob.symm.trans hGlob'
            exact ⟨[], ⟨hBind, rfl⟩, rfl⟩
        | single hNone => cases hGlob.symm.trans hNone
  · rintro ⟨_, ⟨hBind, rfl⟩, rfl⟩
    exact ⟨[cs], [], by simp, fun _ => rfl, .cons (.glob hGlob hBind) .nil⟩

/-- A glob before other elements takes a run from the front, which may be empty. -/
theorem exists_cuts_glob_iff (hGlob : p.glob? = some w) :
    (∃ runs, conditions.Cuts (p :: q :: qs) cs b runs choices b') ↔
      ∃ i n rest, (List.range (cs.length + 1))[i]? = some n ∧
        (∃ next ∈ conditions.enumeration.bind w (.many (cs.take n)) b,
          ∃ runs, conditions.Cuts (q :: qs) (cs.drop n) next runs rest b') ∧
        choices = i :: rest := by
  simp only [← bindsRun_iff]
  constructor
  · rintro ⟨runs, rest, rfl, hEnd, hRuns⟩
    cases hRuns with
    | @cons _ _ run runs _ next _ n choices hFirst hRest =>
        cases hFirst with
        | glob hGlob' hBind =>
            cases hGlob.symm.trans hGlob'
            refine ⟨run.length, run.length, choices, ?_, ⟨next, ?_, runs, rest, ?_, hEnd, hRest⟩, rfl⟩
            · refine List.getElem?_range ?_
              rw [List.flatten_cons, List.append_assoc, List.length_append]
              omega
            · rwa [List.flatten_cons, List.append_assoc, List.take_left]
            · rw [List.flatten_cons, List.append_assoc, List.drop_left]
        | single hNone => cases hGlob.symm.trans hNone
  · rintro ⟨i, n, choices, hRange, ⟨next, hBind, runs, rest, hCut, hEnd, hRuns⟩, rfl⟩
    obtain ⟨hLess, hSame⟩ := List.getElem?_eq_some_iff.1 hRange
    rw [List.length_range] at hLess
    rw [List.getElem_range] at hSame
    subst hSame
    have hTake : TakesRun conditions p (cs.take i) b i next := by
      have hLength : (cs.take i).length = i := List.length_take_of_le (Nat.le_of_lt_succ hLess)
      have hGlobRun := TakesRun.glob hGlob hBind
      rwa [hLength] at hGlobRun
    refine ⟨cs.take i :: runs, rest, ?_, hEnd, .cons hTake hRuns⟩
    rw [List.flatten_cons, List.append_assoc, hCut, List.take_append_drop]

/-- Any other element takes the first candidate. -/
theorem exists_cuts_single_iff (hGlob : p.glob? = none) :
    (∃ runs, conditions.Cuts (p :: ps) (c :: cs) b runs choices b') ↔
      ∃ j next rest, (conditions.ways p c b)[j]? = some next ∧
        (∃ runs, conditions.Cuts ps cs next runs rest b') ∧ choices = j :: rest := by
  have hLast : (∃ x ∈ (p :: ps).getLast?, x.glob?.isSome = true) ↔
      ∃ x ∈ ps.getLast?, x.glob?.isSome = true := by
    cases ps with
    | nil => simp [hGlob]
    | cons q qs => rw [List.getLast?_cons_cons]
  simp only [← solutions_node]
  constructor
  · rintro ⟨runs, rest, hCut, hEnd, hRuns⟩
    cases hRuns with
    | @cons _ _ run runs _ next _ j choices hFirst hRest =>
        cases hFirst with
        | glob hGlob' => cases hGlob.symm.trans hGlob'
        | single _ hWay =>
            obtain ⟨rfl, hTail⟩ := List.cons.inj hCut
            exact ⟨j, next, choices, hWay, ⟨runs, rest, hTail, fun h => hEnd (hLast.2 h), hRest⟩, rfl⟩
  · rintro ⟨j, next, choices, hWay, ⟨runs, rest, rfl, hEnd, hRuns⟩, rfl⟩
    exact ⟨[c] :: runs, rest, rfl, fun h => hEnd (hLast.1 h), .cons (.single hGlob hWay) hRuns⟩

/-- Every pattern that is no glob takes a candidate, so too few candidates leave none. -/
theorem TakesRuns.countP_le {runs : List (List Site)}
    (h : conditions.TakesRuns ps runs b choices b') :
    ps.countP (·.glob?.isNone) ≤ runs.flatten.length := by
  induction h with
  | nil => exact Nat.le_refl 0
  | @cons p ps run runs _ _ _ n choices hFirst _ ih =>
      rw [List.countP_cons, List.flatten_cons, List.length_append]
      cases hFirst with
      | glob hGlob => simpa [hGlob] using Nat.le_trans ih (Nat.le_add_left _ _)
      | single hGlob =>
          simp only [hGlob, Option.isNone_none, if_true, List.length_singleton]
          omega

/-- Every element that is no glob needs a candidate of its own. -/
theorem Cuts.countP_le {runs : List (List Site)} (h : conditions.Cuts ps cs b runs choices b') :
    ps.countP (·.glob?.isNone) ≤ cs.length := by
  obtain ⟨rest, rfl, -, hRuns⟩ := h
  rw [List.length_append]
  exact Nat.le_trans hRuns.countP_le (Nat.le_add_right _ _)

/-- Further candidates do not matter unless the last element is a glob. -/
theorem Cuts.append {runs : List (List Site)} (h : conditions.Cuts ps cs b runs choices b')
    (hLast : ∀ p ∈ ps.getLast?, p.glob? = none) (more : List Site) :
    conditions.Cuts ps (cs ++ more) b runs choices b' := by
  obtain ⟨rest, rfl, -, hRuns⟩ := h
  refine ⟨rest ++ more, (List.append_assoc _ _ _).symm, ?_, hRuns⟩
  rintro ⟨p, hp, hGlob⟩
  rw [hLast p hp] at hGlob
  cases hGlob

theorem enumerates_bind (conditions : Conditions) (w : Wildcard) (value : Binding) (b : Branch) :
    Enumerates (conditions.enumeration.bind w value b) fun choices b' =>
      b' ∈ conditions.enumeration.bind w value b ∧ choices = [] := by
  have hBind := Enumerates.ofAtMostOne (fun b : Branch => Enumerates.one b)
    (conditions.enumeration.length_bind_le w value b)
  rw [List.flatMap_singleton'] at hBind
  refine hBind.congr fun choices b' => ⟨?_, ?_⟩
  · rintro ⟨_, hb, rfl, rfl⟩
    exact ⟨hb, rfl⟩
  · rintro ⟨hb, rfl⟩
    exact ⟨b', hb, rfl, rfl⟩

/-- A fixed list lists its cuts in lexicographic order. The induction is on the patterns. -/
theorem enumerates_fixed (conditions : Conditions) (ps : List Node) (cs : List Site) (b : Branch) :
    Enumerates (conditions.enumeration.fixed ps cs b) fun choices b' =>
      ∃ runs, conditions.Cuts ps cs b runs choices b' := by
  induction ps generalizing cs b with
  | nil =>
      refine (Enumerates.one b).congr fun choices b' => ?_
      simp [cuts_nil_iff]
  | cons p ps ih =>
      cases hGlob : p.glob? with
      | some w =>
          cases ps with
          | nil =>
              rw [Enumeration.fixed_glob_last _ hGlob]
              refine ((conditions.enumerates_bind w (.many cs) b).numbered cs.length).congr ?_
              exact fun choices b' => (exists_cuts_last_iff hGlob).symm
          | cons q qs =>
              rw [Enumeration.fixed_glob _ hGlob]
              have hRuns := fun n : Nat => Enumerates.ofAtMostOne (fun b => ih (cs.drop n) b)
                (conditions.enumeration.length_bind_le w (.many (cs.take n)) b)
              refine (Enumerates.flatMap hRuns (List.range (cs.length + 1))).congr ?_
              exact fun choices b' => (exists_cuts_glob_iff hGlob).symm
      | none =>
          cases cs with
          | nil =>
              rw [Enumeration.fixed_none _ hGlob]
              refine Enumerates.nil.congr fun choices b' => ⟨False.elim, ?_⟩
              rintro ⟨runs, hCut⟩
              have hCount := hCut.countP_le
              simp [hGlob] at hCount
          | cons c cs =>
              rw [Enumeration.fixed_cons _ hGlob]
              refine (Enumerates.flatMap (fun b => ih cs b) (conditions.ways p c b)).congr ?_
              exact fun choices b' => (exists_cuts_single_iff hGlob).symm

/-- What matching a list element by element means. The search comes by the cuts of the candidates into
runs that the elements take, in the lexicographic order of the lengths of the runs of globs and of the
ways to match for other elements, and whatever follows, it stops at the least cut that is not turned
down. So further candidates lose no solution unless the pattern ends in a glob, and there is no
solution if there are fewer candidates than elements that are no globs. -/
theorem fixed_follows_cuts (conditions : Conditions) {ps : List Node} {cs : List Site}
    {height : Nat} (hHeight : ∀ c ∈ cs, c.node.height ≤ height) (b : Branch) :
    (ListMatcher.fixed ⟨conditions, conditions.nodeAt height, height⟩ ps cs b).InOrderOf
        (fun choices b' => ∃ runs, conditions.Cuts ps cs b runs choices b') ∧
      ((∀ p ∈ ps.getLast?, p.glob? = none) → ∀ more, (∀ c ∈ more, c.node.height ≤ height) →
        (ListMatcher.fixed ⟨conditions, conditions.nodeAt height, height⟩ ps cs b).solutions ⊆
          (ListMatcher.fixed ⟨conditions, conditions.nodeAt height, height⟩ ps
            (cs ++ more) b).solutions) ∧
      (cs.length < ps.countP (·.glob?.isNone) →
        (ListMatcher.fixed ⟨conditions, conditions.nodeAt height, height⟩ ps cs b).solutions =
          []) := by
  have hFixed : ∀ all : List Site, (∀ c ∈ all, c.node.height ≤ height) →
      (ListMatcher.fixed ⟨conditions, conditions.nodeAt height, height⟩ ps all b).solutions =
        conditions.enumeration.fixed ps all b :=
    fun _ hAll => (conditions.nodeAt_lists height).fixed_eq hAll b
  refine ⟨Search.inOrderOf ?_, ?_, ?_⟩
  · rw [hFixed cs hHeight]
    exact conditions.enumerates_fixed ps cs b
  · intro hLast more hMore b' hb'
    rw [hFixed cs hHeight] at hb'
    rw [hFixed _ (List.forall_mem_append.2 ⟨hHeight, hMore⟩)]
    obtain ⟨choices, runs, hCut⟩ := (conditions.enumerates_fixed ps cs b).mem_iff.1 hb'
    exact (conditions.enumerates_fixed ps (cs ++ more) b).mem_iff.2
      ⟨choices, runs, hCut.append hLast more⟩
  · intro hFew
    rw [hFixed cs hHeight]
    refine List.eq_nil_iff_forall_not_mem.2 fun b' hb' => ?_
    obtain ⟨choices, runs, hCut⟩ := (conditions.enumerates_fixed ps cs b).mem_iff.1 hb'
    exact absurd hCut.countP_le (Nat.not_le_of_lt hFew)

/-- Two globs around a name that occurs twice, and a further candidate that is met again. -/
theorem fixed_follows_cuts_globs :
    let glob (name : String) : Node := .wildcard ⟨some name, .glob⟩
    let patterns : List Node := [glob "a", .ident "x", glob "b", .ident "z"]
    let program : Node := .array [.ident "y", .ident "x", .ident "x", .ident "z", .ident "z"]
    let candidates : List Site := (Site.root program).children
    let conditions : Conditions := ⟨[], none, false⟩
    ∃ b, ((ListMatcher.fixed ⟨conditions, conditions.nodeAt 1, 1⟩ patterns candidates .start).stopAt
        fun _ => true).1 = some b ∧
      ∃ choices, (∃ runs, conditions.Cuts patterns candidates .start runs choices b) ∧
        ∀ choices' runs b', conditions.Cuts patterns candidates .start runs choices' b' →
          ¬ choices' < choices := by
  intro glob patterns program candidates conditions
  have hFound : ((ListMatcher.fixed ⟨conditions, conditions.nodeAt 1, 1⟩ patterns candidates
      .start).stopAt fun _ => true).1.isSome = true := by
    decide +kernel
  obtain ⟨b, hb⟩ := Option.isSome_iff_exists.1 hFound
  have hCuts := (@fixed_follows_cuts conditions patterns candidates 1 (by decide +kernel) .start).1
  obtain ⟨-, choices, hCut, hLeast⟩ := (hCuts.stops _ b).1 hb
  exact ⟨b, hb, choices, hCut, fun choices' runs b' hOther =>
    hLeast choices' b' ⟨runs, hOther⟩ rfl⟩

end Conditions

end CodeShape
