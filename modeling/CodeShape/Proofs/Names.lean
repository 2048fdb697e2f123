import CodeShape.Finder
import CodeShape.Proofs.Derivation
import CodeShape.Proofs.Shape
import CodeShape.Proofs.Validation

/-! The names that a match binds. Whatever alternatives a search takes, it comes past every wildcard
of the pattern, and it asks every condition when the last of its variables is bound. -/
namespace CodeShape

theorem mem_keys_iff {α : Type} {entries : List (String × α)} {name : String} :
    name ∈ entries.map Prod.fst ↔ (entries.lookup name).isSome := by
  rw [List.lookup_isSome_iff, List.mem_map]
  constructor
  · rintro ⟨entry, hEntry, rfl⟩
    exact ⟨entry, hEntry, beq_self_eq_true _⟩
  · rintro ⟨entry, hEntry, hName⟩
    exact ⟨entry, hEntry, (eq_of_beq hName).symm⟩

def Binding.extent : Binding → Extent
  | one _ => .scalar
  | many _ => .glob

/-- A wildcard is bound to a value of its own extent. -/
theorem Wildcard.extent_valueAt (w : Wildcard) (c : Site) : (w.valueAt c).extent = w.extent := by
  obtain ⟨name, extent⟩ := w
  cases extent <;> rfl

theorem Wildcard.sites_valueAt (w : Wildcard) (c : Site) : (w.valueAt c).sites = [c] := by
  obtain ⟨name, extent⟩ := w
  cases extent <;> rfl

namespace Duty

/-- The parts of a pattern that a duty is about. -/
def patterns : Duty → List Node
  | exact p _ | below p _ => [p]
  | list _ ps _ => ps

def wildcards (duty : Duty) : List Wildcard := duty.patterns.flatMap Node.wildcards

/-- The statements of a body hold its wildcards. -/
theorem wildcards_statements (p : Node) :
    (statements p).flatMap Node.wildcards = p.wildcards := by
  unfold statements
  split
  · rw [Node.wildcards_eq]
    simp [Node.wildcard?, Node.children, Node.fields, Field.toList]
  · simp

/-- The duties of a slot hold its wildcards, each once. -/
theorem flatMap_wildcards_of_ofSlots? {whole : Bool} {f : Field Node} {g : Field Site}
    {duties : List Duty} (h : ofSlots? whole f g = some duties) :
    duties.flatMap wildcards = f.toList.flatMap Node.wildcards := by
  obtain ⟨p, c, hSlots, rfl⟩ | ⟨p, c, rfl, -, rfl⟩ | ⟨_, _, ps, cs, rfl, -, rfl⟩ | ⟨hNone, rfl⟩ :=
    ofSlots?_cases h
  · rcases hSlots with ⟨rfl, -⟩ | ⟨rfl, -⟩ <;> cases whole <;>
      simp [wildcards, patterns, Field.toList]
  · simp [wildcards, patterns, Field.toList, wildcards_statements]
  · simp [wildcards, patterns, Field.toList]
  · rcases hNone with rfl | rfl <;> rfl

theorem flatMap_wildcards_of_ofFields? {whole : Bool} {fs : List (Field Node)}
    {gs : List (Field Site)} {duties : List Duty} (h : ofFields? whole fs gs = some duties)
    (hLength : fs.length = gs.length) :
    duties.flatMap wildcards = (fs.flatMap Field.toList).flatMap Node.wildcards := by
  induction fs generalizing gs duties with
  | nil =>
      cases h
      rfl
  | cons f fs ih =>
      cases gs with
      | nil => cases hLength
      | cons g gs =>
          obtain ⟨first, rest, hFirst, hRest, rfl⟩ := ofFields?_cons h
          rw [List.flatMap_append, flatMap_wildcards_of_ofSlots? hFirst,
            ih hRest (Nat.succ.inj hLength)]
          simp

/-- No wildcard of a pattern is lost when its slots are paired with those of a candidate. -/
theorem flatMap_wildcards_of_ofNodes? {p : Node} {c : Site} {duties : List Duty}
    (hShape : p.sameShape c.node) (hp : p.wildcard? = none) (h : ofNodes? p c = some duties) :
    duties.flatMap wildcards = p.wildcards := by
  have hLength : p.fields.length = c.fields.length := by
    have hNumber : ∀ start (fields : List (Field Node)),
        (Field.numberAll start fields).length = fields.length := by
      intro start fields
      induction fields generalizing start with
      | nil => rfl
      | cons field fields ih => simp [Field.numberAll, ih]
    rw [Node.length_fields_of_sameShape hShape, Site.fields, List.length_map, hNumber]
  rw [ofNodes?_eq] at h
  rw [flatMap_wildcards_of_ofFields? h hLength, Node.wildcards_eq, hp]
  rfl

end Duty

def Task.wildcards : Task → List Wildcard
  | node p _ => p.wildcards
  | duty d => d.wildcards
  | duties ds => ds.flatMap Duty.wildcards
  | fixed ps _ | scan _ ps _ => ps.flatMap Node.wildcards
  | spot _ p ps _ np _ => p.wildcards ++ (ps.take np).flatMap Node.wildcards

/-- A scan comes past what its first element takes, and then past the rest. -/
theorem Task.wildcards_scan_cons {dive : Bool} {p : Node} {ps : List Node} {cs : List Site}
    {spot : Spot} {np nc : Nat} {rest : List Site} :
    (Task.scan dive (p :: ps) cs).wildcards =
      (Task.spot dive p ps spot np nc).wildcards ++
        (Task.scan dive (ps.drop np) rest).wildcards := by
  have hSplit := congrArg (List.flatMap Node.wildcards) (List.take_append_drop np ps)
  rw [List.flatMap_append] at hSplit
  simp [Task.wildcards, ← hSplit]

namespace Branch

/-- What is bound to a name, as conditions see it. -/
def value? (b : Branch) (name : String) : Option Capture := (b.find? name).map Binding.capture

/-- A new binding is found by its name, unless the name was bound before. -/
theorem find?_snoc (b : Branch) (name : String) (value : Binding) (v : String) :
    Branch.find? { b with named := b.named ++ [(name, value)] } v =
      (b.find? v).or (if v = name then some value else none) := by
  by_cases h : v = name
  · simp [find?, List.lookup_append, h]
  · simp [find?, List.lookup_append, List.lookup_cons, h, beq_eq_false_iff_ne.2 h]

/-- A finished match gives each name the value that it was bound to. -/
theorem find?_finish (b : Branch) (fallback : Site) (name : String) :
    (b.finish fallback).find? name = b.value? name := by
  have hLookup : ∀ entries : List (String × Binding),
      (entries.map fun entry => (entry.1, entry.2.capture)).lookup name =
        (entries.lookup name).map Binding.capture := by
    intro entries
    induction entries with
    | nil => rfl
    | cons entry entries ih =>
        rw [List.map_cons, List.lookup_cons, List.lookup_cons, ih]
        cases name == entry.1 <;> rfl
  exact hLookup b.named

/-- Every condition with a variable passes as soon as all its variables are bound. -/
def Meets (b : Branch) (constraints : List Constraint) : Prop :=
  ∀ c ∈ constraints, c.vars ≠ [] → ∀ values, c.vars.mapM b.value? = some values →
    c.test values = .pass

/-- Bindings after a search has come past some wildcards. -/
structure Passes (constraints : List Constraint) (ws : List Wildcard) (b b' : Branch) : Prop where
  kept : ∀ {name value}, b.find? name = some value → b'.find? name = some value
  made : ∀ {name value}, b'.find? name = some value →
    b.find? name = some value ∨ ⟨some name, value.extent⟩ ∈ ws
  bound : ∀ {name extent}, ⟨some name, extent⟩ ∈ ws → (b'.find? name).isSome
  distinct : (b.named.map Prod.fst).Nodup → (b'.named.map Prod.fst).Nodup
  meets : b.Meets constraints → b'.Meets constraints

namespace Passes

variable {constraints : List Constraint} {ws ws' : List Wildcard} {b b' b'' : Branch}

theorem refl (b : Branch) : b.Passes constraints [] b where
  kept h := h
  made h := .inl h
  bound h := nomatch h
  distinct h := h
  meets h := h

/-- What passes in two goes passes in one. -/
theorem trans (h : b.Passes constraints ws b') (h' : b'.Passes constraints ws' b'') :
    b.Passes constraints (ws ++ ws') b'' where
  kept hFind := h'.kept (h.kept hFind)
  made hFind := by
    rcases h'.made hFind with hEarly | hLate
    · exact (h.made hEarly).imp id (List.mem_append_left _)
    · exact .inr (List.mem_append_right _ hLate)
  bound hMem := by
    rcases List.mem_append.1 hMem with hEarly | hLate
    · obtain ⟨value, hFind⟩ := Option.isSome_iff_exists.1 (h.bound hEarly)
      rw [h'.kept hFind]
      rfl
    · exact h'.bound hLate
  distinct hKeys := h'.distinct (h.distinct hKeys)
  meets hMeets := h'.meets (h.meets hMeets)

theorem congr (h : b.Passes constraints ws b') (hSame : ∀ w, w ∈ ws ↔ w ∈ ws') :
    b.Passes constraints ws' b' where
  kept hFind := h.kept hFind
  made hFind := (h.made hFind).imp id (hSame _).1
  bound hMem := h.bound ((hSame _).2 hMem)
  distinct hKeys := h.distinct hKeys
  meets hMeets := h.meets hMeets

theorem of_anchor {s : Option Site} (h : (b.anchor s).Passes constraints ws b') :
    b.Passes constraints ws b' := ⟨h.kept, h.made, h.bound, h.distinct, h.meets⟩

end Passes

end Branch

namespace Constraint

theorem exists_mapM {f : String → Option Capture} {names : List String}
    (h : ∀ v ∈ names, ∃ value, f v = some value) : ∃ values, names.mapM f = some values := by
  induction names with
  | nil => exact ⟨[], rfl⟩
  | cons v names ih =>
      obtain ⟨value, hValue⟩ := h v (by simp)
      obtain ⟨values, hValues⟩ := ih fun v hv => h v (by simp [hv])
      exact ⟨value :: values, by rw [List.mapM_cons, hValue, hValues]; rfl⟩

/-- A passed check has asked every condition on the name that could be asked. -/
theorem pass_of_check {value? : String → Option Capture} {name : String}
    {constraints : List Constraint} (h : (check value? name constraints).2 = .pass)
    {c : Constraint} (hc : c ∈ constraints) (hName : name ∈ c.vars) {values : List Capture}
    (hValues : c.vars.mapM value? = some values) : c.test values = .pass := by
  have hAll := List.all_eq_true.1 ((check_pass_iff ..).1 h) c hc
  simpa [hName, hValues] using hAll

end Constraint

namespace Conditions

variable {conditions : Conditions}

/-- Binding one more name keeps every condition met. -/
theorem meets_snoc {b : Branch} {name : String} {value : Binding}
    (hPass : (Constraint.check (fun v => (Branch.find?
      { b with named := b.named ++ [(name, value)] } v).map Binding.capture) name
      conditions.constraints).2 = .pass)
    (h : b.Meets conditions.constraints) :
    Branch.Meets { b with named := b.named ++ [(name, value)] } conditions.constraints := by
  intro c hc hVars values hValues
  by_cases hName : name ∈ c.vars
  · exact Constraint.pass_of_check hPass hc hName hValues
  · -- nothing that the condition reads has changed
    refine h c hc hVars values ?_
    rw [← hValues]
    apply mapM_congr
    intro v hv
    have hOther : v ≠ name := fun hEq => hName (hEq ▸ hv)
    rw [Branch.value?, Branch.value?, Branch.find?_snoc, if_neg hOther, Option.or_none]

/-- One binding passes its name. -/
theorem Binds.passes {w : Wildcard} {value : Binding} {b b' : Branch}
    (h : conditions.Binds w value b b') (hExtent : value.extent = w.extent) :
    b.Passes conditions.constraints [w] b' := by
  obtain ⟨name?, extent⟩ := w
  simp only at hExtent
  cases h with
  | nameless hName =>
      simp only at hName
      subst hName
      exact ⟨id, .inl, by simp, id, id⟩
  | again hName hOld _ =>
      simp only at hName
      subst hName
      refine ⟨id, .inl, ?_, id, id⟩
      intro name' extent' hMem
      cases List.mem_singleton.1 hMem
      rw [hOld]
      rfl
  | @fresh name hName hNew hPass =>
      simp only at hName
      subst hName
      refine ⟨?_, ?_, ?_, ?_, meets_snoc hPass⟩
      · intro name' old hOld
        rw [Branch.find?_snoc, hOld, Option.some_or]
      · intro name' found hFound
        rw [Branch.find?_snoc] at hFound
        cases hOld : b.find? name' with
        | some old =>
            rw [hOld, Option.some_or] at hFound
            exact .inl hFound
        | none =>
            rw [hOld, Option.none_or] at hFound
            split at hFound
            · next hSame =>
                cases hFound
                rw [hSame, ← hExtent]
                exact .inr (by simp)
            · cases hFound
      · intro name' extent' hMem
        cases List.mem_singleton.1 hMem
        rw [Branch.find?_snoc, hNew, if_pos rfl]
        rfl
      · intro hKeys
        have hFresh : name ∉ b.named.map Prod.fst := by
          intro hMem
          rw [mem_keys_iff, ← Branch.find?, hNew] at hMem
          cases hMem
        simp only [List.map_append, List.map_cons, List.map_nil]
        exact List.nodup_append.2 ⟨hKeys, by simp, by
          intro a ha c hc hEq
          exact hFresh (List.mem_singleton.1 hc ▸ hEq ▸ ha)⟩

theorem wildcard?_of_isConcrete {p : Node} (h : p.isConcrete) : p.wildcard? = none := by
  cases p with
  | wildcard w => cases h
  | _ => rfl

theorem isConcrete_of_rewrites {p form : Node} (h : Node.Rewrites p form) : form.isConcrete := by
  cases h <;> rfl

/-- Every way through a search comes past every wildcard. -/
theorem Solves.passes {task : Task} {b b' : Branch} (h : conditions.Solves task b b') :
    b.Passes conditions.constraints task.wildcards b' := by
  induction h with
  | @wildcard w c b b' hBind =>
      rw [Task.wildcards, Node.wildcards_wildcard]
      exact hBind.passes (w.extent_valueAt c)
  | hole =>
      rw [Task.wildcards, Node.wildcards_eq]
      exact .refl _
  | @form p form c duties b b' hp hForm hShape hDuties _ ih =>
      have hConcrete : form.isConcrete := by
        rcases mem_forms hForm with rfl | hRewrites
        · exact hp
        · exact isConcrete_of_rewrites hRewrites
      have hSame := Duty.flatMap_wildcards_of_ofNodes? hShape (wildcard?_of_isConcrete hConcrete)
        hDuties
      refine ih.congr fun w => ?_
      simp only [Task.wildcards]
      rw [hSame, mem_wildcards_of_mem_forms hForm]
  | noDuties => exact .refl _
  | consDuties _ _ ihFirst ihRest => exact ihFirst.trans ihRest
  | exact _ ih =>
      simpa [Task.wildcards, Duty.wildcards, Duty.patterns] using ih
  | within _ _ _ ih =>
      simpa [Task.wildcards, Duty.wildcards, Duty.patterns] using ih
  | fixed _ ih => exact ih
  | ordered _ ih => exact ih
  | statements _ ih => exact ih
  | fixedNil => exact .refl _
  | fixedLast hGlob hBind =>
      obtain ⟨rfl, hExtent⟩ := Node.eq_wildcard_of_glob? hGlob
      simpa [Task.wildcards] using hBind.passes hExtent.symm
  | fixedGlob hGlob hBind _ ih =>
      obtain ⟨rfl, hExtent⟩ := Node.eq_wildcard_of_glob? hGlob
      simpa [Task.wildcards] using (hBind.passes hExtent.symm).trans ih
  | fixedCons _ _ _ ihFirst ihRest => exact ihFirst.trans ihRest
  | scanNil => exact .refl _
  | scanCons _ _ _ _ ihFirst ihRest =>
      rw [Task.wildcards_scan_cons]
      exact ihFirst.trans ihRest
  | scanLast hGlob hBind =>
      obtain ⟨rfl, hExtent⟩ := Node.eq_wildcard_of_glob? hGlob
      simpa [Task.wildcards] using (hBind.passes hExtent.symm).of_anchor
  | @scanGlob dive p q qs w run spot np nc b b' b'' b''' hGlob hBind _ _ ihFirst ihRest =>
      obtain ⟨rfl, hExtent⟩ := Node.eq_wildcard_of_glob? hGlob
      -- what is found at the spot and after it has the wildcards of the patterns after the glob
      have hAll : (Task.scan dive (.wildcard w :: q :: qs)
            (run ++ spot.site :: spot.following)).wildcards =
          [w] ++ (Task.scan dive (q :: qs) (spot.site :: spot.following)).wildcards := by
        simp [Task.wildcards]
      rw [hAll, Task.wildcards_scan_cons]
      exact (hBind.passes hExtent.symm).of_anchor.trans (ihFirst.trans ihRest)
  | whole _ ih =>
      simpa [Task.wildcards] using ih.of_anchor
  | split _ hSplit _ _ _ ihFirst ihSecond =>
      refine (ihFirst.of_anchor.trans ihSecond).congr fun w => ?_
      simp [Task.wildcards, Node.mem_wildcards_split hSplit]
  | merged _ hMerge _ ih =>
      refine ih.of_anchor.congr fun w => ?_
      simp [Task.wildcards, Node.mem_wildcards_merge hMerge]

/-- A solution passes all the names of the pattern. -/
theorem Finds.passes {top : Site} {pattern : Node} {b : Branch}
    (h : conditions.Finds top pattern b) :
    ∃ start : Branch, start.named = [] ∧
      start.Passes conditions.constraints pattern.wildcards b := by
  cases h with
  | statements _ done => exact ⟨.start, rfl, Node.wildcards_program _ ▸ done.passes⟩
  | nothing => exact ⟨.rootedAt top, rfl, Node.wildcards_program [] ▸ .refl _⟩
  | alone done =>
      refine ⟨.rootedAt top, rfl, ?_⟩
      simpa [Task.wildcards] using done.passes
  | @anywhere _ s _ _ done => exact ⟨.rootedAt s, rfl, done.passes⟩

end Conditions

/-- The bindings at the end of a search are those of the names in a list, each of its extent. -/
structure Branch.Covers (b : Branch) (vars : List (String × Extent)) : Prop where
  distinct : (b.named.map Prod.fst).Nodup
  extent : ∀ {name value}, b.find? name = some value → vars.lookup name = some value.extent
  bound : ∀ {name}, (vars.lookup name).isSome → (b.find? name).isSome

namespace Branch.Covers

variable {b : Branch} {vars : List (String × Extent)}

theorem exists_value (h : b.Covers vars) {name : String} {extent : Extent}
    (hLookup : vars.lookup name = some extent) :
    ∃ value, b.find? name = some value ∧ value.extent = extent := by
  obtain ⟨value, hFind⟩ := Option.isSome_iff_exists.1 (h.bound (by rw [hLookup]; rfl))
  have hSame := h.extent hFind
  rw [hLookup] at hSame
  exact ⟨value, hFind, (Option.some.inj hSame).symm⟩

/-- A finished match names what the search has bound. -/
theorem mem_keys_finish_iff (h : b.Covers vars) (fallback : Site) (name : String) :
    name ∈ (b.finish fallback).vars.map Prod.fst ↔ name ∈ vars.map Prod.fst := by
  rw [mem_keys_iff, mem_keys_iff, ← Bindings.find?, b.find?_finish, Branch.value?,
    Option.isSome_map]
  constructor
  · intro hFind
    obtain ⟨value, hFind⟩ := Option.isSome_iff_exists.1 hFind
    rw [h.extent hFind]
    rfl
  · exact h.bound

theorem exists_one (h : b.Covers vars) (fallback : Site) {name : String}
    (hLookup : vars.lookup name = some .scalar) :
    ∃ n, (b.finish fallback).find? name = some (.one n) := by
  obtain ⟨value, hFind, hOne⟩ := h.exists_value hLookup
  rw [b.find?_finish, Branch.value?, hFind]
  cases value with
  | one s => exact ⟨s.node, rfl⟩
  | many ss => cases hOne

theorem exists_many (h : b.Covers vars) (fallback : Site) {name : String}
    (hLookup : vars.lookup name = some .glob) :
    ∃ ns, (b.finish fallback).find? name = some (.many ns) := by
  obtain ⟨value, hFind, hMany⟩ := h.exists_value hLookup
  rw [b.find?_finish, Branch.value?, hFind]
  cases value with
  | one s => cases hMany
  | many ss => exact ⟨ss.map Site.node, rfl⟩

end Branch.Covers

namespace Conditions

variable {conditions : Conditions}

/-- A solution covers all the variables of the pattern. -/
theorem Finds.covers {top : Site} {root : Node} {b : Branch} {vars : List (String × Extent)}
    (h : conditions.Finds top root b)
    (hVars : ∀ name extent, vars.lookup name = some extent ↔
      ⟨some name, extent⟩ ∈ root.wildcards) : b.Covers vars := by
  obtain ⟨start, hStart, hPasses⟩ := h.passes
  refine ⟨hPasses.distinct (by rw [hStart]; exact .nil), ?_, ?_⟩
  · intro name value hFind
    rcases hPasses.made hFind with hOld | hMem
    · rw [Branch.find?, hStart] at hOld
      cases hOld
    · exact (hVars _ _).2 hMem
  · intro name hName
    obtain ⟨extent, hLookup⟩ := Option.isSome_iff_exists.1 hName
    exact hPasses.bound ((hVars _ _).1 hLookup)

/-- At the end of a search every condition with a variable is met. -/
theorem Finds.meets {top : Site} {root : Node} {b : Branch} (h : conditions.Finds top root b) :
    b.Meets conditions.constraints := by
  obtain ⟨start, hStart, hPasses⟩ := h.passes
  refine hPasses.meets ?_
  intro c _ hRead values hValues
  obtain ⟨v, vs, hVs⟩ := List.exists_cons_of_ne_nil hRead
  rw [hVs, List.mapM_cons, Branch.value?, Branch.find?, hStart] at hValues
  cases hValues

/-- What a match binds. The names are those of the pattern, a name for one node has one and a name
for a run has a list, and every condition with a variable has passed on the values that the match
gives to its variables. -/
theorem matched_values_fit {pattern : PatternSource} {compiled : Pattern} {bindings : Bindings}
    {asked : List Inquiry}
    (hCompiled : Pattern.compile pattern conditions.constraints = .ok compiled)
    (hMatched : (∃ source, conditions.matchCode source pattern = .ok (.matched bindings, asked)) ∨
      ∃ n, conditions.matchNode n pattern = .ok (.matched bindings, asked)) :
    (bindings.vars.map Prod.fst).Nodup ∧
    (∀ name, name ∈ bindings.vars.map Prod.fst ↔ name ∈ compiled.vars.map Prod.fst) ∧
    (∀ name, compiled.vars.lookup name = some .scalar → ∃ n, bindings.find? name = some (.one n)) ∧
    (∀ name, compiled.vars.lookup name = some .glob → ∃ ns, bindings.find? name = some (.many ns)) ∧
    ∀ c ∈ conditions.constraints, c.vars ≠ [] →
      ∃ values, c.vars.mapM bindings.find? = some values ∧ c.test values = .pass := by
  obtain ⟨top, b, hFinds, rfl⟩ :
      ∃ top b, conditions.Finds top compiled.root b ∧ bindings = b.finish top := by
    rcases hMatched with ⟨source, hMatched⟩ | ⟨n, hMatched⟩
    · exact exists_finds_of_matchCode hCompiled hMatched
    · exact exists_finds_of_matchNode hCompiled hMatched
  obtain ⟨-, hVars, hKnown⟩ := Pattern.validate_ok (Pattern.compile_ok hCompiled)
  have hCovers := hFinds.covers hVars
  refine ⟨?_, hCovers.mem_keys_finish_iff top, fun name => hCovers.exists_one top,
    fun name => hCovers.exists_many top, ?_⟩
  · simpa [Branch.finish, Function.comp_def] using hCovers.distinct
  · intro c hc hRead
    have hAll : ∀ v ∈ c.vars, ∃ value, b.value? v = some value := by
      intro v hv
      obtain ⟨value, hFind⟩ := Option.isSome_iff_exists.1 (hCovers.bound (hKnown c hc v hv))
      exact ⟨value.capture, by rw [Branch.value?, hFind]; rfl⟩
    obtain ⟨values, hValues⟩ := Constraint.exists_mapM hAll
    refine ⟨values, ?_, hFinds.meets c hc hRead values hValues⟩
    rw [← hValues]
    exact mapM_congr fun v _ => b.find?_finish top v

/-- The pattern `$f(glob$args)` at the call `g(1, 2)`, with a condition on both names. -/
theorem matched_values_fit_call :
    let pattern : Node := .call (.wildcard ⟨some "f", .scalar⟩) [.wildcard ⟨some "args", .glob⟩]
    let conditions : Conditions :=
      ⟨[⟨["args", "f"], fun values => if values.length = 2 then .pass else .fail⟩], none, true⟩
    ∃ bindings asked, conditions.matchNode (.call (.ident "g") [.int 1, .int 2]) (.tree pattern) =
        .ok (.matched bindings, asked) ∧
      (∃ n, bindings.find? "f" = some (.one n)) ∧
      ∃ ns, bindings.find? "args" = some (.many ns) := by
  intro pattern conditions
  have hMatched : (match conditions.matchNode (.call (.ident "g") [.int 1, .int 2])
      (.tree pattern) with
    | .ok (.matched _, _) => true
    | _ => false) = true := by decide +kernel
  have hCompiled : (match Pattern.compile (.tree pattern) conditions.constraints with
    | .ok compiled => decide (compiled.vars.lookup "f" = some .scalar ∧
        compiled.vars.lookup "args" = some .glob)
    | _ => false) = true := by decide +kernel
  split at hMatched
  · next bindings asked hMatch =>
      split at hCompiled
      · next compiled hCompile =>
          have hVars := of_decide_eq_true hCompiled
          obtain ⟨-, -, hOne, hMany, -⟩ := matched_values_fit hCompile (.inr ⟨_, hMatch⟩)
          exact ⟨bindings, asked, hMatch, hOne _ hVars.1, hMany _ hVars.2⟩
      · cases hCompiled
  · cases hMatched

end Conditions

end CodeShape
