import CodeShape.Proofs.Instances
import CodeShape.Proofs.Names

/-! Matching a pattern with its instances. One branch of the search is followed all the way: the one
that binds every name to the value that was filled in. It is among the ways of every task on
instances, so no commitment to an earlier place and no shorter run can lose it. -/
namespace CodeShape

open Pattern (Instance)

/-- The bindings made so far have the values of finished ones. -/
def Branch.Faithful (b : Branch) (bindings : Bindings) : Prop :=
  ∀ {name value}, b.find? name = some value → bindings.find? name = some value.capture

/-- What a faithful branch says of a name is what the bindings say. -/
theorem Branch.Faithful.value? {b : Branch} {bindings : Bindings} (h : b.Faithful bindings)
    {name : String} {value : Capture} (hValue : b.value? name = some value) :
    bindings.find? name = some value := by
  obtain ⟨found, hFound, rfl⟩ := Option.map_eq_some_iff.1 hValue
  exact h hFound

/-- A faithful branch stays so with one more name that the bindings have. -/
theorem Branch.Faithful.snoc {b : Branch} {bindings : Bindings} (h : b.Faithful bindings)
    {name : String} {value : Binding} (hValue : bindings.find? name = some value.capture) :
    Branch.Faithful { b with named := b.named ++ [(name, value)] } bindings := by
  intro v found hFound
  rw [Branch.find?_snoc, Option.or_eq_some_iff] at hFound
  rcases hFound with hOld | ⟨-, hNew⟩
  · exact h hOld
  · split at hNew
    · next hName =>
        cases hNew
        rw [hName, hValue]
    · cases hNew

namespace Constraint

theorem mapM_mono {f g : String → Option Capture}
    (h : ∀ {v value}, f v = some value → g v = some value)
    {names : List String} {values : List Capture} (hValues : names.mapM f = some values) :
    names.mapM g = some values := by
  induction names generalizing values with
  | nil => exact hValues
  | cons v names ih =>
      rw [List.mapM_cons] at hValues
      obtain ⟨value, hValue, hValues⟩ := Option.bind_eq_some_iff.1 hValues
      obtain ⟨rest, hRest, hValues⟩ := Option.bind_eq_some_iff.1 hValues
      rw [List.mapM_cons, h hValue, ih hRest]
      exact hValues

/-- A check passes if every condition that can be asked does. -/
theorem check_pass {value? : String → Option Capture} {constraints : List Constraint}
    (h : ∀ c ∈ constraints, ∀ values, c.vars.mapM value? = some values → c.test values = .pass)
    (name : String) : (check value? name constraints).2 = .pass := by
  refine (check_pass_iff ..).2 (List.all_eq_true.2 fun c hc => ?_)
  cases hValues : c.vars.mapM value? with
  | none => simp
  | some values => simp [h c hc values hValues]

end Constraint

namespace Conditions

/-- Every condition passes on the values of its variables. -/
def PassOn (conditions : Conditions) (bindings : Bindings) : Prop :=
  ∀ c ∈ conditions.constraints, ∀ values, c.vars.mapM bindings.find? = some values →
    c.test values = .pass

/-- Equal values agree, wherever they stand. -/
theorem agree_of_capture_eq (conditions : Conditions) {old new : Binding}
    (h : old.capture = new.capture) : conditions.agree old new := by
  have hNodes : old.sites.map Site.node = new.sites.map Site.node := by
    cases old <;> cases new <;> simp_all [Binding.capture, Binding.sites]
  unfold agree
  extract_lets bare as bs
  have hSame : as = bs := by
    simpa [Function.comp_def] using congrArg (List.map bare) hNodes
  rw [hSame, beq_self_eq_true, Bool.true_and]
  exact Node.all_zip_self fun n _ => Node.equivalent_refl conditions.rules n

end Conditions

namespace Enumeration

variable {e : Enumeration} {bindings : Bindings}

/-- A wildcard can be bound as the bindings say: the constraints that pass on all of them pass on
those made so far. -/
theorem bind_of_faithful (hPass : e.conditions.PassOn bindings) {w : Wildcard} {value : Binding}
    {b : Branch} (hb : b.Faithful bindings)
    (hw : ∀ name, w.name = some name → bindings.find? name = some value.capture) :
    ∃ b' ∈ e.bind w value b, b'.Faithful bindings := by
  obtain ⟨name?, extent⟩ := w
  cases name? with
  | none => exact ⟨_, List.mem_singleton.2 rfl, hb⟩
  | some name =>
      have hValue := hw name rfl
      cases hOld : b.find? name with
      | some old =>
          have hCapture : old.capture = value.capture :=
            Option.some.inj ((hb hOld).symm.trans hValue)
          refine ⟨b, ?_, hb⟩
          simp [bind_eq_check, hOld, e.conditions.agree_of_capture_eq hCapture]
      | none =>
          have hNew : Branch.Faithful { b with named := b.named ++ [(name, value)] } bindings :=
            hb.snoc hValue
          refine ⟨_, ?_, hNew⟩
          have hCheck : (Constraint.check (Branch.value?
              { b with named := b.named ++ [(name, value)] }) name
              e.conditions.constraints).2 = .pass :=
            Constraint.check_pass (fun c hc values hValues =>
              hPass c hc values (Constraint.mapM_mono hNew.value? hValues)) name
          simp only [bind_eq_check, hOld]
          split
          · exact List.mem_singleton.2 rfl
          · next hFail => exact absurd hCheck hFail

/-- A pattern for one node is matched with its instances. -/
def Recognises (e : Enumeration) (bindings : Bindings) (p : Node) : Prop :=
  ∀ (c : Site) (b : Branch), Instance bindings p [c.node] → b.Faithful bindings →
    ∃ b' ∈ e.node p c b, b'.Faithful bindings

section Lists

variable (hPass : e.conditions.PassOn bindings)

include hPass

/-- A fixed list recognises the runs that fill its patterns. -/
theorem fixed_of_instances {ps : List Node} {runs : List (List Node)} {cs : List Site} {b : Branch}
    (hNode : ∀ p ∈ ps, p.glob? = none → e.Recognises bindings p)
    (hRuns : List.Forall₂ (Instance bindings) ps runs) (hcs : cs.map Site.node = runs.flatten)
    (hb : b.Faithful bindings) : ∃ b' ∈ e.fixed ps cs b, b'.Faithful bindings := by
  induction hRuns generalizing cs b with
  | nil => exact ⟨b, List.mem_singleton.2 rfl, hb⟩
  | @cons p run ps runs hRun hRuns ih =>
      obtain ⟨front, back, rfl, rfl, hBack⟩ := List.map_eq_append_iff.1 hcs
      have hRest := fun b hb => ih (b := b) (fun q hq => hNode q (by simp [hq])) hBack hb
      cases hGlob : p.glob? with
      | none =>
          obtain ⟨t, hFront⟩ := hRun.exists_node hGlob
          obtain ⟨c, rfl, rfl⟩ := List.map_eq_singleton_iff.1 hFront
          obtain ⟨b₁, hFirst, hb₁⟩ := hNode p (by simp) hGlob c b hRun hb
          obtain ⟨b₂, hMem, hb₂⟩ := hRest b₁ hb₁
          refine ⟨b₂, ?_, hb₂⟩
          rw [List.singleton_append, e.fixed_cons hGlob]
          exact List.mem_flatMap.2 ⟨b₁, hFirst, hMem⟩
      | some w =>
          have hBind : ∃ b' ∈ e.bind w (.many front) b, b'.Faithful bindings :=
            bind_of_faithful hPass hb fun name hName => hRun.find?_of_glob hGlob hName
          obtain ⟨b₁, hBind, hb₁⟩ := hBind
          cases ps with
          | nil =>
              cases hRuns
              obtain rfl := List.map_eq_nil_iff.1 hBack
              rw [e.fixed_glob_last hGlob, List.append_nil]
              exact ⟨b₁, hBind, hb₁⟩
          | cons q qs =>
              obtain ⟨b₂, hMem, hb₂⟩ := hRest b₁ hb₁
              refine ⟨b₂, ?_, hb₂⟩
              rw [e.fixed_glob hGlob]
              refine List.mem_flatMap.2 ⟨front.length, ?_, ?_⟩
              · rw [List.mem_range, List.length_append]
                omega
              · rw [List.take_left, List.drop_left]
                exact List.mem_flatMap.2 ⟨b₁, hBind, hMem⟩

omit hPass in
/-- What begins at the first place is not lost, even if order matters. -/
theorem mem_scan_of_mem_scanFrom {dive : Bool} {p : Node} {ps : List Node} {c : Site}
    {cs : List Site} {b b' : Branch} (hGlob : p.glob? = none)
    (h : b' ∈ e.scanFrom dive p ps b ⟨c, cs⟩) : b' ∈ e.scan dive (p :: ps) (c :: cs) b := by
  obtain ⟨spots, hSpots⟩ : ∃ spots, Spot.positions dive (c :: cs) = ⟨c, cs⟩ :: spots := by
    cases dive with
    | false => exact ⟨Spot.ofList cs, Spot.positions_false _⟩
    | true =>
        rw [Spot.positions_true, Spot.ofList, List.flatMap_cons, Spot.everywhere_eq]
        exact ⟨_, rfl⟩
  rw [e.scan_cons dive hGlob, hSpots, chosen]
  refine List.mem_flatMap.2 ⟨⟨c, cs⟩, ?_, h⟩
  split
  · have hHere : !(e.atSpot dive p ps ⟨c, cs⟩ b).isEmpty := by
      obtain ⟨t, ht, -⟩ := List.mem_flatMap.1 h
      simpa using List.ne_nil_of_mem ht
    simp [hHere]
  · exact List.mem_cons_self

omit hPass in
theorem scanFrom_of_instance {dive : Bool} {p : Node} {ps : List Node} {c : Site} {cs : List Site}
    {b : Branch} (hNode : e.Recognises bindings p) (hp : Instance bindings p [c.node])
    (hb : b.Faithful bindings)
    (hRest : ∀ b : Branch, b.Faithful bindings →
      ∃ b' ∈ e.scan dive ps cs b, b'.Faithful bindings) :
    ∃ b' ∈ e.scanFrom dive p ps b ⟨c, cs⟩, b'.Faithful bindings := by
  have hAnchored : (b.anchor (some c)).Faithful bindings := hb
  obtain ⟨b₁, hFirst, hb₁⟩ := hNode c _ hp hAnchored
  obtain ⟨b₂, hMem, hb₂⟩ := hRest b₁ hb₁
  have hTaken : ⟨0, 0, b₁⟩ ∈ e.atSpot dive p ps ⟨c, cs⟩ b :=
    List.mem_append_left _ (List.mem_map.2 ⟨b₁, hFirst, rfl⟩)
  exact ⟨b₂, List.mem_flatMap.2 ⟨_, hTaken, hMem⟩, hb₂⟩

/-- A scan recognises the runs that fill its patterns. -/
theorem scan_of_instances {dive : Bool} {ps : List Node} {runs : List (List Node)}
    {cs : List Site} {b : Branch} (hRow : Node.Row ps)
    (hNode : ∀ p ∈ ps, p.glob? = none → e.Recognises bindings p)
    (hRuns : List.Forall₂ (Instance bindings) ps runs) (hcs : cs.map Site.node = runs.flatten)
    (hb : b.Faithful bindings) : ∃ b' ∈ e.scan dive ps cs b, b'.Faithful bindings := by
  induction hLength : ps.length using Nat.strongRecOn generalizing ps runs cs b with
  | ind n ih =>
      cases hRuns with
      | nil =>
          rw [scan_nil]
          exact ⟨b, List.mem_singleton.2 rfl, hb⟩
      | @cons p run ps runs hRun hRuns =>
          obtain ⟨front, back, rfl, rfl, hBack⟩ := List.map_eq_append_iff.1 hcs
          cases hGlob : p.glob? with
          | none =>
              obtain ⟨t, hFront⟩ := hRun.exists_node hGlob
              obtain ⟨c, rfl, rfl⟩ := List.map_eq_singleton_iff.1 hFront
              have hRest := fun b hb => ih ps.length (by simp [← hLength]) (b := b) hRow.tail
                (fun q hq => hNode q (by simp [hq])) hRuns hBack hb rfl
              obtain ⟨b', hMem, hb'⟩ := scanFrom_of_instance (hNode p (by simp) hGlob) hRun hb hRest
              exact ⟨b', mem_scan_of_mem_scanFrom hGlob hMem, hb'⟩
          | some w =>
              have hBind : ∀ b : Branch, b.Faithful bindings →
                  ∃ b' ∈ e.bind w (.many front) b, b'.Faithful bindings := fun b hb =>
                bind_of_faithful hPass hb fun name hName => hRun.find?_of_glob hGlob hName
              cases hRuns with
              | nil =>
                  obtain rfl := List.map_eq_nil_iff.1 hBack
                  rw [e.scan_glob_last dive hGlob, List.append_nil]
                  exact hBind (b.anchor front.head?) hb
              | @cons q next qs runs hNext hRuns =>
                  -- the next element is no glob, so it takes the place right after the run
                  have hq := hRow.next hGlob
                  obtain ⟨t, rfl⟩ := hNext.exists_node hq.noGlob
                  obtain ⟨c, cs, rfl, rfl, hAfter⟩ := List.map_eq_cons_iff.1 hBack
                  have hShort : qs.length < n := by
                    rw [← hLength, List.length_cons, List.length_cons]
                    omega
                  have hRest := fun b hb => ih qs.length hShort (b := b) hRow.tail.tail
                    (fun q hq => hNode q (by simp [hq])) hRuns hAfter hb rfl
                  obtain ⟨b₁, hFirst, hb₁⟩ :=
                    hBind (if front.length = 0 then b else b.anchor (front ++ c :: cs).head?)
                      (by split <;> exact hb)
                  obtain ⟨b₂, hMem, hb₂⟩ :=
                    scanFrom_of_instance (hNode q (by simp) hq.noGlob) hNext hb₁ hRest
                  refine ⟨b₂, ?_, hb₂⟩
                  rw [e.scan_glob dive hGlob]
                  refine List.mem_flatMap.2 ⟨(⟨c, cs⟩, front.length), ?_, ?_⟩
                  · exact Spot.mem_zipIdx_ofList front c cs
                  · rw [List.take_left]
                    exact List.mem_flatMap.2 ⟨b₁, hFirst, hMem⟩

end Lists

/-- Duties that can be done with the values of the given bindings. -/
def Performs (e : Enumeration) (bindings : Bindings) (duties : List Duty) : Prop :=
  ∀ b : Branch, b.Faithful bindings → ∃ b' ∈ e.performAll duties b, b'.Faithful bindings

theorem Performs.nil : e.Performs bindings [] := fun b hb => ⟨b, List.mem_singleton.2 rfl, hb⟩

theorem Performs.one {duty : Duty}
    (h : ∀ b : Branch, b.Faithful bindings → ∃ b' ∈ e.perform duty b, b'.Faithful bindings) :
    e.Performs bindings [duty] := by
  intro b hb
  obtain ⟨b', hMem, hb'⟩ := h b hb
  exact ⟨b', List.mem_flatMap.2 ⟨b', hMem, List.mem_singleton.2 rfl⟩, hb'⟩

theorem Performs.append {duties duties' : List Duty} (h : e.Performs bindings duties)
    (h' : e.Performs bindings duties') : e.Performs bindings (duties ++ duties') := by
  intro b hb
  obtain ⟨b₁, hFirst, hb₁⟩ := h b hb
  obtain ⟨b₂, hRest, hb₂⟩ := h' b₁ hb₁
  exact ⟨b₂, e.performAll_append duties duties' b ▸ List.mem_flatMap.2 ⟨b₁, hFirst, hRest⟩, hb₂⟩

theorem Performs.part {whole : Bool} {p : Node} {c : Site} (hNode : e.Recognises bindings p)
    (hp : Instance bindings p [c.node]) :
    e.Performs bindings [if whole then .exact p c else .below p c] := by
  apply Performs.one
  intro b hb
  obtain ⟨b', hMem, hb'⟩ := hNode c b hp hb
  refine ⟨b', ?_, hb'⟩
  cases whole with
  | true => exact hMem
  | false => exact List.mem_append_left _ hMem

end Enumeration

/-- A block becomes a block of what its statements become; any other statement stands for itself,
before and after. -/
theorem Pattern.Instance.exists_statements {bindings : Bindings} {q : Node} {c : Site}
    (h : Instance bindings q [c.node]) (hq : q.wildcard? = none) :
    ∃ runs, List.Forall₂ (Instance bindings) (Duty.statements q) runs ∧
      c.statements.map Site.node = runs.flatten := by
  unfold Duty.statements
  split
  · next body =>
      obtain ⟨runs, hRuns, hNode⟩ := h.exists_runs rfl rfl
      refine ⟨runs, hRuns, ?_⟩
      have hBlock : c.node = .block runs.flatten := hNode
      rw [Site.statements, hBlock]
      simp [hBlock, Node.children, Node.fields, Field.toList]
  · next hOther =>
      refine ⟨[[c.node]], .cons h .nil, ?_⟩
      have hLabel := (h.exists_slots hq).1
      rw [Site.statements]
      split
      · next body hNode =>
          rw [hNode] at hLabel
          cases q with
          | block body => exact absurd rfl (hOther body)
          | _ => cases hLabel
      · rfl

namespace Enumeration

variable {e : Enumeration} {bindings : Bindings}

/-- What is asked of a slot of a pattern: it is orderly, holds no wildcard for a statement, and all
single patterns in it and in its statements are matched with their instances. -/
structure Ready (e : Enumeration) (bindings : Bindings) (field : Field Node) : Prop where
  settled : Node.Settled field
  guarded : ∀ {q}, field = .stmt (some q) → q.wildcard? = none
  parts : ∀ {p}, p ∈ field.toList → p.Lone → e.Recognises bindings p
  statements : ∀ {q p}, field = .stmt (some q) → p ∈ Duty.statements q → p.Lone →
    e.Recognises bindings p

/-- The duties of a list recognise what fills it. -/
theorem performs_list (hPass : e.conditions.PassOn bindings) {pairing : Pairing} {ps : List Node}
    {runs : List (List Node)} {cs : List Site} (hRow : Node.Row ps)
    (hNode : ∀ p ∈ ps, p.Lone → e.Recognises bindings p)
    (hRuns : List.Forall₂ (Instance bindings) ps runs) (hcs : cs.map Site.node = runs.flatten) :
    e.Performs bindings [.list pairing ps cs] := by
  have hNode : ∀ p ∈ ps, p.glob? = none → e.Recognises bindings p :=
    fun p hp hGlob => hNode p hp ⟨hGlob, hRow.orderly p hp⟩
  apply Performs.one
  intro b hb
  cases pairing with
  | fixed => exact fixed_of_instances hPass hNode hRuns hcs hb
  | ordered => exact scan_of_instances hPass hRow hNode hRuns hcs hb
  | statements => exact scan_of_instances hPass hRow hNode hRuns hcs hb

theorem Ready.performs (hPass : e.conditions.PassOn bindings) (whole : Bool) {f : Field Node}
    {g : Field (List Node)} {s : Field Site} (h : e.Ready bindings f)
    (hSlot : Field.Related (Instance bindings) f g) (hs : s.map Site.node = Node.settle g) :
    ∃ duties, Duty.ofSlots? whole f s = some duties ∧ e.Performs bindings duties := by
  have hPart : ∀ {p run c}, p ∈ f.toList → p.Lone → Instance bindings p run →
      c.node = Node.ofRun run →
      e.Performs bindings [if whole then Duty.exact p c else Duty.below p c] := by
    intro p run c hMem hLone hRun hc
    obtain ⟨t, rfl⟩ := hRun.exists_node hLone.noGlob
    cases hc
    exact .part (h.parts hMem hLone) hRun
  cases hSlot with
  | @one p run hRun =>
      cases s with
      | one c => exact ⟨_, rfl, hPart (by simp [Field.toList]) h.settled hRun (Field.one.inj hs)⟩
      | _ => cases hs
  | optNone => exact ⟨[], rfl, .nil⟩
  | stmtNone => exact ⟨[], rfl, .nil⟩
  | @optSome p run hRun =>
      cases s with
      | opt c? =>
          cases c? with
          | none => cases hs
          | some c =>
              have hc : c.node = Node.ofRun run := Option.some.inj (Field.opt.inj hs)
              exact ⟨_, rfl, hPart (by simp [Field.toList]) h.settled hRun hc⟩
      | _ => cases hs
  | @stmtSome q run hRun =>
      cases s with
      | stmt c? =>
          cases c? with
          | none => cases hs
          | some c =>
              have hc : c.node = Node.ofRun run := Option.some.inj (Field.stmt.inj hs)
              have hq := h.guarded rfl
              obtain ⟨t, rfl⟩ := hRun.exists_node (Node.glob?_of_wildcard? hq)
              cases hc
              obtain ⟨runs, hRuns, hStatements⟩ := hRun.exists_statements hq
              exact ⟨_, rfl, performs_list hPass (Node.row_statements h.settled)
                (fun p hp hLone => h.statements rfl hp hLone) hRuns hStatements⟩
      | _ => cases hs
  | @seq pairing ps runs hRuns =>
      cases s with
      | seq pairing' cs =>
          obtain ⟨-, hcs⟩ := Field.seq.inj hs
          exact ⟨_, rfl, performs_list hPass h.settled (fun p hp hLone => h.parts hp hLone)
            hRuns hcs⟩
      | _ => cases hs

/-- The duties of a row of slots recognise what fills them. -/
theorem performs_slots (hPass : e.conditions.PassOn bindings) (whole : Bool)
    {fs : List (Field Node)} {gs : List (Field (List Node))} {ss : List (Field Site)}
    (h : ∀ f ∈ fs, e.Ready bindings f)
    (hSlots : List.Forall₂ (Field.Related (Instance bindings)) fs gs)
    (hss : ss.map (Field.map Site.node) = gs.map Node.settle) :
    ∃ duties, Duty.ofFields? whole fs ss = some duties ∧ e.Performs bindings duties := by
  induction hSlots generalizing ss with
  | nil => exact ⟨[], rfl, .nil⟩
  | @cons f g fs gs hSlot _ ih =>
      obtain ⟨s, ss, rfl, hs, hss⟩ := List.map_eq_cons_iff.1 hss
      obtain ⟨first, hFirst, hDone⟩ := (h f (by simp)).performs hPass whole hSlot hs
      obtain ⟨rest, hRest, hMore⟩ := ih (fun f hf => h f (by simp [hf])) hss
      refine ⟨first ++ rest, ?_, hDone.append hMore⟩
      rw [Duty.ofFields?, hFirst, hRest]
      rfl

end Enumeration

namespace Node

/-- No wildcard stands alone where a statement of its own has to be. -/
def Guarded (p : Node) : Prop :=
  ∀ n ∈ p.descendants, ∀ c, .stmt (some c) ∈ n.fields → c.wildcard? = none

instance (p : Node) : Decidable p.Guarded :=
  decidable_of_iff (p.descendants.all fun n => n.fields.all fun
    | .stmt (some c) => c.wildcard?.isNone
    | _ => true) <| by
    simp only [List.all_eq_true, Guarded]
    refine forall₂_congr fun n _ => ⟨fun h c hc => by simpa using h _ hc, fun h field hField => ?_⟩
    split
    · next c => simpa using h c hField
    · rfl

theorem Guarded.child {p c : Node} (h : p.Guarded) (hc : c ∈ p.children) : c.Guarded :=
  fun n hn => h n (mem_descendants_of_child hc hn)

theorem Guarded.slot {p c : Node} (h : p.Guarded) (hc : .stmt (some c) ∈ p.fields) :
    c.wildcard? = none :=
  h p p.mem_descendants_self c hc

end Node

namespace Conditions

variable {conditions : Conditions} {bindings : Bindings}

/-- A single pattern is matched with its instances. -/
theorem recognises (hPass : conditions.PassOn bindings) {p : Node} (hLone : p.Lone)
    (hGuarded : p.Guarded) : conditions.enumeration.Recognises bindings p := by
  induction hSize : sizeOf p using Nat.strongRecOn generalizing p with
  | ind size ih =>
      intro c b hInstance hb
      change ∃ b' ∈ conditions.ways p c b, b'.Faithful bindings
      rw [ways_eq_step]
      cases hWild : p.wildcard? with
      | some w =>
          obtain rfl := Node.eq_wildcard_of_wildcard? hWild
          have hScalar := Node.extent_of_glob? hLone.noGlob
          obtain ⟨t, hNode, hFind⟩ := hInstance.find?_of_scalar hScalar
          obtain rfl := List.singleton_inj.1 hNode
          refine Enumeration.bind_of_faithful hPass hb fun name hName => ?_
          rw [hFind name hName, Wildcard.valueAt, hScalar]
          rfl
      | none =>
          cases hp : p.isConcrete with
          | false =>
              cases p with
              | hole => exact ⟨b, List.mem_singleton.2 rfl, hb⟩
              | wildcard w => cases hWild
              | _ => cases hp
          | true =>
              obtain ⟨hLabel, gs, hSlots, hFields⟩ := hInstance.exists_slots hWild
              have hReady : ∀ field ∈ p.fields, conditions.enumeration.Ready bindings field := by
                intro field hField
                have hChild : ∀ {q}, q ∈ field.toList → q ∈ p.children :=
                  fun hq => List.mem_flatMap.2 ⟨field, hField, hq⟩
                have hSmall : ∀ {q}, q ∈ p.children → sizeOf q < size :=
                  fun hq => hSize ▸ Node.sizeOf_lt_of_mem_children hq
                refine ⟨Node.orderly_iff.1 hLone.orderly field hField, ?_, ?_, ?_⟩
                · rintro q rfl
                  exact hGuarded.slot hField
                · intro q hq hLone
                  exact ih _ (hSmall (hChild hq)) hLone (hGuarded.child (hChild hq)) rfl
                · rintro q r rfl hr hLone
                  have hq := hChild (q := q) (by simp [Field.toList])
                  rcases Duty.mem_statements hr with rfl | hr
                  · exact ih _ (hSmall hq) hLone (hGuarded.child hq) rfl
                  · exact ih _ (Nat.lt_trans (Node.sizeOf_lt_of_mem_children hr) (hSmall hq)) hLone
                      ((hGuarded.child hq).child hr) rfl
              have hSites : c.fields.map (Field.map Site.node) = gs.map Node.settle := by
                rw [c.map_node_fields, hFields]
              obtain ⟨duties, hDuties, hDone⟩ :=
                Enumeration.performs_slots hPass (Duty.wholeOnly p) hReady hSlots hSites
              obtain ⟨b', hMem, hb'⟩ := hDone b hb
              refine ⟨b', ?_, hb'⟩
              rw [Enumeration.step_concrete _ hp]
              -- its own form is the first that is tried
              refine List.mem_flatMap.2 ⟨p, List.mem_cons_self, ?_⟩
              rw [Enumeration.sameForm_eq_performAll, if_pos (Node.sameShape_of_label_eq hLabel.symm),
                Duty.ofNodes?_eq, hDuties]
              exact hMem

/-- Matching a pattern with an instance of it has a solution. -/
theorem exists_solution_of_instance (hPass : conditions.PassOn bindings) {root t : Node}
    (hLone : root.Lone) (hGuarded : root.Guarded) (h : Instance bindings root [t]) :
    ∃ b, b ∈ (conditions.searchNode root (.root t)).solutions := by
  have hNode : ∃ b, b ∈ (conditions.node root (.root t) (.rootedAt (.root t))).solutions := by
    have hStart : (Branch.rootedAt (.root t)).Faithful bindings := by
      intro name value hFind
      cases hFind
    obtain ⟨b, hMem, -⟩ := recognises hPass hLone hGuarded (.root t) _ h hStart
    exact ⟨b, by rw [solutions_node]; exact hMem⟩
  cases root with
  | program ps =>
      obtain ⟨runs, hRuns, rfl⟩ := h.exists_runs rfl rfl
      have hRow : Node.Row ps :=
        Node.orderly_iff.1 hLone.orderly (.seq .statements ps) (by simp [Node.fields])
      have hParts : ∀ p ∈ ps, p.glob? = none → conditions.enumeration.Recognises bindings p := by
        intro p hp hGlob
        refine recognises hPass ⟨hGlob, hRow.orderly p hp⟩ (hGuarded.child ?_)
        simpa [Node.children, Node.fields, Field.toList] using hp
      have hStart : Branch.start.Faithful bindings := by
        intro name value hFind
        cases hFind
      have hChildren : (Site.root (.program runs.flatten)).children.map Site.node =
          runs.flatten := by
        simp [Site.root, Node.children, Node.fields, Field.toList]
      change ∃ b, b ∈ (conditions.body ps (Site.root (.program runs.flatten)).children
        .start).solutions
      rw [solutions_body]
      obtain ⟨b, hMem, -⟩ :=
        Enumeration.scan_of_instances hPass hRow hParts hRuns hChildren hStart
      exact ⟨b, hMem⟩
  | _ => exact hNode

/-- A pattern matches all of its instances. Fill a pattern that is no glob and in which no wildcard
stands for a statement of its own, with nameless values of the right extents. The pattern matches
what comes out, whatever the rules and whether or not order matters, if the conditions pass on the
values. -/
theorem matches_instances {conditions : Conditions} {pattern : PatternSource} {compiled : Pattern}
    {bindings : Bindings} {t : Node}
    (hCompiled : Pattern.compile pattern conditions.constraints = .ok compiled)
    (hRoot : compiled.root.glob? = none) (hGuarded : compiled.root.Guarded)
    (hFilled : compiled.inject bindings = .ok t)
    (hFit : Pattern.Fit compiled.root.wildcards bindings.anonymous)
    (hPass : conditions.PassOn bindings) :
    ∃ found asked, conditions.matchNode t pattern = .ok (.matched found, asked) := by
  obtain ⟨hOrder, -, -⟩ := Pattern.validate_ok (Pattern.compile_ok hCompiled)
  rw [Pattern.inject_eq] at hFilled
  cases hFill : (Pattern.fill bindings compiled.root).run ⟨bindings.anonymous, 0⟩ with
  | error e =>
      rw [hFill] at hFilled
      cases hFilled
  | ok result =>
      obtain ⟨run, supply⟩ := result
      rw [hFill] at hFilled
      obtain ⟨hInstance, -⟩ := Pattern.instance_of_fills hFill hFit
      obtain ⟨t, rfl⟩ := hInstance.exists_node hRoot
      cases hFilled
      obtain ⟨b, hb⟩ := exists_solution_of_instance hPass ⟨hRoot, hOrder⟩ hGuarded hInstance
      obtain ⟨found, asked, hOutcome⟩ := Outcome.exists_matched hb (.root t)
      refine ⟨found, asked, ?_⟩
      rw [matchNode, hCompiled]
      exact congrArg Except.ok hOutcome

/-- The loop `while ($c) { glob$body; f(_); }`, filled with no statements for its body. -/
theorem matches_instances_loop :
    let pattern : Node := .program [.whileLoop (.wildcard ⟨some "c", .scalar⟩)
      (.block [.wildcard ⟨some "body", .glob⟩,
        .expr (.call (.ident "f") [.wildcard ⟨none, .scalar⟩])])]
    let bindings : Bindings :=
      ⟨[.one (.int 1)], [("c", .one (.ident "x")), ("body", .many [])], .empty⟩
    let conditions : Conditions :=
      ⟨[⟨["c", "body"], fun values => if values.length = 2 then .pass else .fail⟩], some .all, true⟩
    ∃ compiled t found asked,
      Pattern.compile (.tree pattern) conditions.constraints = .ok compiled ∧
      compiled.inject bindings = .ok t ∧
      conditions.matchNode t (.tree pattern) = .ok (.matched found, asked) := by
  intro pattern bindings conditions
  have hFilled : (match Pattern.compile (.tree pattern) conditions.constraints with
    | .ok compiled =>
      match compiled.inject bindings with
      | .ok _ => true
      | .error _ => false
    | .error _ => false) = true := by decide +kernel
  split at hFilled
  · next compiled hCompiled =>
      split at hFilled
      · next t hInjected =>
          have hRoot : compiled.root = pattern := Pattern.root_of_compile hCompiled
          have hPass : conditions.PassOn bindings := by
            intro c hc values hValues
            obtain rfl := List.mem_singleton.1 hc
            cases hValues
            rfl
          obtain ⟨found, asked, hMatched⟩ := matches_instances hCompiled (by rw [hRoot]; rfl)
            (by rw [hRoot]; decide +kernel) hInjected (by rw [hRoot]; decide +kernel) hPass
          exact ⟨compiled, t, found, asked, hCompiled, hInjected, hMatched⟩
      · cases hFilled
  · cases hFilled

end Conditions

end CodeShape
