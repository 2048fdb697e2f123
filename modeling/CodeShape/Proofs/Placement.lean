import CodeShape.Proofs.Derivation
import CodeShape.Proofs.Lanes
import CodeShape.Proofs.Validation

/-! Where a match binds. The parts of a pattern are matched with parts of the program that are
apart, so no site is bound twice; a run stands in a list, and what comes right after it there starts
no other run. -/
namespace CodeShape

open Site

/-- The site is part of a run that a name is bound to. -/
def InRun (named : List (String × Binding)) (s : Site) : Prop :=
  ∃ name run, (name, Binding.many run) ∈ named ∧ s ∈ run

theorem InRun.of_append {named named' : List (String × Binding)} {s : Site}
    (h : InRun (named ++ named') s) : InRun named s ∨ InRun named' s := by
  obtain ⟨name, run, hMem, hs⟩ := h
  rcases List.mem_append.1 hMem with hMem | hMem
  · exact .inl ⟨name, run, hMem, hs⟩
  · exact .inr ⟨name, run, hMem, hs⟩

/-- Bindings that lie at or below the sites of a region. -/
structure Placed (top : Site) (region : List Site) (named : List (String × Binding)) : Prop where
  inside : ∀ entry ∈ named, ∀ s ∈ entry.2.sites, ∃ c ∈ region, s ∈ c.descendants
  distinct : (named.flatMap fun entry => entry.2.sites).Nodup
  housed : ∀ {name run}, (name, Binding.many run) ∈ named → ∃ list, Houses top list ∧ run <:+: list
  fenced : ∀ {name run s name' t run'}, (name, Binding.many (run ++ [s])) ∈ named →
    (name', Binding.many (t :: run')) ∈ named → ¬ Beside top s t

namespace Placed

variable {top : Site} {region region' : List Site} {named named' : List (String × Binding)}

theorem nil : Placed top region [] := ⟨by simp, by simp, by simp, by simp⟩

/-- A placement in a region is one in every region that holds it. -/
theorem widen (h : Placed top region named)
    (hWide : ∀ c ∈ region, ∃ c' ∈ region', c ∈ c'.descendants) : Placed top region' named where
  inside entry hEntry s hs := by
    obtain ⟨c, hc, hsBelow⟩ := h.inside entry hEntry s hs
    obtain ⟨c', hc', hBelow⟩ := hWide c hc
    exact ⟨c', hc', mem_descendants_trans hBelow hsBelow⟩
  distinct := h.distinct
  housed := h.housed
  fenced := h.fenced

/-- A run lies in the region where its bindings are placed. -/
theorem inside_run (h : Placed top region named) {s : Site} (hs : InRun named s) :
    ∃ c ∈ region, s ∈ c.descendants := by
  obtain ⟨name, run, hMem, hs⟩ := hs
  exact h.inside _ hMem s hs

theorem one (name : String) (s : Site) : Placed top [s] [(name, .one s)] where
  inside entry hEntry t ht := by
    obtain rfl := List.mem_singleton.1 hEntry
    exact ⟨s, by simp, List.mem_singleton.1 ht ▸ mem_descendants_self s⟩
  distinct := by simp [Binding.sites]
  housed hMem := by simp at hMem
  fenced hMem := by simp at hMem

/-- The front of a lane as a run. -/
theorem run (name : String) {run rest : List Site} (h : Lane top (run ++ rest)) :
    Placed top run [(name, .many run)] where
  inside entry hEntry s hs := by
    obtain rfl := List.mem_singleton.1 hEntry
    exact ⟨s, hs, mem_descendants_self s⟩
  distinct := by
    have hNodup := (List.nodup_append.1 h.nodup).1
    simpa [Binding.sites] using hNodup
  housed hMem := by
    cases List.mem_singleton.1 hMem
    obtain ⟨list, hList, hTail⟩ := h
    exact ⟨list, hList, (List.prefix_append run rest).isInfix.trans hTail.isInfix⟩
  fenced {_ init s _ t tail} hLast hFirst hBeside := by
    simp only [List.mem_singleton, Prod.mk.injEq, Binding.many.injEq] at hLast hFirst
    obtain rfl := hFirst.2
    have hSame := hLast.2
    cases init with
    | nil =>
        obtain ⟨rfl, -⟩ := List.cons.inj hSame
        exact Lane.not_beside_self hBeside
    | cons t' init =>
        obtain ⟨-, rfl⟩ := List.cons.inj hSame
        exact Lane.not_beside_back h (by simp) hBeside

/-- Bindings in regions that are apart. Neighbours across the two regions must not both be in
runs. -/
theorem append (h : Placed top region named) (h' : Placed top region' named')
    (hTop : ∀ c ∈ region, c ∈ top.descendants) (hTop' : ∀ c ∈ region', c ∈ top.descendants)
    (hApart : ∀ c ∈ region, ∀ c' ∈ region', Apart c c')
    (hFence : ∀ c ∈ region, ∀ c' ∈ region', InRun named c → InRun named' c' →
      ¬ Beside top c c' ∧ ¬ Beside top c' c) :
    Placed top (region ++ region') (named ++ named') := by
  -- two runs side by side on the two sides start and end in members of the regions
  have hSides : ∀ {s t}, InRun named s → InRun named' t →
      ¬ Beside top s t ∧ ¬ Beside top t s := by
    intro s t hs ht
    obtain ⟨c, hc, hsBelow⟩ := h.inside_run hs
    obtain ⟨c', hc', htBelow⟩ := h'.inside_run ht
    have hSame := eq_of_beside (hTop c hc) (hTop' c' hc') (hApart c hc c' hc') hsBelow htBelow
    constructor
    · intro hBeside
      obtain ⟨rfl, rfl⟩ := hSame (.inl hBeside)
      exact (hFence s hc t hc' hs ht).1 hBeside
    · intro hBeside
      obtain ⟨rfl, rfl⟩ := hSame (.inr hBeside)
      exact (hFence s hc t hc' hs ht).2 hBeside
  refine ⟨?_, ?_, ?_, ?_⟩
  · intro entry hEntry s hs
    rcases List.mem_append.1 hEntry with hEntry | hEntry
    · obtain ⟨c, hc, hBelow⟩ := h.inside entry hEntry s hs
      exact ⟨c, by simp [hc], hBelow⟩
    · obtain ⟨c, hc, hBelow⟩ := h'.inside entry hEntry s hs
      exact ⟨c, by simp [hc], hBelow⟩
  · rw [List.flatMap_append]
    refine List.nodup_append.2 ⟨h.distinct, h'.distinct, ?_⟩
    intro s hs t ht
    obtain ⟨entry, hEntry, hs⟩ := List.mem_flatMap.1 hs
    obtain ⟨entry', hEntry', ht⟩ := List.mem_flatMap.1 ht
    obtain ⟨c, hc, hsBelow⟩ := h.inside entry hEntry s hs
    obtain ⟨c', hc', htBelow⟩ := h'.inside entry' hEntry' t ht
    exact ((hApart c hc c' hc').descendants hsBelow htBelow).ne
  · intro name run hMem
    rcases List.mem_append.1 hMem with hMem | hMem
    · exact h.housed hMem
    · exact h'.housed hMem
  · intro name run s name' t run' hLast hFirst
    rcases List.mem_append.1 hLast with hLast | hLast <;>
      rcases List.mem_append.1 hFirst with hFirst | hFirst
    · exact h.fenced hLast hFirst
    · exact (hSides ⟨_, _, hLast, by simp⟩ ⟨_, _, hFirst, by simp⟩).1
    · exact (hSides ⟨_, _, hFirst, by simp⟩ ⟨_, _, hLast, by simp⟩).2
    · exact h'.fenced hLast hFirst

end Placed

/-- New bindings that lie in a region, and no run of which reaches a closed site. -/
def Lays (top : Site) (region closed : List Site) (b b' : Branch) : Prop :=
  ∃ added, b'.named = b.named ++ added ∧ Placed top region added ∧ ∀ s ∈ closed, ¬ InRun added s

namespace Lays

variable {top : Site} {region region' closed closed' : List Site} {b b' b'' : Branch}

theorem nothing : Lays top region closed b b :=
  ⟨[], by simp, .nil, fun _ _ h => by obtain ⟨_, _, hMem, _⟩ := h; cases hMem⟩

theorem of_anchor {s : Option Site} (h : Lays top region closed (b.anchor s) b') :
    Lays top region closed b b' := h

/-- A binding laid in a region is laid in every region that holds it. -/
theorem mono (h : Lays top region closed b b')
    (hWide : ∀ c ∈ region, ∃ c' ∈ region', c ∈ c'.descendants) (hClosed : closed' ⊆ closed) :
    Lays top region' closed' b b' := by
  obtain ⟨added, hNamed, hPlaced, hOpen⟩ := h
  exact ⟨added, hNamed, hPlaced.widen hWide, fun s hs => hOpen s (hClosed hs)⟩

theorem reopen (h : Lays top region closed b b') (hClosed : closed' ⊆ closed) :
    Lays top region closed' b b' :=
  h.mono (fun c hc => ⟨c, hc, mem_descendants_self c⟩) hClosed

/-- What is laid in one region and then in a remote one is laid in both. -/
theorem append (h : Lays top region closed b b') (h' : Lays top region' closed' b' b'')
    (hSub : closed ⊆ region) (hSub' : closed' ⊆ region')
    (hTop : ∀ c ∈ region, c ∈ top.descendants) (hTop' : ∀ c ∈ region', c ∈ top.descendants)
    (hApart : ∀ c ∈ region, ∀ c' ∈ region', Apart c c')
    (hFence : ∀ c ∈ region, ∀ c' ∈ region', Beside top c c' ∨ Beside top c' c →
      c ∈ closed ∨ c' ∈ closed') :
    Lays top (region ++ region') (closed ++ closed') b b'' := by
  obtain ⟨added, hNamed, hPlaced, hOpen⟩ := h
  obtain ⟨added', hNamed', hPlaced', hOpen'⟩ := h'
  have hKept : ∀ c ∈ region, ∀ c' ∈ region', InRun added c → InRun added' c' →
      ¬ (Beside top c c' ∨ Beside top c' c) := by
    intro c hc c' hc' hRun hRun' hBeside
    rcases hFence c hc c' hc' hBeside with hClosed | hClosed
    · exact hOpen c hClosed hRun
    · exact hOpen' c' hClosed hRun'
  refine ⟨added ++ added', by rw [hNamed', hNamed, List.append_assoc], ?_, ?_⟩
  · refine hPlaced.append hPlaced' hTop hTop' hApart fun c hc c' hc' hRun hRun' => ?_
    exact not_or.1 (hKept c hc c' hc' hRun hRun')
  · intro s hs hRun
    rcases List.mem_append.1 hs with hs | hs <;> rcases hRun.of_append with hRun | hRun
    · exact hOpen s hs hRun
    · obtain ⟨c', hc', hBelow⟩ := hPlaced'.inside_run hRun
      exact hApart s (hSub hs) c' hc' s.path (List.prefix_refl _) (path_leads hBelow)
    · obtain ⟨c, hc, hBelow⟩ := hPlaced.inside_run hRun
      exact hApart c hc s (hSub' hs) s.path (path_leads hBelow) (List.prefix_refl _)
    · exact hOpen' s hs hRun

/-- Bindings below the children of a site leave the site itself out of their runs. -/
theorem of_children {c : Site} (h : Lays top region closed b b')
    (hBelow : ∀ s ∈ region, ∃ x ∈ c.children, s ∈ x.descendants) : Lays top [c] [c] b b' := by
  obtain ⟨added, hNamed, hPlaced, -⟩ := h
  refine ⟨added, hNamed, hPlaced.widen fun s hs => ?_, fun s hs hRun => ?_⟩
  · obtain ⟨x, hx, hBelow⟩ := hBelow s hs
    exact ⟨c, by simp, mem_descendants_of_child hx hBelow⟩
  · obtain rfl := List.mem_singleton.1 hs
    obtain ⟨s', hs', hInside⟩ := hPlaced.inside_run hRun
    obtain ⟨x, hx, hBelow⟩ := hBelow s' hs'
    have hHigh := height_lt_of_mem_children hx
    have hLow := height_le_of_mem_descendants (mem_descendants_trans hBelow hInside)
    omega

/-- Two parts of a lane, one right after the other. Only the last site of the first part and the
first of the second are neighbours. -/
theorem append_lane (rest : List Site) (h : Lays top region closed b b')
    (h' : Lays top region' closed' b' b'') (hSub : closed ⊆ region) (hSub' : closed' ⊆ region')
    (hLane : Lane top (region ++ (region' ++ rest)))
    (hFence : region ⊆ closed ∨ ∀ c ∈ region'.head?, c ∈ closed') :
    Lays top (region ++ region') (closed ++ closed') b b'' := by
  refine h.append h' hSub hSub' ?_ ?_ ?_ ?_
  · exact fun c hc => hLane.mem_descendants (by simp [hc])
  · exact fun c hc => hLane.mem_descendants (by simp [hc])
  · exact fun c hc c' hc' => (hLane.apart_append hc (by simp [hc'])).1
  · intro c hc c' hc' hBeside
    rcases hFence with hAll | hHead
    · exact .inl (hAll hc)
    · rcases hBeside with hBeside | hBeside
      · cases region' with
        | nil => cases hc'
        | cons r region' =>
            rcases List.mem_cons.1 hc' with rfl | hLater
            · exact .inr (hHead c' rfl)
            · exact absurd hBeside (hLane.not_beside_append hc (by simp [hLater]))
      · exact absurd hBeside (hLane.apart_append hc (by simp [hc'])).2

end Lays

namespace Conditions.Binds

variable {conditions : Conditions} {top : Site} {w : Wildcard} {b b' : Branch}

theorem named_eq {value : Binding} (h : conditions.Binds w value b b') :
    b'.named = b.named ∨ ∃ name, b'.named = b.named ++ [(name, value)] := by
  cases h with
  | nameless => exact .inl rfl
  | again => exact .inl rfl
  | @fresh name => exact .inr ⟨name, rfl⟩

/-- A wildcard lays its one subtree. -/
theorem lays_one {c : Site} (h : conditions.Binds w (.one c) b b') : Lays top [c] [c] b b' := by
  rcases h.named_eq with hNamed | ⟨name, hNamed⟩
  · exact ⟨[], by simp [hNamed], .nil, fun _ _ h => by obtain ⟨_, _, hMem, _⟩ := h; cases hMem⟩
  · refine ⟨_, hNamed, .one name c, ?_⟩
    rintro s hs ⟨name', run, hMem, -⟩
    simp at hMem

/-- A glob lays its run, and what comes after it in the lane stays free. -/
theorem lays_run {run : List Site} (rest : List Site) (h : conditions.Binds w (.many run) b b')
    (hLane : Lane top (run ++ rest)) : Lays top run [] b b' := by
  rcases h.named_eq with hNamed | ⟨name, hNamed⟩
  · exact ⟨[], by simp [hNamed], .nil, by simp⟩
  · exact ⟨_, hNamed, .run name hLane, by simp⟩

end Conditions.Binds

/-- The pattern of a duty is orderly, and the candidates are in the tree. -/
def Duty.Tidy (top : Site) : Duty → Prop
  | exact p c | below p c => p.Lone ∧ c ∈ top.descendants
  | list _ ps cs => Node.Row ps ∧ Lane top cs

theorem Duty.Tidy.mem_descendants {top : Site} {duty : Duty} (h : duty.Tidy top) {s : Site}
    (hs : s ∈ duty.sites) : s ∈ top.descendants := by
  cases duty with
  | exact p c | below p c =>
      rw [List.mem_singleton.1 hs]
      exact h.2
  | list pairing ps cs => exact h.2.mem_descendants hs

theorem Duty.tidy_of_ofFields? {top : Site} {whole : Bool} {fs : List (Field Node)}
    {gs : List (Field Site)} {duties : List Duty} (h : ofFields? whole fs gs = some duties)
    (hPattern : ∀ f ∈ fs, Node.Settled f) {d : Site} (hd : d ∈ top.descendants)
    (hSlots : gs ⊆ d.fields) : ∀ duty ∈ duties, duty.Tidy top := by
  have hAlong := along_of_ofFields? h hd hSlots
  clear hSlots
  induction fs generalizing gs duties with
  | nil =>
      cases h
      simp
  | cons f fs ih =>
      cases gs with
      | nil =>
          cases h
          simp
      | cons g gs =>
          obtain ⟨first, rest, hFirst, hRest, rfl⟩ := ofFields?_cons h
          obtain ⟨hHere, hLater⟩ := List.forall_mem_append.1 hAlong
          have hf := hPattern f (by simp)
          refine List.forall_mem_append.2
            ⟨?_, ih hRest (fun f' hf' => hPattern f' (by simp [hf'])) hLater⟩
          intro duty hDuty
          have hDutyAlong := hHere duty hDuty
          rcases ofSlots?_cases hFirst with
            ⟨p, c, hPair, rfl⟩ | ⟨p, c, rfl, rfl, rfl⟩ | ⟨_, _, ps, cs, rfl, rfl, rfl⟩ | ⟨-, rfl⟩
          · obtain rfl := List.mem_singleton.1 hDuty
            have hp : p.Lone := by
              rcases hPair with ⟨rfl, -⟩ | ⟨rfl, -⟩ <;> exact hf
            cases whole <;> exact ⟨hp, hDutyAlong⟩
          · obtain rfl := List.mem_singleton.1 hDuty
            exact ⟨Node.row_statements hf, hDutyAlong⟩
          · obtain rfl := List.mem_singleton.1 hDuty
            exact ⟨hf, hDutyAlong⟩
          · cases hDuty

namespace Task

def sites : Task → List Site
  | node _ c => [c]
  | duty d => d.sites
  | duties ds => ds.flatMap Duty.sites
  | fixed _ cs | scan _ _ cs => cs
  | spot _ _ _ place _ nc => place.site :: place.following.take nc

/-- The places that no run of the task can reach. -/
def closed : Task → List Site
  | node _ c => [c]
  | fixed (p :: _) cs => if p.glob?.isNone then cs.take 1 else []
  | spot _ _ _ place _ nc => place.site :: place.following.take nc
  | _ => []

/-- The pattern of a task is orderly, and its candidates are in the tree. -/
def Tidy (top : Site) : Task → Prop
  | node p c => p.Lone ∧ c ∈ top.descendants
  | duty d => d.Tidy top
  | duties ds => (∀ d ∈ ds, d.Tidy top) ∧ ds.Pairwise (Duty.Remote top)
  | fixed ps cs | scan _ ps cs => Node.Row ps ∧ Lane top cs
  | spot _ p ps place _ _ =>
    p.Lone ∧ Node.Row (p :: ps) ∧ Lane top (place.site :: place.following)

end Task

namespace Conditions

variable {conditions : Conditions} {top : Site}

/-- A scan goes on with an element and what follows it, each in its own part of the lane. -/
theorem lays_onward {dive : Bool} {p : Node} {ps : List Node} {spot : Spot} {np nc : Nat}
    {b b' b'' : Branch} (hLane : Lane top (spot.site :: spot.following))
    (hFirst : Lays top (Task.spot dive p ps spot np nc).sites
      (Task.spot dive p ps spot np nc).closed b b')
    (hRest : Lays top (spot.following.drop nc) [] b' b'') :
    Lays top (spot.site :: spot.following) [spot.site] b b'' := by
  have hParts : (Task.spot dive p ps spot np nc).sites ++ spot.following.drop nc =
      spot.site :: spot.following := by
    rw [Task.sites, List.cons_append, List.take_append_drop]
  have hJoined := hFirst.append_lane [] hRest (List.Subset.refl _) (by simp)
    (by rw [List.append_nil, hParts]; exact hLane) (.inl (List.Subset.refl _))
  rw [hParts] at hJoined
  exact hJoined.reopen (by simp [Task.closed])

/-- Duties on remote parts of the tree do not disturb each other. -/
theorem lays_duties {duty : Duty} {duties : List Duty} {b b' b'' : Branch}
    (hTidy : (Task.duties (duty :: duties)).Tidy top) (hFirst : Lays top duty.sites [] b b')
    (hRest : Lays top (duties.flatMap Duty.sites) [] b' b'') :
    Lays top ((duty :: duties).flatMap Duty.sites) [] b b'' := by
  obtain ⟨hEach, hRemote⟩ := hTidy
  have hApart : ∀ s ∈ duty.sites, ∀ t ∈ duties.flatMap Duty.sites, Remote top s t := by
    intro s hs t ht
    obtain ⟨d, hd, ht⟩ := List.mem_flatMap.1 ht
    exact (List.pairwise_cons.1 hRemote).1 d hd s hs t ht
  refine hFirst.append hRest (List.nil_subset _) (List.nil_subset _) ?_ ?_
    (fun s hs t ht => (hApart s hs t ht).apart) ?_
  · exact fun s hs => (hEach duty (by simp)).mem_descendants hs
  · intro s hs
    obtain ⟨d, hd, hs⟩ := List.mem_flatMap.1 hs
    exact (hEach d (by simp [hd])).mem_descendants hs
  · intro s hs t ht hBeside
    rcases hBeside with hBeside | hBeside
    · exact absurd hBeside (hApart s hs t ht).before
    · exact absurd hBeside (hApart s hs t ht).after

/-- Every way through a search puts its bindings in order. -/
theorem Solves.lays {task : Task} {b b' : Branch} (h : conditions.Solves task b b')
    (hTidy : task.Tidy top) : Lays top task.sites task.closed b b' := by
  induction h with
  | @wildcard w c b b' hBind =>
      obtain ⟨name, extent⟩ := w
      cases extent with
      | scalar => exact hBind.lays_one
      | glob => cases hTidy.1.noGlob
  | hole => exact .nothing
  | @form p form c duties b b' _ hForm _ hDuties _ ih =>
      obtain ⟨hp, hc⟩ := hTidy
      have hOrder := Node.orderly_iff.1 (lone_of_mem_forms hForm hp).orderly
      have hFields := Duty.ofNodes?_eq form c ▸ hDuties
      have hLaid := ih ⟨Duty.tidy_of_ofFields? hFields hOrder hc (List.Subset.refl _),
        Duty.remote_of_ofNodes? hc hDuties⟩
      refine hLaid.of_children fun s hs => ?_
      obtain ⟨duty, hDuty, hs⟩ := List.mem_flatMap.1 hs
      obtain ⟨g, hg, x, hx, hBelow⟩ := Duty.exists_child_of_mem_sites hFields hDuty hs
      exact ⟨x, mem_children_of_field hg hx, hBelow⟩
  | noDuties => exact .nothing
  | @consDuties duty duties b b' b'' _ _ ihFirst ihRest =>
      have hFirst := ihFirst (hTidy.1 duty (by simp))
      have hRest := ihRest ⟨fun d hd => hTidy.1 d (by simp [hd]), (List.pairwise_cons.1 hTidy.2).2⟩
      exact lays_duties hTidy hFirst hRest
  | exact _ ih => exact (ih hTidy).reopen (List.nil_subset _)
  | @within p c d b b' hd _ _ ih =>
      refine (ih ⟨hTidy.1, mem_descendants_trans hTidy.2 hd⟩).mono ?_ (List.nil_subset _)
      intro s hs
      rw [List.mem_singleton.1 hs]
      exact ⟨c, by simp [Task.sites, Duty.sites], hd⟩
  | fixed _ ih => exact (ih hTidy).reopen (by simp [Task.closed])
  | ordered _ ih => exact ih hTidy
  | statements _ ih => exact ih hTidy
  | fixedNil => exact .nothing
  | @fixedLast p w cs b b' hGlob hBind =>
      have hLaid := hBind.lays_run [] (by simpa using hTidy.2)
      simpa [Task.closed, Task.sites, hGlob] using hLaid
  | @fixedGlob p q qs w run rest b b' b'' hGlob hBind _ ih =>
      obtain ⟨hRow, hLane⟩ := hTidy
      have hRun := hBind.lays_run _ hLane
      have hRest := ih ⟨hRow.tail, hLane.suffix (List.suffix_append run rest)⟩
      have hq := (hRow.next hGlob).noGlob
      -- the run is followed by what is no glob, so no run of the rest touches it
      have hJoined := hRun.append_lane [] hRest (by simp)
        (by simpa [Task.closed, Task.sites, hq] using List.take_subset 1 rest)
        (by rw [List.append_nil]; exact hLane) (.inr fun c hc => by
          cases rest <;> simp_all [Task.closed, Task.sites])
      exact hJoined.reopen (by simp [Task.closed, hGlob])
  | @fixedCons p ps c cs b b' b'' hGlob _ _ ihFirst ihRest =>
      obtain ⟨hRow, hLane⟩ := hTidy
      have hFirst := ihFirst ⟨⟨hGlob, hRow.orderly p (by simp)⟩, hLane.mem_descendants (by simp)⟩
      have hRest := ihRest ⟨hRow.tail, hLane.suffix (List.suffix_cons c cs)⟩
      have hRest' : Lays top cs [] b' b'' :=
        hRest.reopen (by simp)
      have hJoined := hFirst.append_lane [] hRest' (List.Subset.refl _) (by simp)
        (by rw [List.append_nil]; exact hLane) (.inl (List.Subset.refl _))
      simpa [Task.closed, Task.sites, hGlob] using hJoined
  | scanNil => exact .nothing
  | @scanCons dive p ps cs spot np nc b b' b'' hGlob hSpot _ _ ihFirst ihRest =>
      obtain ⟨hRow, hLane⟩ := hTidy
      have hSpotLane := hLane.of_mem_positions hSpot
      have hFirst := ihFirst ⟨⟨hGlob, hRow.orderly p (by simp)⟩, hRow, hSpotLane⟩
      have hRest := ihRest ⟨hRow.tail.drop np, hSpotLane.suffix
        ((List.drop_suffix nc _).trans (List.suffix_cons _ _))⟩
      refine (lays_onward hSpotLane hFirst hRest).mono ?_ (by simp [Task.closed])
      exact fun s hs => Spot.mem_descendants_of_mem_positions hSpot hs
  | @scanLast dive p w cs b b' hGlob hBind =>
      exact (hBind.lays_run [] (by simpa using hTidy.2)).of_anchor
  | @scanGlob dive p q qs w run spot np nc b b' b'' b''' hGlob hBind _ _ ihFirst ihRest =>
      obtain ⟨hRow, hLane⟩ := hTidy
      have hRun := (hBind.lays_run _ hLane).of_anchor
      have hSpotLane := hLane.suffix (List.suffix_append run _)
      have hFirst := ihFirst ⟨hRow.next hGlob, hRow.tail, hSpotLane⟩
      have hRest := ihRest ⟨hRow.tail.tail.drop np, hSpotLane.suffix
        ((List.drop_suffix nc _).trans (List.suffix_cons _ _))⟩
      have hJoined := hRun.append_lane [] (lays_onward hSpotLane hFirst hRest) (by simp)
        (by simp) (by rw [List.append_nil]; exact hLane) (.inr (by simp))
      exact hJoined.reopen (by simp [Task.closed])
  | whole _ ih =>
      have hLaid := ih ⟨hTidy.1, hTidy.2.2.mem_descendants (by simp)⟩
      simpa [Task.sites, Task.closed] using hLaid.of_anchor
  | @split p declared assigned ps spot next rest b b' b'' _ hSplit hNext _ _ ihFirst ihSecond =>
      obtain ⟨hp, -, hLane⟩ := hTidy
      rw [hNext] at hLane
      obtain ⟨hDeclared, hAssigned⟩ := Node.lone_of_split hSplit hp
      have hFirst := ihFirst ⟨hDeclared, hLane.mem_descendants (by simp)⟩
      have hSecond := ihSecond ⟨hAssigned, hLane.mem_descendants (by simp)⟩
      have hJoined := hFirst.of_anchor.append_lane rest hSecond (List.Subset.refl _)
        (List.Subset.refl _) hLane (.inl (List.Subset.refl _))
      simpa [Task.sites, Task.closed, hNext] using hJoined
  | @merged p q merged qs spot b b' _ hMerge _ ih =>
      obtain ⟨hp, hRow, hLane⟩ := hTidy
      have hLone := Node.lone_of_merge hMerge hp (hRow.orderly q (by simp))
      have hLaid := ih ⟨hLone, hLane.mem_descendants (by simp)⟩
      simpa [Task.sites, Task.closed] using hLaid.of_anchor

theorem Binds.root_eq {w : Wildcard} {value : Binding} {b b' : Branch}
    (h : conditions.Binds w value b b') : b'.root = b.root := by
  cases h <;> rfl

/-- Once there is a root, it stays. -/
theorem Solves.root_kept {task : Task} {b b' : Branch} {r : Site}
    (h : conditions.Solves task b b') (hr : b.root = some r) : b'.root = some r := by
  have hAnchor : ∀ {b : Branch} (s : Option Site), b.root = some r →
      (b.anchor s).root = some r := by
    intro b s hr
    rw [Branch.anchor, hr]
    rfl
  induction h with
  | wildcard hBind | fixedLast _ hBind => exact hBind.root_eq.trans hr
  | hole | noDuties | fixedNil | scanNil => exact hr
  | form _ _ _ _ _ ih | exact _ ih | within _ _ _ ih | fixed _ ih | ordered _ ih
  | statements _ ih => exact ih hr
  | consDuties _ _ ihFirst ihRest | fixedCons _ _ _ ihFirst ihRest
  | scanCons _ _ _ _ ihFirst ihRest => exact ihRest (ihFirst hr)
  | fixedGlob _ hBind _ ih => exact ih (hBind.root_eq.trans hr)
  | scanLast _ hBind => exact hBind.root_eq.trans (hAnchor _ hr)
  | scanGlob _ hBind _ _ ihFirst ihRest =>
      exact ihRest (ihFirst (hBind.root_eq.trans (hAnchor _ hr)))
  | whole _ ih | merged _ _ _ ih => exact ih (hAnchor _ hr)
  | split _ _ _ _ _ ihFirst ihSecond => exact ihSecond (ihFirst (hAnchor _ hr))

/-- The first element that is found becomes the root. -/
theorem Solves.root_of_spot {dive : Bool} {p : Node} {ps : List Node} {spot : Spot} {np nc : Nat}
    {b b' : Branch} (h : conditions.Solves (.spot dive p ps spot np nc) b b')
    (hb : b.root = none) : b'.root = some spot.site := by
  have hAnchor : (b.anchor (some spot.site)).root = some spot.site := by
    rw [Branch.anchor, hb]
    rfl
  cases h with
  | whole done => exact done.root_kept hAnchor
  | split _ _ _ first second => exact second.root_kept (first.root_kept hAnchor)
  | merged _ _ done => exact done.root_kept hAnchor

/-- The bindings of a whole match, seen from its root. If the root is part of a run, it is the first
site of it. -/
structure Rooted (top r : Site) (b : Branch) : Prop where
  placed : Placed top [top] b.named
  inside : r ∈ top.descendants
  first : ∀ {name run}, (name, Binding.many run) ∈ b.named → r ∈ run → ∃ rest, run = r :: rest

/-- Bindings laid in a tree may be rooted at a site that no run of them goes into. -/
theorem Rooted.of_lays {region closed : List Site} {b b' : Branch} {r : Site}
    (h : Lays top region closed b b') (hb : b.named = [])
    (hTop : ∀ c ∈ region, c ∈ top.descendants) (hr : r ∈ closed) (hrTop : r ∈ top.descendants) :
    Rooted top r b' := by
  obtain ⟨added, hNamed, hPlaced, hOpen⟩ := h
  rw [hb, List.nil_append] at hNamed
  refine ⟨?_, hrTop, ?_⟩
  · rw [hNamed]
    exact hPlaced.widen fun c hc => ⟨top, by simp, hTop c hc⟩
  · intro name run hMem hRun
    rw [hNamed] at hMem
    exact absurd ⟨name, run, hMem, hRun⟩ (hOpen r hr)

theorem Binds.first_of_run {w : Wildcard} {b b' : Branch} {run : List Site}
    (h : conditions.Binds w (.many run) b b') (hb : b.named = []) :
    ∀ {name run'}, (name, Binding.many run') ∈ b'.named → run' = run := by
  intro name run' hMem
  rcases h.named_eq with hNamed | ⟨name', hNamed⟩
  · rw [hNamed, hb] at hMem
    cases hMem
  · rw [hNamed, hb] at hMem
    simp only [List.nil_append, List.mem_singleton, Prod.mk.injEq, Binding.many.injEq] at hMem
    exact hMem.2

/-- A scan for a whole pattern is rooted where its first statement is found, or at the top if the
pattern asks for none. -/
theorem Solves.rooted_of_scan {ps : List Node} {cs : List Site} {b : Branch}
    (h : conditions.Solves (.scan true ps cs) .start b) (hRow : Node.Row ps)
    (hLane : Lane top cs) : Rooted top (b.root.getD top) b := by
  have hPlaced : Placed top [top] b.named := by
    obtain ⟨added, hNamed, hPlaced, -⟩ := h.lays ⟨hRow, hLane⟩
    rw [hNamed]
    exact hPlaced.widen fun c hc => ⟨top, by simp, hLane.mem_descendants hc⟩
  -- by how the scan begins, since the root is the first site that it is anchored at
  cases h with
  | scanNil =>
      refine ⟨hPlaced, mem_descendants_self top, fun hMem => ?_⟩
      cases hMem
  | @scanCons _ p ps _ spot np nc _ b₁ _ hGlob hSpot first rest =>
      have hSpotLane := hLane.of_mem_positions hSpot
      have hRoot := rest.root_kept (first.root_of_spot rfl)
      have hFirst := first.lays ⟨⟨hGlob, hRow.orderly p (by simp)⟩, hRow, hSpotLane⟩
      have hRest := rest.lays ⟨hRow.tail.drop np, hSpotLane.suffix
        ((List.drop_suffix nc _).trans (List.suffix_cons _ _))⟩
      rw [hRoot]
      exact .of_lays (lays_onward hSpotLane hFirst hRest) rfl
        (fun c hc => hSpotLane.mem_descendants hc) (by simp) (hSpotLane.mem_descendants (by simp))
  | scanLast _ hBind =>
      have hRoot : b.root = cs.head? := hBind.root_eq
      cases cs with
      | nil =>
          rw [hRoot]
          refine ⟨hPlaced, mem_descendants_self top, fun hMem hr => ?_⟩
          rw [hBind.first_of_run rfl hMem] at hr
          cases hr
      | cons c cs =>
          rw [hRoot]
          exact ⟨hPlaced, hLane.mem_descendants (by simp), fun hMem _ =>
            ⟨cs, hBind.first_of_run rfl hMem⟩⟩
  | @scanGlob _ p q qs w run spot np nc _ b₁ b₂ _ hGlob hBind first rest =>
      have hSpotLane := hLane.suffix (List.suffix_append run _)
      have hFirst := first.lays ⟨hRow.next hGlob, hRow.tail, hSpotLane⟩
      have hRest := rest.lays ⟨hRow.tail.tail.drop np, hSpotLane.suffix
        ((List.drop_suffix nc _).trans (List.suffix_cons _ _))⟩
      obtain ⟨added, hNamed, hLater, hOpen⟩ := lays_onward hSpotLane hFirst hRest
      cases run with
      | nil =>
          have hRoot := rest.root_kept (first.root_of_spot hBind.root_eq)
          rw [hRoot]
          refine ⟨hPlaced, hSpotLane.mem_descendants (by simp), fun {name run} hMem hr => ?_⟩
          rw [hNamed] at hMem
          rcases List.mem_append.1 hMem with hMem | hMem
          · rw [hBind.first_of_run rfl hMem] at hr
            cases hr
          · exact absurd ⟨name, run, hMem, hr⟩ (hOpen _ (by simp))
      | cons c run =>
          have hRoot := rest.root_kept (first.root_kept hBind.root_eq)
          change b.root = some c at hRoot
          rw [hRoot]
          refine ⟨hPlaced, hLane.mem_descendants (by simp), fun {name run'} hMem hr => ?_⟩
          rw [hNamed] at hMem
          rcases List.mem_append.1 hMem with hMem | hMem
          · exact ⟨run, hBind.first_of_run rfl hMem⟩
          · obtain ⟨c', hc', hBelow⟩ := hLater.inside_run ⟨name, run', hMem, hr⟩
            -- a later run lies apart from the first
            have hWhole : Lane top ((c :: run) ++ (spot.site :: spot.following)) := hLane
            have hApart : Apart c c' := (hWhole.apart_append (by simp) hc').1
            exact absurd (path_leads hBelow) (hApart c.path (List.prefix_refl _))

/-- A node matched by itself is the root. -/
theorem Solves.rooted_of_node {p : Node} {s : Site} {b : Branch}
    (h : conditions.Solves (.node p s) (.rootedAt s) b) (hp : p.Orderly) : Rooted s s b := by
  have hLane : Lane s ([s] ++ []) := ⟨[s], .whole, List.suffix_rfl⟩
  cases hGlob : p.glob? with
  | none =>
      exact .of_lays (h.lays ⟨⟨hGlob, hp⟩, mem_descendants_self s⟩) rfl
        (fun c hc => hLane.mem_descendants hc) (by simp [Task.closed]) (mem_descendants_self s)
  | some w =>
      obtain ⟨rfl, hExtent⟩ := Node.eq_wildcard_of_glob? hGlob
      cases h with
      | form hp => cases hp
      | wildcard hBind =>
          rw [Wildcard.valueAt, hExtent] at hBind
          obtain ⟨added, hNamed, hPlaced, -⟩ := hBind.lays_run [] hLane
          refine ⟨?_, mem_descendants_self s, fun hMem _ => ⟨[], hBind.first_of_run rfl hMem⟩⟩
          rw [hNamed]
          exact hPlaced

/-- Every match is rooted at a site of the program. -/
theorem Finds.rooted {program : Site} {pattern : Node} {b : Branch}
    (h : conditions.Finds program pattern b) (hOrder : pattern.Orderly) :
    ∃ top ∈ program.descendants, Rooted top (b.root.getD program) b := by
  cases h with
  | @statements ps cs _ hBody done =>
      have hRow : Node.Row ps := Node.orderly_iff.1 hOrder (.seq .statements ps)
        (by simp [Node.fields])
      have hLane : Lane program cs := by
        rcases hBody with hField | rfl
        · exact ⟨cs, .seq (mem_descendants_self program) hField, List.suffix_rfl⟩
        · exact ⟨[program], .whole, List.suffix_rfl⟩
      exact ⟨program, mem_descendants_self program, done.rooted_of_scan hRow hLane⟩
  | nothing =>
      refine ⟨program, mem_descendants_self program, .nil, mem_descendants_self program, ?_⟩
      intro name run hMem
      cases hMem
  | @alone p _ done =>
      have hRow : Node.Row [p] := Node.orderly_iff.1 hOrder (.seq .statements [p])
        (by simp [Node.fields])
      rw [done.root_kept rfl]
      exact ⟨program, mem_descendants_self program,
        done.rooted_of_node (hRow.orderly p (by simp))⟩
  | @anywhere _ s _ hs done =>
      rw [done.root_kept rfl]
      exact ⟨s, hs, done.rooted_of_node hOrder⟩

end Conditions

end CodeShape
