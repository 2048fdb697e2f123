import CodeShape.Proofs.Parallel

/-! Matching in lockstep. Under corresponding conditions, matching corresponding patterns with
corresponding places gives parallel searches, and so corresponding results. The conditions may give
different answers, as long as they agree on what passes. -/
namespace CodeShape

/-- What is made of corresponding values, where there are any, corresponds. -/
theorem optionRel_bind {α α' β β' : Type} {r : α → α' → Prop} {s : β → β' → Prop} {a : Option α}
    {a' : Option α'} {f : α → Option β} {f' : α' → Option β'} (h : Option.Rel r a a')
    (hf : ∀ x x', r x x' → Option.Rel s (f x) (f' x')) :
    Option.Rel s (a.bind f) (a'.bind f') := by
  cases h with
  | none => exact .none
  | some hr => exact hf _ _ hr

/-- Conditions on the same variables whose answers to corresponding values correspond. -/
structure Constraint.Twin (N : Node → Node → Prop) (V : Verdict → Verdict → Prop)
    (c c' : Constraint) : Prop where
  vars : c.vars = c'.vars
  test (values values' : List Capture) (h : List.Forall₂ (Capture.Twin N) values values') :
    V (c.test values) (c'.test values')

/-- Questions with corresponding answers. -/
def Inquiry.Twin (V : Verdict → Verdict → Prop) (q q' : Inquiry) : Prop := V q.verdict q'.verdict

/-- Questions with the same answers give the same reasons. -/
theorem Inquiry.Twin.reasons_eq {qs qs' : List Inquiry} (h : List.Forall₂ (Inquiry.Twin Eq) qs qs') :
    qs.filterMap Inquiry.reason? = qs'.filterMap Inquiry.reason? := by
  induction h with
  | nil => rfl
  | @cons q q' _ _ hAnswer _ ih =>
      have hReason : q.reason? = q'.reason? := by
        have hSame : q.verdict = q'.verdict := hAnswer
        rw [Inquiry.reason?, Inquiry.reason?, hSame]
      rw [List.filterMap_cons, List.filterMap_cons, hReason, ih]

namespace Constraint.Twin

variable {N : Node → Node → Prop} {V : Verdict → Verdict → Prop} {value? value?' : String → Option Capture}

theorem evaluate? {c c' : Constraint} (h : Twin N V c c')
    (hValue : ∀ v, Option.Rel (Capture.Twin N) (value? v) (value?' v)) :
    Option.Rel (Inquiry.Twin V) (c.evaluate? value?) (c'.evaluate? value?') := by
  have hValues : ∀ vars : List String,
      Option.Rel (List.Forall₂ (Capture.Twin N)) (vars.mapM value?) (vars.mapM value?') := by
    intro vars
    induction vars with
    | nil => exact .some .nil
    | cons v vars ih =>
        rw [List.mapM_cons, List.mapM_cons]
        exact optionRel_bind (hValue v) fun _ _ hFirst =>
          optionRel_bind ih fun _ _ hRest => .some (.cons hFirst hRest)
  rw [Constraint.evaluate?, Constraint.evaluate?, ← h.vars]
  exact optionRel_bind (hValues c.vars) fun _ _ hRelated => .some (h.test _ _ hRelated)

/-- The same conditions are asked, and they let the same pass. -/
theorem check (hPass : ∀ v v', V v v' → (v = .pass ↔ v' = .pass))
    (hValue : ∀ v, Option.Rel (Capture.Twin N) (value? v) (value?' v)) (name : String)
    {cs cs' : List Constraint} (h : List.Forall₂ (Twin N V) cs cs') :
    List.Forall₂ (Inquiry.Twin V) (Constraint.check value? name cs).1
        (Constraint.check value?' name cs').1 ∧
      ((Constraint.check value? name cs).2 = .pass ↔
        (Constraint.check value?' name cs').2 = .pass) := by
  induction h with
  | nil => exact ⟨.nil, Iff.rfl⟩
  | @cons c c' cs cs' hFirst _ ih =>
      rw [Constraint.check, Constraint.check, ← hFirst.vars]
      split
      · exact ih
      · have hAsked := hFirst.evaluate? hValue
        generalize c.evaluate? value? = asked at hAsked
        generalize c'.evaluate? value?' = asked' at hAsked
        cases hAsked with
        | none => exact ih
        | @some q q' hAnswer =>
            have hSame : q.verdict = .pass ↔ q'.verdict = .pass := hPass _ _ hAnswer
            by_cases hq : q.verdict = .pass
            · simp only [hq, hSame.1 hq, if_true]
              exact ⟨.cons hAnswer ih.1, ih.2⟩
            · have hq' : q'.verdict ≠ .pass := fun hVerdict => hq (hSame.2 hVerdict)
              simp only [hq, hq', if_false]
              exact ⟨.cons hAnswer .nil, trivial⟩

end Constraint.Twin

/-- Conditions that differ at most in their answers, and agree on what passes. -/
structure Conditions.Twin (N : Node → Node → Prop) (V : Verdict → Verdict → Prop)
    (conditions conditions' : Conditions) : Prop where
  constraints : List.Forall₂ (Constraint.Twin N V) conditions.constraints conditions'.constraints
  rules : conditions.rules = conditions'.rules
  orderMatters : conditions.orderMatters = conditions'.orderMatters
  pass (v v' : Verdict) (h : V v v') : v = .pass ↔ v' = .pass

/-- Searches with corresponding bindings and corresponding answers of conditions. -/
abbrev Matching.Twin (N : Node → Node → Prop) (V : Verdict → Verdict → Prop) :
    Matching → Matching → Prop :=
  Search.Parallel (Inquiry.Twin V) (Branch.Twin N)

namespace Conditions.Twin

variable {N : Node → Node → Prop} {V : Verdict → Verdict → Prop} {conditions conditions' : Conditions}

theorem agree_eq (h : Conditions.Twin N V conditions conditions') (hN : Node.Congruence N)
    {old old' new new' : Binding} (hOld : Binding.Twin N old old')
    (hNew : Binding.Twin N new new') : conditions.agree old new = conditions'.agree old' new' := by
  unfold agree
  extract_lets bare as bs as' bs'
  have hBare : ∀ {a b}, N a b → N (bare a) (bare b) := by
    intro a b hab
    have hOther : ∀ n, Duty.wholeOnly n = false → bare n = n := by
      intro n hn
      cases n <;> first | rfl | cases hn
    cases hWhole : Duty.wholeOnly a with
    | true =>
        cases a <;> cases hWhole
        obtain ⟨e', rfl, hExpression⟩ := hN.exists_one hab rfl
        exact hExpression
    | false => rwa [hOther a hWhole, hOther b (hN.wholeOnly_eq hab ▸ hWhole)]
  have hSites : ∀ {v v' : Binding}, Binding.Twin N v v' →
      List.Forall₂ N (v.sites.map (bare ·.node)) (v'.sites.map (bare ·.node)) :=
    fun hv => List.forall₂_map_left_iff.2 (List.forall₂_map_right_iff.2
      (hv.sites.imp fun _ _ hSite => hBare hSite.node))
  have hAll : ((as.zip bs).all fun pair => Node.equivalent conditions.rules pair.1 pair.2) =
      (as'.zip bs').all fun pair => Node.equivalent conditions'.rules pair.1 pair.2 := by
    refine all_zip_eq (hSites hOld) (hSites hNew) fun x x' y y' hx _ hy => ?_
    rw [← h.rules]
    exact hN.equivalent conditions.rules hx hy
  have hLengths : (as.length == bs.length) = (as'.length == bs'.length) := by
    rw [(hSites hOld).length_eq, (hSites hNew).length_eq]
  exact congrArg₂ (· && ·) hLengths hAll

/-- A wildcard is bound in both searches or in neither, and corresponding questions are asked. -/
theorem bind (h : Conditions.Twin N V conditions conditions') (hN : Node.Congruence N)
    (w : Wildcard) {v v' : Binding} (hv : Binding.Twin N v v') {b b' : Branch}
    (hb : Branch.Twin N b b') :
    Matching.Twin N V (conditions.bind w v b) (conditions'.bind w v' b') := by
  obtain ⟨name?, extent⟩ := w
  cases name? with
  | none => exact .one (hb.pushAnonymous hv)
  | some name =>
      have hFind := hb.find? name
      simp only [Conditions.bind]
      generalize b.find? name = old at hFind
      generalize b'.find? name = old' at hFind
      cases hFind with
      | some hOld =>
          simp only [h.agree_eq hN hOld hv]
          split
          · exact .one hb
          · exact .done
      | none =>
          have hNew := hb.pushNamed name hv
          have hValue : ∀ n, Option.Rel (Capture.Twin N)
              ((Branch.find? { b with named := b.named ++ [(name, v)] } n).map Binding.capture)
              ((Branch.find? { b' with named := b'.named ++ [(name, v')] } n).map
                Binding.capture) := by
            intro n
            have hBound := hNew.find? n
            generalize Branch.find? _ n = old at hBound
            generalize Branch.find? _ n = old' at hBound
            cases hBound with
            | none => exact .none
            | some hBound => exact .some hBound.capture
          obtain ⟨hAsked, hSame⟩ := Constraint.Twin.check h.pass hValue name h.constraints
          refine .after hAsked ?_
          simp only [hSame]
          split
          · exact .one hNew
          · exact .done

theorem splitsDeclarations_eq (h : Conditions.Twin N V conditions conditions') :
    conditions.splitsDeclarations = conditions'.splitsDeclarations := by
  rw [splitsDeclarations, splitsDeclarations, h.rules]

end Conditions.Twin

/-- Ways of matching lists that match corresponding nodes in parallel. -/
structure ListMatcher.Twin (N : Node → Node → Prop) (V : Verdict → Verdict → Prop)
    (m m' : ListMatcher) : Prop where
  conditions : Conditions.Twin N V m.conditions m'.conditions
  node {p p' : Node} {c c' : Site} {b b' : Branch} (hp : N p p') (hc : Site.Twin N c c')
    (hb : Branch.Twin N b b') : Matching.Twin N V (m.node p c b) (m'.node p' c' b')
  depth : m.depth = m'.depth

/-- Corresponding matches that took equally much. -/
structure Taken.Twin (N : Node → Node → Prop) (t t' : Taken) : Prop where
  patterns : t.patterns = t'.patterns
  candidates : t.candidates = t'.candidates
  branch : Branch.Twin N t.branch t'.branch

namespace ListMatcher.Twin

variable {N : Node → Node → Prop} {V : Verdict → Verdict → Prop} {m m' : ListMatcher}
  (h : ListMatcher.Twin N V m m') (hN : Node.Congruence N)

include h hN

/-- Fixed lists are searched in step. -/
theorem fixed {ps ps' : List Node} {cs cs' : List Site} {b b' : Branch}
    (hps : List.Forall₂ N ps ps') (hcs : List.Forall₂ (Site.Twin N) cs cs')
    (hb : Branch.Twin N b b') : Matching.Twin N V (m.fixed ps cs b) (m'.fixed ps' cs' b') := by
  induction hps generalizing cs cs' b b' with
  | nil => exact .one hb
  | @cons p p' ps ps' hp hRest ih =>
      have hSame := hN.glob?_eq hp
      cases hGlob : p.glob? with
      | some w =>
          have hGlob' := hSame.symm.trans hGlob
          cases hRest with
          | nil =>
              rw [m.fixed_glob_last hGlob, m'.fixed_glob_last hGlob']
              exact h.conditions.bind hN w (.many hcs) hb
          | cons =>
              rw [m.fixed_glob hGlob, m'.fixed_glob hGlob', hcs.length_eq]
              refine .firstOf (R := Eq) (List.forall₂_same.2 fun _ _ => rfl) ?_
              rintro j _ rfl
              exact (h.conditions.bind hN w (.many (List.forall₂_take j hcs)) hb).andThen
                fun _ _ hBranch => ih (List.forall₂_drop j hcs) hBranch
      | none =>
          have hGlob' := hSame.symm.trans hGlob
          cases hcs with
          | nil =>
              rw [m.fixed_none hGlob, m'.fixed_none hGlob']
              exact .done
          | cons hc hcs =>
              rw [m.fixed_cons hGlob, m'.fixed_cons hGlob']
              exact (h.node hp hc hb).andThen fun _ _ hBranch => ih hcs hBranch

theorem splitAt {p p' : Node} {spot spot' : Spot} {b b' : Branch} (hp : N p p')
    (hSpot : Spot.Twin N spot spot') (hb : Branch.Twin N b b') :
    Search.Parallel (Inquiry.Twin V) (Taken.Twin N) (m.splitAt p spot b)
      (m'.splitAt p' spot' b') := by
  have hHalves := hN.splitDeclaration hp
  have hFollowing := hSpot.following
  rw [ListMatcher.splitAt, ListMatcher.splitAt]
  generalize p.splitDeclaration? = halves at hHalves
  generalize p'.splitDeclaration? = halves' at hHalves
  generalize spot.following = following at hFollowing
  generalize spot'.following = following' at hFollowing
  cases hHalves with
  | none => exact .done
  | some hHalves =>
      cases hFollowing with
      | nil => exact .done
      | cons hNext _ =>
          refine (h.node hHalves.1 hSpot.site hb).andThen fun _ _ hBranch => ?_
          exact (h.node hHalves.2 hNext hBranch).andThen fun _ _ hBranch =>
            .one ⟨rfl, rfl, hBranch⟩

theorem mergedAt {p p' : Node} {ps ps' : List Node} {spot spot' : Spot} {b b' : Branch}
    (hp : N p p') (hps : List.Forall₂ N ps ps') (hSpot : Spot.Twin N spot spot')
    (hb : Branch.Twin N b b') :
    Search.Parallel (Inquiry.Twin V) (Taken.Twin N) (m.mergedAt p ps spot b)
      (m'.mergedAt p' ps' spot' b') := by
  have hMerged : Option.Rel N (ps.head?.bind p.mergeDeclaration?)
      (ps'.head?.bind p'.mergeDeclaration?) := by
    cases hps with
    | nil => exact .none
    | cons hNext _ => exact hN.mergeDeclaration hp hNext
  rw [ListMatcher.mergedAt, ListMatcher.mergedAt]
  generalize ps.head?.bind p.mergeDeclaration? = merged at hMerged
  generalize ps'.head?.bind p'.mergeDeclaration? = merged' at hMerged
  cases hMerged with
  | none => exact .done
  | some hMerged =>
      exact (h.node hMerged hSpot.site hb).andThen fun _ _ hBranch => .one ⟨rfl, rfl, hBranch⟩

theorem atSpot (dive : Bool) {p p' : Node} {ps ps' : List Node} {spot spot' : Spot}
    {b b' : Branch} (hp : N p p') (hps : List.Forall₂ N ps ps') (hSpot : Spot.Twin N spot spot')
    (hb : Branch.Twin N b b') :
    Search.Parallel (Inquiry.Twin V) (Taken.Twin N) (m.atSpot dive p ps spot b)
      (m'.atSpot dive p' ps' spot' b') := by
  have hRooted := hb.anchor (.some hSpot.site)
  rw [m.atSpot_unfold, m'.atSpot_unfold, h.conditions.splitsDeclarations_eq]
  refine .orElse ?_ ?_
  · exact (h.node hp hSpot.site hRooted).andThen fun _ _ hBranch => .one ⟨rfl, rfl, hBranch⟩
  · split
    · exact .done
    · exact (h.splitAt hN hp hSpot hRooted).orElse (h.mergedAt hN hp hps hSpot hRooted)

/-- Lists are scanned in step, whether they are dived into or not. -/
theorem scan (dive : Bool) {ps ps' : List Node} {cs cs' : List Site} {b b' : Branch}
    (hps : List.Forall₂ N ps ps') (hcs : List.Forall₂ (Site.Twin N) cs cs')
    (hb : Branch.Twin N b b') :
    Matching.Twin N V (m.scan dive ps cs b) (m'.scan dive ps' cs' b') := by
  induction hLength : ps.length using Nat.strongRecOn generalizing ps ps' cs cs' b b' with
  | ind n ih =>
      -- at corresponding spots both searches take as many patterns and as many candidates
      have hFrom : ∀ {p p' ps ps' spot spot' b b'}, ps.length < n → N p p' →
          List.Forall₂ N ps ps' → Spot.Twin N spot spot' → Branch.Twin N b b' →
          Matching.Twin N V (m.scanFrom dive p ps b spot) (m'.scanFrom dive p' ps' b' spot') := by
        intro p p' ps ps' spot spot' b b' hShort hp hps hSpot hb
        refine (h.atSpot hN dive hp hps hSpot hb).andThen fun t t' hTaken => ?_
        rw [← hTaken.patterns, ← hTaken.candidates]
        refine ih _ ?_ (List.forall₂_drop _ hps) (List.forall₂_drop _ hSpot.following)
          hTaken.branch rfl
        exact Nat.lt_of_le_of_lt (by simp) hShort
      cases hps with
      | nil =>
          rw [scan_nil, scan_nil]
          exact .one hb
      | @cons p p' ps ps' hp hps =>
          have hShort : ps.length < n := by rw [← hLength]; exact Nat.lt_succ_self _
          have hSame := hN.glob?_eq hp
          cases hGlob : p.glob? with
          | none =>
              have hGlob' := hSame.symm.trans hGlob
              have hSpots : ∀ depth, List.Forall₂ (Spot.Twin N) (Spot.within depth cs)
                  (Spot.within depth cs') := fun depth => Spot.Twin.within hN.toSimilarity depth hcs
              rw [m.scan_cons dive hGlob, m'.scan_cons dive hGlob', h.depth,
                h.conditions.orderMatters]
              simp only
              split
              · exact .committed (hSpots _)
                  (fun _ _ hSpot => h.atSpot hN dive hp hps hSpot hb)
                  (fun _ _ hSpot => hFrom hShort hp hps hSpot hb)
              · exact .firstOf (hSpots _) fun _ _ hSpot => hFrom hShort hp hps hSpot hb
          | some w =>
              have hGlob' := hSame.symm.trans hGlob
              cases hps with
              | nil =>
                  rw [m.scan_glob_last dive hGlob, m'.scan_glob_last dive hGlob']
                  exact h.conditions.bind hN w (.many hcs) (hb.anchorHead hcs)
              | cons hq hqs =>
                  rw [m.scan_glob dive hGlob, m'.scan_glob dive hGlob']
                  refine .firstOf (Field.Related.zipIdx (Spot.Twin.ofList hcs) 0) ?_
                  rintro ⟨spot, j⟩ ⟨spot', _⟩ ⟨rfl, hSpot⟩
                  refine (h.conditions.bind hN w (.many (List.forall₂_take j hcs)) ?_).andThen
                    fun _ _ hBranch => hFrom (Nat.lt_of_succ_lt hShort) hq hqs hSpot hBranch
                  simp only
                  split
                  · exact hb
                  · exact hb.anchorHead hcs

end ListMatcher.Twin

/-- The same task for corresponding patterns and places. -/
inductive Duty.Twin (N : Node → Node → Prop) : Duty → Duty → Prop where
  | exact {p p' : Node} {c c' : Site} (hp : N p p') (hc : Site.Twin N c c') :
      Twin N (.exact p c) (.exact p' c')
  | below {p p' : Node} {c c' : Site} (hp : N p p') (hc : Site.Twin N c c') :
      Twin N (.below p c) (.below p' c')
  | list {pairing : Pairing} {ps ps' : List Node} {cs cs' : List Site}
      (hps : List.Forall₂ N ps ps') (hcs : List.Forall₂ (Site.Twin N) cs cs') :
      Twin N (.list pairing ps cs) (.list pairing ps' cs')

namespace Duty.Twin

variable {N : Node → Node → Prop} (hN : Node.Similarity N)

include hN

theorem statements {p p' : Node} (h : N p p') :
    List.Forall₂ N (Duty.statements p) (Duty.statements p') := by
  have hOther : ∀ n : Node, n.label ≠ .block → Duty.statements n = [n] := by
    intro n hn
    cases n <;> first | rfl | exact absurd rfl hn
  by_cases hBlock : p.label = .block
  · cases p <;> cases hBlock
    obtain ⟨body', rfl, hBody⟩ := hN.exists_list h rfl
    exact hBody
  · rw [hOther p hBlock, hOther p' fun hBlock' => hBlock ((hN.isBlock_iff h).2 hBlock')]
    exact .cons h .nil

theorem ofSlots? (whole : Bool) {f f' : Field Node} {g g' : Field Site}
    (hf : Field.Related N f f') (hg : Field.Related (Site.Twin N) g g') :
    Option.Rel (List.Forall₂ (Duty.Twin N)) (Duty.ofSlots? whole f g)
      (Duty.ofSlots? whole f' g') := by
  have hOne : ∀ {p p' c c'}, N p p' → Site.Twin N c c' →
      Duty.Twin N (if whole then .exact p c else .below p c)
        (if whole then .exact p' c' else .below p' c') := by
    intro p p' c c' hp hc
    cases whole with
    | true => exact .exact hp hc
    | false => exact .below hp hc
  cases hf with
  | one hp =>
      cases hg with
      | one hc => exact .some (.cons (hOne hp hc) .nil)
      | _ => exact .none
  | optSome hp =>
      cases hg with
      | optSome hc => exact .some (.cons (hOne hp hc) .nil)
      | _ => exact .none
  | stmtSome hp =>
      cases hg with
      | stmtSome hc => exact .some (.cons (.list (statements hN hp) (hc.statements hN)) .nil)
      | _ => exact .none
  | seq hps =>
      cases hg with
      | seq hcs => exact .some (.cons (.list hps hcs) .nil)
      | _ => exact .none
  | optNone | stmtNone => cases hg <;> exact .some .nil

theorem ofFields? (whole : Bool) {fs fs' : List (Field Node)} {gs gs' : List (Field Site)}
    (hfs : List.Forall₂ (Field.Related N) fs fs')
    (hgs : List.Forall₂ (Field.Related (Site.Twin N)) gs gs') :
    Option.Rel (List.Forall₂ (Duty.Twin N)) (Duty.ofFields? whole fs gs)
      (Duty.ofFields? whole fs' gs') := by
  induction hfs generalizing gs gs' with
  | nil => exact .some .nil
  | cons hf _ ih =>
      cases hgs with
      | nil => exact .some .nil
      | cons hg hgs =>
          refine optionRel_bind (ofSlots? hN whole hf hg) fun _ _ hFirst => ?_
          exact optionRel_bind (ih hgs) fun _ _ hRest => .some (List.rel_append hFirst hRest)

/-- Corresponding nodes make corresponding duties, or neither makes any. -/
theorem ofNodes? {p p' : Node} {c c' : Site} (hp : N p p') (hc : Site.Twin N c c') :
    Option.Rel (List.Forall₂ (Duty.Twin N)) (Duty.ofNodes? p c) (Duty.ofNodes? p' c') := by
  rw [Duty.ofNodes?_eq, Duty.ofNodes?_eq, hN.wholeOnly_eq hp]
  exact ofFields? hN _ (hN.fields hp) (hc.fields hN)

end Duty.Twin

namespace ListMatcher.Twin

variable {N : Node → Node → Prop} {V : Verdict → Verdict → Prop} {m m' : ListMatcher}
  (h : ListMatcher.Twin N V m m') (hN : Node.Congruence N)

include h hN

theorem perform {duty duty' : Duty} {b b' : Branch} (hDuty : Duty.Twin N duty duty')
    (hb : Branch.Twin N b b') : Matching.Twin N V (m.perform duty b) (m'.perform duty' b') := by
  cases hDuty with
  | exact hp hc => exact h.node hp hc hb
  | below hp hc =>
      rw [ListMatcher.perform, ListMatcher.perform, hN.seeksBelow_eq hp]
      refine (h.node hp hc hb).orElse ?_
      split
      · have hBelow := List.forall₂_drop 1 (hc.descendants hN.toSimilarity)
        rw [List.drop_one, List.drop_one] at hBelow
        exact .firstOf hBelow fun _ _ hd => h.node hp hd hb
      · exact .done
  | @list pairing _ _ _ _ hps hcs =>
      cases pairing with
      | fixed => exact h.fixed hN hps hcs hb
      | ordered => exact h.scan hN false hps hcs hb
      | statements => exact h.scan hN true hps hcs hb

/-- Rows of corresponding duties are done in step. -/
theorem performAll {duties duties' : List Duty} {b b' : Branch}
    (hDuties : List.Forall₂ (Duty.Twin N) duties duties') (hb : Branch.Twin N b b') :
    Matching.Twin N V (m.performAll duties b) (m'.performAll duties' b') := by
  induction hDuties generalizing b b' with
  | nil => exact .one hb
  | cons hDuty _ ih => exact (h.perform hN hDuty hb).andThen fun _ _ hBranch => ih hBranch

theorem sameForm {p p' : Node} {c c' : Site} {b b' : Branch} (hp : N p p')
    (hc : Site.Twin N c c') (hb : Branch.Twin N b b') :
    Matching.Twin N V (m.sameForm p c b) (m'.sameForm p' c' b') := by
  rw [ListMatcher.sameForm, ListMatcher.sameForm, hN.sameShape_eq hp hc.node]
  split
  · have hDuties := Duty.Twin.ofNodes? hN.toSimilarity hp hc
    generalize Duty.ofNodes? p c = duties at hDuties
    generalize Duty.ofNodes? p' c' = duties' at hDuties
    cases hDuties with
    | none => exact .done
    | some hDuties => exact h.performAll hN hDuties hb
  · exact .done

end ListMatcher.Twin

namespace Conditions

variable (conditions : Conditions)

/-- Statements are looked for in the body of a program or block. -/
theorem searchCode_of_body {ps : List Node} {s : Site} (h : s.HoldsBody) :
    conditions.searchCode (.program ps) s = conditions.body ps s.children .start := by
  obtain ⟨body, hNode | hNode⟩ := h.exists_body <;> rw [searchCode, hNode]

/-- Any other node is looked at as a single statement. -/
theorem searchCode_of_single {ps : List Node} {s : Site} (h : ¬ s.HoldsBody) :
    conditions.searchCode (.program ps) s = conditions.body ps [s] .start := by
  rw [searchCode]
  split
  · next hNode => exact absurd (.inl (by rw [hNode]; rfl)) h
  · next hNode => exact absurd (.inr (by rw [hNode]; rfl)) h
  · rfl

/-- A pattern that is no list of statements is looked for everywhere. -/
theorem searchCode_of_other {p : Node} {s : Site} (h : p.label ≠ .program) :
    conditions.searchCode p s =
      .firstOf (fun s => conditions.node p s (.rootedAt s)) s.descendants := by
  cases p <;> first | rfl | exact absurd rfl h

end Conditions

namespace Conditions.Twin

variable {N : Node → Node → Prop} {V : Verdict → Verdict → Prop} {conditions conditions' : Conditions}
  (h : Conditions.Twin N V conditions conditions') (hN : Node.Congruence N)

include h hN

/-- Corresponding patterns have corresponding forms on corresponding candidates. -/
theorem forms {p p' c c' : Node} (hp : N p p') (hc : N c c') :
    List.Forall₂ N (conditions.forms p c) (conditions'.forms p' c') := by
  rw [Conditions.forms, Conditions.forms, ← h.rules]
  refine .cons hp ?_
  cases conditions.rules with
  | none => exact .nil
  | some rules => exact hN.alternatives rules hp hc

/-- The layers of the two searches run in step. The induction is on the height. -/
theorem nodeAt (height : Nat) {p p' : Node} {c c' : Site} {b b' : Branch} (hp : N p p')
    (hc : Site.Twin N c c') (hb : Branch.Twin N b b') :
    Matching.Twin N V (conditions.nodeAt height p c b) (conditions'.nodeAt height p' c' b') := by
  induction height generalizing p p' c c' b b' with
  | zero => exact .done
  | succ height ih =>
      have hLists : ListMatcher.Twin N V ⟨conditions, conditions.nodeAt height, height⟩
          ⟨conditions', conditions'.nodeAt height, height⟩ := ⟨h, ih, rfl⟩
      have hSame := hN.isConcrete_eq hp
      cases hConcrete : p.isConcrete with
      | true =>
          rw [conditions.nodeAt_concrete height hConcrete,
            conditions'.nodeAt_concrete height (hSame ▸ hConcrete)]
          exact .firstOf (h.forms hN hp hc.node) fun _ _ hForm => hLists.sameForm hN hForm hc hb
      | false =>
          have hLeaf : p.fields = [] ∧ ∀ v, p ≠ .literal v := by
            cases p <;> cases hConcrete <;> exact ⟨rfl, fun _ => Node.noConfusion⟩
          obtain rfl := hN.eq_of_leaf hp hLeaf.1 hLeaf.2
          cases p with
          | hole => exact .one hb
          | wildcard w =>
              rw [conditions.nodeAt_wildcard, conditions'.nodeAt_wildcard]
              exact h.bind hN w (.valueAt w hc) hb
          | _ => cases hConcrete

theorem node {p p' : Node} {c c' : Site} {b b' : Branch} (hp : N p p') (hc : Site.Twin N c c')
    (hb : Branch.Twin N b b') :
    Matching.Twin N V (conditions.node p c b) (conditions'.node p' c' b') := by
  rw [Conditions.node, Conditions.node, hN.height_eq hc.node]
  exact h.nodeAt hN _ hp hc hb

theorem body {ps ps' : List Node} {cs cs' : List Site} {b b' : Branch}
    (hps : List.Forall₂ N ps ps') (hcs : List.Forall₂ (Site.Twin N) cs cs')
    (hb : Branch.Twin N b b') :
    Matching.Twin N V (conditions.body ps cs b) (conditions'.body ps' cs' b') := by
  have hHeights : cs.map (·.node.height) = cs'.map (·.node.height) := by
    rw [← List.forall₂_eq_eq_eq, List.forall₂_map_left_iff, List.forall₂_map_right_iff]
    exact hcs.imp fun _ _ hSite => hN.height_eq hSite.node
  unfold Conditions.body
  rw [hHeights]
  generalize (cs'.map (·.node.height)).foldl max 0 = height
  have hLists : ListMatcher.Twin N V ⟨conditions, conditions.nodeAt height, height⟩
      ⟨conditions', conditions'.nodeAt height, height⟩ := ⟨h, h.nodeAt hN height, rfl⟩
  exact hLists.scan hN true hps hcs hb

/-- The two searches for code run in step. -/
theorem searchCode {p p' : Node} {s s' : Site} (hp : N p p') (hs : Site.Twin N s s') :
    Matching.Twin N V (conditions.searchCode p s) (conditions'.searchCode p' s') := by
  by_cases hProgram : p.label = .program
  · cases p <;> cases hProgram
    obtain ⟨ps', rfl, hps⟩ := hN.exists_list hp rfl
    change Matching.Twin N V _ (conditions'.searchCode (.program ps') s')
    have hSame := hs.holdsBody_iff hN.toSimilarity
    by_cases hBody : s.HoldsBody
    · rw [searchCode_of_body _ hBody, searchCode_of_body _ (hSame.1 hBody)]
      exact h.body hN hps (hs.children hN.toSimilarity) .start
    · rw [searchCode_of_single _ hBody, searchCode_of_single _ fun hBody' => hBody (hSame.2 hBody')]
      exact h.body hN hps (.cons hs .nil) .start
  · rw [searchCode_of_other _ hProgram,
      searchCode_of_other _ fun hLabel => hProgram ((hN.isProgram_iff hp).2 hLabel)]
    exact .firstOf (hs.descendants hN.toSimilarity) fun _ _ hSite =>
      h.node hN hp hSite (.rootedAt hSite)

end Conditions.Twin

/-- Two searches with the same end: the same complaint, or both without a match, or both with one,
with related reports. -/
inductive Outcome.Alike (diagnostics : Option String → Option String → Prop)
    (bindings : Bindings → Bindings → Prop) :
    Except Misuse (Outcome × List Inquiry) → Except Misuse (Outcome × List Inquiry) → Prop where
  | error (e : Misuse) : Alike diagnostics bindings (.error e) (.error e)
  | failed {diagnostic diagnostic' : Option String} {asked asked' : List Inquiry}
      (h : diagnostics diagnostic diagnostic') :
      Alike diagnostics bindings (.ok (.failed diagnostic, asked)) (.ok (.failed diagnostic', asked'))
  | matched {found found' : Bindings} {asked asked' : List Inquiry} (h : bindings found found') :
      Alike diagnostics bindings (.ok (.matched found, asked)) (.ok (.matched found', asked'))

end CodeShape
