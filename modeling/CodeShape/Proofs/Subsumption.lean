import CodeShape.Proofs.Clutter
import CodeShape.Proofs.Equality
import CodeShape.Proofs.Leniency
import CodeShape.Proofs.Recognition

/-! Matching and equivalence. The comparison of two trees under rules and the search for a pattern
go down the trees in different ways: one pairs all parts, the other owes duties, skips clutter and
takes blocks apart. A pattern without wildcards is still matched with everything it is equivalent
to, since the first place of every list is the one that the comparison pairs up. -/
namespace CodeShape

namespace Node

/-- Trees that may stand for each other are compared in one of the forms that a search tries. -/
theorem exists_form_of_equivalent {conditions : Conditions} {p n : Node}
    (h : equivalent conditions.rules p n) :
    ∃ form ∈ conditions.forms p n, form.sameShape n ∧ form.aligned n ∧
      ∀ pair ∈ form.children.zip n.children, equivalent conditions.rules pair.1 pair.2 := by
  unfold Conditions.forms
  cases hRules : conditions.rules with
  | none =>
      rw [hRules] at h
      have hEqual : (p == n) = true := h
      rw [beq_eq, Bool.and_eq_true_iff, Bool.and_eq_true_iff] at hEqual
      obtain ⟨⟨hLabel, hAligned⟩, hChildren⟩ := hEqual
      exact ⟨p, List.mem_cons_self, Label.unabbreviated_beq hLabel, hAligned,
        List.all_eq_true.1 hChildren⟩
  | some rules =>
      rw [hRules] at h
      have hEqual : equalUnder rules p n := h
      rw [equalUnder_eq, List.any_eq_true] at hEqual
      obtain ⟨form, hForm, hEqual⟩ := hEqual
      rw [Bool.and_eq_true_iff, Bool.and_eq_true_iff] at hEqual
      obtain ⟨⟨hShape, hAligned⟩, hChildren⟩ := hEqual
      exact ⟨form, hForm, hShape, hAligned, List.all_eq_true.1 hChildren⟩

/-- A node without wildcards is none itself. -/
theorem wildcard?_of_plain {n : Node} (h : n.wildcards = []) : n.wildcard? = none := by
  rw [wildcards_eq, List.append_eq_nil_iff] at h
  exact Option.toList_eq_nil_iff.1 h.1

/-- The children of a node without wildcards have none. -/
theorem plain_of_child {n c : Node} (h : n.wildcards = []) (hc : c ∈ n.children) :
    c.wildcards = [] := by
  rw [wildcards_eq, List.append_eq_nil_iff, List.flatMap_eq_nil_iff] at h
  exact h.2 c hc

/-- Without wildcards there is nothing that could be out of place. -/
theorem orderly_of_plain {n : Node} (h : n.wildcards = []) : n.Orderly := by
  induction hSize : sizeOf n using Nat.strongRecOn generalizing n with
  | ind size ih =>
      have hPlain : ∀ {field c}, field ∈ n.fields → c ∈ field.toList →
          sizeOf c < size ∧ c.wildcards = [] := by
        intro field c hField hc
        have hChild : c ∈ n.children := List.mem_flatMap.2 ⟨field, hField, hc⟩
        exact ⟨hSize ▸ sizeOf_lt_of_mem_children hChild, plain_of_child h hChild⟩
      have hGlob : ∀ {field c}, field ∈ n.fields → c ∈ field.toList → c.glob? = none :=
        fun hField hc => glob?_of_wildcard? (wildcard?_of_plain (hPlain hField hc).2)
      have hApart : ∀ items : List Node, (∀ c ∈ items, c.glob? = none) →
          Pattern.adjacentGlobs? items = none := by
        intro items hItems
        fun_induction Pattern.adjacentGlobs? items with
        | case1 a b rest left right hRight hLeft =>
            rw [hItems a (by simp)] at hLeft
            cases hLeft
        | case2 a b rest _ ih => exact ih fun c hc => hItems c (List.mem_cons_of_mem a hc)
        | case3 => rfl
      refine .intro ?_ ?_ ?_
      · intro field hField c hc hSome
        rw [hGlob hField hc] at hSome
        cases hSome
      · intro field hField
        cases field with
        | seq pairing items =>
            rw [Pattern.checkNeighbours, hApart items fun c hc => hGlob hField hc]
        | _ => rfl
      · intro field hField c hc
        obtain ⟨hSmall, hc⟩ := hPlain hField hc
        exact ih _ hSmall hc rfl

end Node

namespace Field

variable {α β γ : Type}

/-- Slots that fit hold equally many parts. -/
theorem length_of_fits {f : Field α} {g : Field β} (h : f.fits g) :
    f.toList.length = g.toList.length := by
  rw [← snd_outline, ← snd_outline, fits_iff.1 h]

theorem fitAll_map (fs : List (Field α)) (gs : List (Field β)) (r : β → γ) :
    fitAll fs (gs.map (Field.map r)) = fitAll fs gs := by
  have hOutline : outline ∘ Field.map r = outline := by
    funext g
    cases g with
    | opt b? | stmt b? => cases b? <;> rfl
    | _ => simp [outline, map]
  rw [Bool.eq_iff_iff, fitAll_iff, fitAll_iff, List.map_map, hOutline]

end Field

/-- A pattern without wildcards is accepted as it is. -/
theorem Pattern.exists_compile_of_plain {n : Node} (h : n.wildcards = []) :
    ∃ compiled, compile (.tree n) [] = .ok compiled := by
  have hRoom : n.glob?.isSome → n.isWildcard := by
    rw [Node.glob?_of_wildcard? (Node.wildcard?_of_plain h)]
    intro hSome
    cases hSome
  have hNone : ∀ name extent, ([] : List (String × Extent)).lookup name = some extent →
      extent = .scalar := by
    intro name extent hFind
    cases hFind
  obtain ⟨vars, hVars, -⟩ :=
    addNames_of_orderly (fun _ => .scalar) hRoom (Node.orderly_of_plain h) (by simp [h]) hNone
  refine ⟨⟨n, vars⟩, ?_⟩
  change (do
    let vars ← validate n []
    return (⟨n, vars⟩ : Pattern)) = _
  rw [validate, hVars]
  rfl

namespace Duty

/-- The statements of a block are its children. -/
theorem statements_of_block {p : Node} (h : p.label = .block) : statements p = p.children := by
  cases p with
  | block body => simp [statements, Node.children, Node.fields, Field.toList]
  | _ => cases h

/-- Any other node is its one statement. -/
theorem statements_of_other {p : Node} (h : p.label ≠ .block) : statements p = [p] := by
  unfold statements
  split
  · exact absurd rfl h
  · rfl

end Duty

/-- The children of a node and the sites of the children of another one, paired up. -/
theorem Site.forall₂_children {n : Node} {c : Site} {r : Node → Site → Prop}
    (hAligned : n.aligned c.node)
    (h : ∀ {x s}, x ∈ n.children → s ∈ c.children →
      (x, s.node) ∈ n.children.zip c.node.children → r x s) :
    List.Forall₂ r n.children c.children := by
  refine List.forall₂_iff_zip.2 ⟨?_, fun {x s} hPair => ?_⟩
  · rw [Node.length_children_of_aligned hAligned, ← c.map_node_children, List.length_map]
  · have hNodes : (x, s.node) ∈ n.children.zip c.node.children := by
      rw [← c.map_node_children, List.zip_map_right]
      exact List.mem_map_of_mem hPair
    obtain ⟨hx, hs⟩ := List.of_mem_zip hPair
    exact h hx hs hNodes

namespace Enumeration

variable {e : Enumeration}

/-- A pattern for one node that is matched with a place, whatever is bound so far. -/
def Meets (e : Enumeration) (p : Node) (c : Site) : Prop :=
  p.glob? = none ∧ ∀ b, ∃ b', b' ∈ e.node p c b

/-- Patterns that meet their candidates one by one are found in a fixed list. -/
theorem fixed_of_meets {ps : List Node} {cs : List Site} (h : List.Forall₂ e.Meets ps cs)
    (b : Branch) : ∃ b', b' ∈ e.fixed ps cs b := by
  induction h generalizing b with
  | nil => exact ⟨b, List.mem_singleton.2 rfl⟩
  | @cons p c ps cs hFirst _ ih =>
      obtain ⟨hGlob, hNode⟩ := hFirst
      obtain ⟨b₁, hb₁⟩ := hNode b
      obtain ⟨b₂, hb₂⟩ := ih b₁
      rw [e.fixed_cons hGlob]
      exact ⟨b₂, List.mem_flatMap.2 ⟨b₁, hb₁, hb₂⟩⟩

/-- Patterns that meet their candidates one by one are found by a scan that skips nothing. -/
theorem scan_of_meets {dive : Bool} {ps : List Node} {cs : List Site}
    (h : List.Forall₂ e.Meets ps cs) (b : Branch) : ∃ b', b' ∈ e.scan dive ps cs b := by
  induction h generalizing b with
  | nil =>
      rw [scan_nil]
      exact ⟨b, List.mem_singleton.2 rfl⟩
  | @cons p c ps cs hFirst _ ih =>
      obtain ⟨hGlob, hNode⟩ := hFirst
      obtain ⟨b₁, hb₁⟩ := hNode (b.anchor (some c))
      obtain ⟨b₂, hb₂⟩ := ih b₁
      have hTaken : ⟨0, 0, b₁⟩ ∈ e.atSpot dive p ps ⟨c, cs⟩ b :=
        List.mem_append_left _ (List.mem_map.2 ⟨b₁, hb₁, rfl⟩)
      exact ⟨b₂, mem_scan_of_mem_scanFrom hGlob (List.mem_flatMap.2 ⟨_, hTaken, hb₂⟩)⟩

/-- Duties that can each be done from any branch can be done in a row. -/
theorem performAll_of_perform {duties : List Duty}
    (h : ∀ duty ∈ duties, ∀ b, ∃ b', b' ∈ e.perform duty b) (b : Branch) :
    ∃ b', b' ∈ e.performAll duties b := by
  induction duties generalizing b with
  | nil => exact ⟨b, List.mem_singleton.2 rfl⟩
  | cons duty duties ih =>
      obtain ⟨b₁, hb₁⟩ := h duty (by simp) b
      obtain ⟨b₂, hb₂⟩ := ih (fun d hd => h d (by simp [hd])) b₁
      exact ⟨b₂, List.mem_flatMap.2 ⟨b₁, hb₁, hb₂⟩⟩

/-- A part of a pattern is matched with its counterpart, and statement by statement if the two stand
for statements. -/
structure Suits (e : Enumeration) (p : Node) (c : Site) : Prop where
  whole : e.Meets p c
  statements : List.Forall₂ e.Meets (Duty.statements p) c.statements

/-- Slots that fit and suit each other make duties that can be done. -/
theorem perform_of_fits (whole : Bool) {f : Field Node} {g : Field Site} (hFit : f.fits g)
    (h : List.Forall₂ e.Suits f.toList g.toList) :
    ∃ duties, Duty.ofSlots? whole f g = some duties ∧
      ∀ duty ∈ duties, ∀ b, ∃ b', b' ∈ e.perform duty b := by
  have hPart : ∀ {p c}, e.Suits p c → ∀ duty ∈ [if whole then Duty.exact p c else .below p c],
      ∀ b, ∃ b', b' ∈ e.perform duty b := by
    intro p c hSuits duty hDuty b
    obtain rfl := List.mem_singleton.1 hDuty
    obtain ⟨b', hb'⟩ := hSuits.whole.2 b
    cases whole with
    | true => exact ⟨b', hb'⟩
    | false => exact ⟨b', List.mem_append_left _ hb'⟩
  have hList : ∀ {pairing ps cs}, List.Forall₂ e.Meets ps cs →
      ∀ duty ∈ [Duty.list pairing ps cs], ∀ b, ∃ b', b' ∈ e.perform duty b := by
    intro pairing ps cs hMeets duty hDuty b
    obtain rfl := List.mem_singleton.1 hDuty
    cases pairing with
    | fixed => exact fixed_of_meets hMeets b
    | ordered => exact scan_of_meets hMeets b
    | statements => exact scan_of_meets hMeets b
  cases f with
  | one p =>
      cases g with
      | one c => exact ⟨_, rfl, hPart (List.forall₂_cons.1 h).1⟩
      | _ => cases hFit
  | opt p? =>
      cases g with
      | opt c? =>
          cases p? with
          | none => exact ⟨[], rfl, by simp⟩
          | some p =>
              cases c? with
              | none => cases hFit
              | some c => exact ⟨_, rfl, hPart (List.forall₂_cons.1 h).1⟩
      | _ => cases hFit
  | stmt p? =>
      cases g with
      | stmt c? =>
          cases p? with
          | none => exact ⟨[], rfl, by simp⟩
          | some p =>
              cases c? with
              | none => cases hFit
              | some c => exact ⟨_, rfl, hList (List.forall₂_cons.1 h).1.statements⟩
      | _ => cases hFit
  | seq pairing ps =>
      cases g with
      | seq pairing' cs => exact ⟨_, rfl, hList (h.imp fun _ _ hSuits => hSuits.whole)⟩
      | _ => cases hFit

/-- Slots that fit, with parts that suit, owe duties that can all be done. -/
theorem perform_of_fitAll (whole : Bool) {fs : List (Field Node)} {gs : List (Field Site)}
    (hFit : Field.fitAll fs gs)
    (h : List.Forall₂ e.Suits (fs.flatMap Field.toList) (gs.flatMap Field.toList)) :
    ∃ duties, Duty.ofFields? whole fs gs = some duties ∧
      ∀ duty ∈ duties, ∀ b, ∃ b', b' ∈ e.perform duty b := by
  induction fs generalizing gs with
  | nil => exact ⟨[], by cases gs <;> rfl, by simp⟩
  | cons f fs ih =>
      cases gs with
      | nil => cases hFit
      | cons g gs =>
          obtain ⟨hSlot, hSlots⟩ := Bool.and_eq_true_iff.1 hFit
          rw [List.flatMap_cons, List.flatMap_cons] at h
          have hLength := Field.length_of_fits hSlot
          have hHere : List.Forall₂ e.Suits f.toList g.toList := by
            simpa [List.take_left' hLength] using List.forall₂_take_append _ _ _ h
          have hThere := List.forall₂_drop_append _ _ _ h
          rw [List.drop_left' hLength] at hThere
          obtain ⟨first, hFirst, hDone⟩ := perform_of_fits whole hSlot hHere
          obtain ⟨rest, hRest, hMore⟩ := ih hSlots hThere
          refine ⟨first ++ rest, ?_, ?_⟩
          · rw [Duty.ofFields?, hFirst, hRest]
            rfl
          · intro duty hDuty
            rcases List.mem_append.1 hDuty with hDuty | hDuty
            · exact hDone duty hDuty
            · exact hMore duty hDuty

end Enumeration

namespace Conditions

variable {conditions : Conditions}

/-- A form of a pattern has the shape of a block only if the pattern is a block, and then it is the
pattern itself. -/
theorem block_iff_of_mem_forms {p n form : Node} (hForm : form ∈ conditions.forms p n)
    (hShape : form.sameShape n) :
    (n.label = .block ↔ p.label = .block) ∧ (p.label = .block → form = p) := by
  have hBlock : ∀ {a b : Node}, a.sameShape b → a.label = .block → b.label = .block := by
    intro a b hSame hLabel
    cases a with
    | block body =>
        cases b with
        | block body' => rfl
        | _ => cases hSame
    | _ => cases hLabel
  have hLabels : n.label = .block ↔ form.label = .block :=
    ⟨hBlock (Node.sameShape_symm hShape), hBlock hShape⟩
  rcases mem_forms hForm with rfl | hRewrites
  · exact ⟨hLabels, fun _ => rfl⟩
  · have hForm : form.label ≠ .block := by
      intro hLabel
      cases hRewrites <;> cases hLabel
    have hPattern : p.label ≠ .block := by
      intro hLabel
      cases hRewrites <;> cases hLabel
    exact ⟨iff_of_false (fun hLabel => hForm (hLabels.1 hLabel)) hPattern,
      fun hLabel => absurd hLabel hPattern⟩

/-- A pattern without wildcards is matched with what it is equivalent to. The induction is on the
candidate, since the rules may enlarge the pattern. -/
theorem suits_of_equivalent {p : Node} {c : Site} (hPlain : p.wildcards = [])
    (h : Node.equivalent conditions.rules p c.node) : conditions.enumeration.Suits p c := by
  induction hSize : sizeOf c.node using Nat.strongRecOn generalizing p c with
  | ind size ih =>
      obtain ⟨form, hForm, hShape, hAligned, hPairs⟩ := Node.exists_form_of_equivalent h
      have hFormPlain : form.wildcards = [] := by
        apply List.eq_nil_iff_forall_not_mem.2
        intro w hw
        rw [mem_wildcards_of_mem_forms hForm, hPlain] at hw
        cases hw
      have hParts : List.Forall₂ conditions.enumeration.Suits form.children c.children := by
        apply Site.forall₂_children hAligned
        intro x s hx hs hPair
        exact ih _ (hSize ▸ Site.sizeOf_lt_of_mem_children hs) (Node.plain_of_child hFormPlain hx)
          (hPairs _ hPair) rfl
      have hGlob : p.glob? = none := Node.glob?_of_wildcard? (Node.wildcard?_of_plain hPlain)
      have hWhole : conditions.enumeration.Meets p c := by
        refine ⟨hGlob, fun b => ?_⟩
        change ∃ b', b' ∈ conditions.ways p c b
        rw [ways_eq_step]
        cases hp : p.isConcrete with
        | false =>
            cases p with
            | hole => exact ⟨b, List.mem_singleton.2 rfl⟩
            | wildcard w => cases Node.wildcard?_of_plain hPlain
            | _ => cases hp
        | true =>
            have hFit : Field.fitAll form.fields c.fields := by
              rw [← Field.fitAll_map _ _ Site.node, c.map_node_fields]
              exact hAligned
            obtain ⟨duties, hDuties, hDone⟩ :=
              Enumeration.perform_of_fitAll (Duty.wholeOnly form) hFit hParts
            obtain ⟨b', hb'⟩ := Enumeration.performAll_of_perform hDone b
            rw [Enumeration.step_concrete _ hp]
            refine ⟨b', List.mem_flatMap.2 ⟨form, hForm, ?_⟩⟩
            rw [Enumeration.sameForm_eq_performAll, if_pos hShape, Duty.ofNodes?_eq, hDuties]
            exact hb'
      refine ⟨hWhole, ?_⟩
      obtain ⟨hBlocks, hSelf⟩ := block_iff_of_mem_forms hForm hShape
      by_cases hBlock : c.node.label = .block
      · obtain rfl := hSelf (hBlocks.1 hBlock)
        rw [Site.statements_of_block hBlock, Duty.statements_of_block (hBlocks.1 hBlock)]
        exact hParts.imp fun _ _ hSuits => hSuits.whole
      · rw [Site.statements_of_other hBlock,
          Duty.statements_of_other fun hLabel => hBlock (hBlocks.2 hLabel)]
        exact .cons hWhole .nil

/-- Matching a pattern without wildcards with what it is equivalent to has a solution. -/
theorem exists_solution_of_equivalent {p n : Node} (hPlain : p.wildcards = [])
    (h : Node.equivalent conditions.rules p n) :
    ∃ b, b ∈ (conditions.searchNode p (.root n)).solutions := by
  have hNode : ∀ b, ∃ b', b' ∈ (conditions.node p (.root n) b).solutions := by
    intro b
    rw [solutions_node]
    exact (suits_of_equivalent (c := .root n) hPlain h).whole.2 b
  cases p with
  | program ps =>
      -- a program is compared with a program only, statement by statement
      obtain ⟨form, hForm, hShape, hAligned, hPairs⟩ := Node.exists_form_of_equivalent h
      obtain rfl : form = .program ps := by
        rcases mem_forms hForm with hSelf | hRewrites
        · exact hSelf
        · cases hRewrites
      cases n with
      | program cs =>
          have hMeets : List.Forall₂ conditions.enumeration.Meets (Node.program ps).children
              (Site.root (.program cs)).children := by
            apply Site.forall₂_children hAligned
            intro x s hx _ hPair
            exact (suits_of_equivalent (Node.plain_of_child hPlain hx) (hPairs _ hPair)).whole
          have hStatements : (Node.program ps).children = ps := by
            simp [Node.children, Node.fields, Field.toList]
          rw [hStatements] at hMeets
          change ∃ b, b ∈ (conditions.body ps (Site.root (.program cs)).children .start).solutions
          rw [solutions_body]
          exact Enumeration.scan_of_meets hMeets .start
      | _ => cases hShape
  | _ => exact hNode (.rootedAt (.root n))

/-- Matching subsumes equivalence. A tree without wildcards, taken as a pattern, is matched with
every tree that it is equivalent to, under any rules and whether or not order matters. In particular
it is matched with itself. -/
theorem equivalent_trees_match (rules : Option Rules) (orderMatters : Bool) {p : Node}
    (hPlain : p.wildcards = []) :
    (∀ c, Node.equivalent rules p c →
      ∃ found asked, Conditions.matchNode ⟨[], rules, orderMatters⟩ c (.tree p) =
        .ok (.matched found, asked)) ∧
    ∃ found asked, Conditions.matchNode ⟨[], rules, orderMatters⟩ p (.tree p) =
      .ok (.matched found, asked) := by
  have hMatches : ∀ c, Node.equivalent rules p c →
      ∃ found asked, Conditions.matchNode ⟨[], rules, orderMatters⟩ c (.tree p) =
        .ok (.matched found, asked) := by
    intro c h
    obtain ⟨compiled, hCompiled⟩ := Pattern.exists_compile_of_plain hPlain
    have hRoot : compiled.root = p := Pattern.root_of_compile hCompiled
    obtain ⟨b, hb⟩ : ∃ b, b ∈ (Conditions.searchNode ⟨[], rules, orderMatters⟩ compiled.root
        (.root c)).solutions := by
      rw [hRoot]
      exact exists_solution_of_equivalent hPlain h
    exact exists_matchNode_of_solution hCompiled hb
  exact ⟨hMatches, hMatches p (Node.equivalent_refl rules p)⟩

/-- The loop `while (x < 9) { a[i] += 1; }` is matched with `while (9 > x) { a[i]++; }` if there are
rules. -/
theorem equivalent_trees_match_loop :
    let item : Node := .member (.ident "a") (.ident "i") true
    let pattern : Node := .whileLoop (.binary .lt (.ident "x") (.int 9))
      (.block [.expr (.assign .add item (.int 1))])
    let candidate : Node := .whileLoop (.binary .gt (.int 9) (.ident "x"))
      (.block [.expr (.update .increment false item)])
    pattern.wildcards = [] ∧ Node.equivalent (some .all) pattern candidate ∧
    ∃ found asked, Conditions.matchNode ⟨[], some .all, true⟩ candidate (.tree pattern) =
      .ok (.matched found, asked) := by
  intro item pattern candidate
  have hPlain : pattern.wildcards = [] := by decide +kernel
  have hEquivalent : Node.equivalent (some .all) pattern candidate := by decide +kernel
  obtain ⟨hMatches, -⟩ := equivalent_trees_match (some .all) true hPlain
  exact ⟨hPlain, hEquivalent, hMatches candidate hEquivalent⟩

end Conditions

end CodeShape
