import CodeShape.Proofs.Completeness
import CodeShape.Proofs.Equivalence

/-! More rules find more. Families of rules only ever add forms of a pattern, ways to split a
declaration and trees that count as equal, so a derivation under some rules is one under more. -/
namespace CodeShape

/-- Every family that is on in the first rules is on in the second. -/
structure Rules.Within (rules wider : Rules) : Prop where
  commutative : rules.commutative → wider.commutative
  converse : rules.converse → wider.converse
  compound : rules.compound → wider.compound
  increment : rules.increment → wider.increment
  declarationSplit : rules.declarationSplit → wider.declarationSplit

/-- Rules are ordered by the families that are on. Having none at all is below any rules. -/
instance : LE Rules := ⟨Rules.Within⟩

/-- Equal labels stay equal without the mark of an abbreviated property. -/
theorem Label.unabbreviated_beq {l l' : Label} (h : l == l') :
    l.unabbreviated == l'.unabbreviated := by
  have hCases : ∀ l : Label, l.unabbreviated = l ∨
      ∃ kind computed shorthand isMethod, l = .property kind computed shorthand isMethod := by
    intro l
    cases l with
    | property => exact .inr ⟨_, _, _, _, rfl⟩
    | _ => exact .inl rfl
  cases l with
  | property kind computed shorthand isMethod =>
      cases l' with
      | property kind' computed' shorthand' isMethod' =>
          obtain ⟨hKind, h⟩ := Bool.and_eq_true_iff.1 h
          obtain ⟨hComputed, h⟩ := Bool.and_eq_true_iff.1 h
          obtain ⟨-, hMethod⟩ := Bool.and_eq_true_iff.1 h
          exact Bool.and_eq_true_iff.2 ⟨hKind, Bool.and_eq_true_iff.2 ⟨hComputed,
            Bool.and_eq_true_iff.2 ⟨rfl, hMethod⟩⟩⟩
      | _ => cases h
  | _ =>
      rcases hCases l' with hl' | ⟨kind, computed, shorthand, isMethod, rfl⟩
      · rw [hl']
        exact h
      · cases h

namespace Node

variable {rules wider : Rules}

/-- More rules rewrite an assignment in more ways. -/
theorem reassigned_subset (h : rules ≤ wider) (op : AssignOp) (left right : Node)
    (wanted : AssignOp) :
    reassigned rules op left right wanted ⊆ reassigned wider op left right wanted := by
  unfold reassigned
  cases hOn : rules.compound with
  | false => simp
  | true => simp [h.compound hOn]

/-- More rules rewrite an update in more ways. -/
theorem updateAssigned_subset (h : rules ≤ wider) (op : UpdateOp) (argument : Node)
    (wanted : AssignOp) :
    updateAssigned rules op argument wanted ⊆ updateAssigned wider op argument wanted := by
  unfold updateAssigned
  cases hOn : rules.increment with
  | false => simp
  | true =>
      rw [h.increment hOn]
      cases hCompound : rules.compound with
      | true => rw [h.compound hCompound]; exact List.Subset.refl _
      | false =>
          simp only [Bool.not_true, Bool.false_eq_true, if_false, Bool.and_false]
          split
          · exact List.Subset.refl _
          · exact List.nil_subset _

/-- What is an update stays one under more rules. -/
theorem isUpdateBy_mono (h : rules ≤ wider) {op : AssignOp} {left right : Node} {wanted : UpdateOp}
    (hUpdate : isUpdateBy rules op left right wanted) : isUpdateBy wider op left right wanted := by
  unfold isUpdateBy at hUpdate ⊢
  simp only [Bool.or_eq_true, Bool.and_eq_true] at hUpdate ⊢
  rcases hUpdate with hDirect | ⟨⟨hPlain, hOn⟩, hSum⟩
  · exact .inl hDirect
  · exact .inr ⟨⟨hPlain, h.compound hOn⟩, hSum⟩

/-- More rules give a pattern more forms. -/
theorem alternatives_subset (h : rules ≤ wider) (p c : Node) :
    alternatives rules p c ⊆ alternatives wider p c := by
  intro form hForm
  unfold alternatives at hForm ⊢
  split at hForm
  · simp only [List.mem_append, List.mem_ite_nil_right, Bool.and_eq_true] at hForm ⊢
    rcases hForm with ⟨⟨⟨hOn, hSame⟩, hOp⟩, hForm⟩ | ⟨⟨hOn, hOp⟩, hForm⟩
    · exact .inl ⟨⟨⟨h.commutative hOn, hSame⟩, hOp⟩, hForm⟩
    · exact .inr ⟨⟨h.converse hOn, hOp⟩, hForm⟩
  · simp only [List.mem_ite_nil_right, Bool.and_eq_true] at hForm ⊢
    obtain ⟨⟨⟨hOn, hSame⟩, hOp⟩, hForm⟩ := hForm
    exact ⟨⟨⟨h.commutative hOn, hSame⟩, hOp⟩, hForm⟩
  · exact reassigned_subset h _ _ _ _ hForm
  · exact updateAssigned_subset h _ _ _ hForm
  · simp only [List.mem_ite_nil_right, Bool.and_eq_true] at hForm ⊢
    obtain ⟨⟨hOn, hUpdate⟩, hForm⟩ := hForm
    exact ⟨⟨h.increment hOn, isUpdateBy_mono h hUpdate⟩, hForm⟩
  · cases hForm

/-- Equal trees are equal under any rules. -/
theorem equalUnder_of_beq (rules : Rules) {a b : Node} (h : a == b) : equalUnder rules a b := by
  induction hSize : sizeOf b using Nat.strongRecOn generalizing a b with
  | ind size ih =>
      rw [beq_eq, Bool.and_eq_true_iff, Bool.and_eq_true_iff] at h
      obtain ⟨⟨hLabel, hAligned⟩, hChildren⟩ := h
      have hShape : a.sameShape b := Label.unabbreviated_beq hLabel
      rw [equalUnder_eq, List.any_cons, hShape, hAligned, Bool.true_and, Bool.true_and,
        Bool.or_eq_true]
      refine .inl (List.all_eq_true.2 fun pair hPair => ?_)
      refine ih _ ?_ (List.all_eq_true.1 hChildren pair hPair) rfl
      rw [← hSize]
      exact sizeOf_lt_of_mem_children (List.of_mem_zip hPair).2

/-- Nodes that are equal stay so under more rules. -/
theorem equalUnder_mono (h : rules ≤ wider) {p c : Node} (hEqual : equalUnder rules p c) :
    equalUnder wider p c := by
  induction hSize : sizeOf c using Nat.strongRecOn generalizing p c with
  | ind size ih =>
      rw [equalUnder_eq, List.any_eq_true] at hEqual ⊢
      obtain ⟨form, hForm, hEqual⟩ := hEqual
      refine ⟨form, ?_, ?_⟩
      · rcases List.mem_cons.1 hForm with rfl | hForm
        · exact List.mem_cons_self
        · exact List.mem_cons_of_mem _ (alternatives_subset h p c hForm)
      · rw [Bool.and_eq_true_iff] at hEqual ⊢
        obtain ⟨hShape, hChildren⟩ := hEqual
        refine ⟨hShape, List.all_eq_true.2 fun pair hPair => ?_⟩
        refine ih _ ?_ (List.all_eq_true.1 hChildren pair hPair) rfl
        rw [← hSize]
        exact sizeOf_lt_of_mem_children (List.of_mem_zip hPair).2

/-- Trees that may stand for each other still may under more rules. -/
theorem equivalent_mono {rules wider : Option Rules} (h : rules ≤ wider) {p c : Node}
    (hEqual : equivalent rules p c) : equivalent wider p c := by
  cases wider with
  | none =>
      obtain rfl := Option.le_none.1 h
      exact hEqual
  | some wider =>
      cases rules with
      | none => exact equalUnder_of_beq wider hEqual
      | some rules => exact equalUnder_mono (Option.some_le_some.1 h) hEqual

end Node

/-- The same conditions on values, and at least the same rules. Whether order matters plays no
part. -/
structure Conditions.Within (conditions wider : Conditions) : Prop where
  constraints : wider.constraints = conditions.constraints
  rules : conditions.rules ≤ wider.rules

namespace Conditions

variable {conditions wider : Conditions}

/-- Bindings that agree do so under wider conditions. -/
theorem Within.agree (h : conditions.Within wider) {old new : Binding}
    (hAgree : conditions.agree old new) : wider.agree old new := by
  unfold Conditions.agree at hAgree ⊢
  rw [Bool.and_eq_true_iff] at hAgree ⊢
  refine ⟨hAgree.1, List.all_eq_true.2 fun pair hPair => ?_⟩
  exact Node.equivalent_mono h.rules (List.all_eq_true.1 hAgree.2 pair hPair)

/-- Wider conditions split declarations too. -/
theorem Within.splitsDeclarations (h : conditions.Within wider)
    (hOn : conditions.splitsDeclarations) : wider.splitsDeclarations := by
  obtain ⟨rules, hRules, hSplit⟩ := (Option.any_eq_true _ _).1 hOn
  have hWide := h.rules
  cases hWider : wider.rules with
  | none => rw [hWider, hRules] at hWide; cases Option.le_none.1 hWide
  | some more =>
      rw [hWider, hRules] at hWide
      have hMore : more.declarationSplit := (Option.some_le_some.1 hWide).declarationSplit hSplit
      rw [Conditions.splitsDeclarations, hWider]
      exact hMore

/-- Wider conditions try all the forms, and maybe more. -/
theorem Within.forms_subset (h : conditions.Within wider) (p c : Node) :
    conditions.forms p c ⊆ wider.forms p c := by
  refine List.cons_subset_cons p ?_
  have hWide := h.rules
  cases hRules : conditions.rules with
  | none => exact List.nil_subset _
  | some rules =>
      cases hWider : wider.rules with
      | none => rw [hWider, hRules] at hWide; cases Option.le_none.1 hWide
      | some more =>
          rw [hWider, hRules] at hWide
          exact Node.alternatives_subset (Option.some_le_some.1 hWide) p c

/-- A binding that is allowed is allowed under wider conditions. -/
theorem Binds.widen (h : conditions.Within wider) {w : Wildcard} {value : Binding} {b b' : Branch}
    (hBind : conditions.Binds w value b b') : wider.Binds w value b b' := by
  cases hBind with
  | nameless hName => exact .nameless hName
  | again hName hOld hAgree => exact .again hName hOld (h.agree hAgree)
  | fresh hName hNew hPass => exact .fresh hName hNew (h.constraints.symm ▸ hPass)

/-- What can be derived can still be derived under more rules, with the same bindings. -/
theorem Solves.widen (h : conditions.Within wider) {task : Task} {b b' : Branch}
    (hSolves : conditions.Solves task b b') : wider.Solves task b b' := by
  induction hSolves with
  | wildcard hBind => exact .wildcard (hBind.widen h)
  | hole => exact .hole
  | form hp hForm hShape hDuties _ ih =>
      exact .form hp (h.forms_subset _ _ hForm) hShape hDuties ih
  | noDuties => exact .noDuties
  | consDuties _ _ ihFirst ihRest => exact .consDuties ihFirst ihRest
  | exact _ ih => exact .exact ih
  | within hd hSeek _ ih => exact .within hd hSeek ih
  | fixed _ ih => exact .fixed ih
  | ordered _ ih => exact .ordered ih
  | statements _ ih => exact .statements ih
  | fixedNil => exact .fixedNil
  | fixedLast hGlob hBind => exact .fixedLast hGlob (hBind.widen h)
  | fixedGlob hGlob hBind _ ih => exact .fixedGlob hGlob (hBind.widen h) ih
  | fixedCons hGlob _ _ ihFirst ihRest => exact .fixedCons hGlob ihFirst ihRest
  | scanNil => exact .scanNil
  | scanCons hGlob hSpot _ _ ihFirst ihRest => exact .scanCons hGlob hSpot ihFirst ihRest
  | scanLast hGlob hBind => exact .scanLast hGlob (hBind.widen h)
  | scanGlob hGlob hBind _ _ ihFirst ihRest =>
      exact .scanGlob hGlob (hBind.widen h) ihFirst ihRest
  | whole _ ih => exact .whole ih
  | split hOn hSplit hNext _ _ ihFirst ihSecond =>
      exact .split (h.splitsDeclarations hOn) hSplit hNext ihFirst ihSecond
  | merged hOn hMerge _ ih => exact .merged (h.splitsDeclarations hOn) hMerge ih

/-- A solution is one under wider conditions, if the order is free there. -/
theorem Within.mem_searchCode (h : conditions.Within wider) (hFree : wider.orderMatters = false)
    {pattern : Node} {program : Site} {b : Branch}
    (hb : b ∈ (conditions.searchCode pattern program).solutions) :
    b ∈ (wider.searchCode pattern program).solutions := by
  obtain ⟨opening, hOpening, hSolves⟩ := exists_opening_of_mem_searchCode hb
  exact mem_searchCode_of_opening hFree hOpening (hSolves.widen h)

/-- A solution for a single node is one under wider conditions, if the order is free there. -/
theorem Within.mem_searchNode (h : conditions.Within wider) (hFree : wider.orderMatters = false)
    {pattern : Node} {candidate : Site} {b : Branch}
    (hb : b ∈ (conditions.searchNode pattern candidate).solutions) :
    b ∈ (wider.searchNode pattern candidate).solutions := by
  obtain ⟨opening, hOpening, hSolves⟩ := exists_opening_of_mem_searchNode hb
  exact mem_searchNode_of_opening hFree hOpening (hSolves.widen h)

/-- More rules lose nothing. Trees that are equivalent under some rules are so under more, and as
long as order does not matter, what is matched under some rules is matched under more. -/
theorem more_rules_lose_nothing {conditions : Conditions} {rules : Option Rules}
    (hRules : conditions.rules ≤ rules) :
    (∀ p c, Node.equivalent conditions.rules p c → Node.equivalent rules p c) ∧
    (conditions.orderMatters = false → ∀ pattern,
      (∀ source found asked,
        conditions.matchCode source pattern = .ok (.matched found, asked) →
        ∃ found' asked', { conditions with rules := rules }.matchCode source pattern =
          .ok (.matched found', asked')) ∧
      ∀ n found asked,
        conditions.matchNode n pattern = .ok (.matched found, asked) →
        ∃ found' asked', { conditions with rules := rules }.matchNode n pattern =
          .ok (.matched found', asked')) := by
  have hWithin : conditions.Within { conditions with rules := rules } := ⟨rfl, hRules⟩
  refine ⟨fun p c hEqual => Node.equivalent_mono hRules hEqual, fun hFree pattern => ⟨?_, ?_⟩⟩
  · intro source found asked hMatched
    obtain ⟨n, compiled, b, hTree, hCompiled, hb, -⟩ := exists_solution_of_matchCode hMatched
    exact exists_matchCode_of_solution hTree hCompiled (hWithin.mem_searchCode hFree hb)
  · intro n found asked hMatched
    obtain ⟨compiled, b, hCompiled, hb, -⟩ := exists_solution_of_matchNode hMatched
    exact exists_matchNode_of_solution hCompiled (hWithin.mem_searchNode hFree hb)

/-- The pattern `$a + 1` is found in `f(1 + x)` if operands may be swapped, and so under all
rules. -/
theorem more_rules_lose_nothing_sum :
    let pattern : Node := .binary .add (.wildcard ⟨some "a", .scalar⟩) (.int 1)
    let source : Node := .call (.ident "f") [.binary .add (.int 1) (.ident "x")]
    let conditions : Conditions := ⟨[], some ⟨true, false, false, false, false⟩, false⟩
    (∃ found asked, conditions.matchCode (.tree source) (.tree pattern) =
      .ok (.matched found, asked)) ∧
    ∃ found asked, { conditions with rules := some .all }.matchCode (.tree source) (.tree pattern) =
      .ok (.matched found, asked) := by
  intro pattern source conditions
  obtain ⟨found, asked, hMatch⟩ : ∃ found asked,
      conditions.matchCode (.tree source) (.tree pattern) = .ok (.matched found, asked) :=
    Outcome.exists_matched_of_verdict (by decide +kernel)
  have hRules : conditions.rules ≤ some .all := by
    refine Option.some_le_some.2 ⟨?_, ?_, ?_, ?_, ?_⟩ <;> exact fun _ => rfl
  obtain ⟨hCode, -⟩ := (more_rules_lose_nothing hRules).2 rfl (.tree pattern)
  exact ⟨⟨found, asked, hMatch⟩, hCode (.tree source) found asked hMatch⟩

end Conditions

end CodeShape
