import CodeShape.Proofs.Refilling
import CodeShape.Proofs.Symmetry

/-! The number of nameless values of a match under rules. A rule may write the target of an
assignment, or the variable of a declaration, once more or once less than the pattern does. If no
nameless wildcard stands in such a part, a match has one nameless value for each nameless wildcard,
whatever alternatives it takes. -/
namespace CodeShape

open CodeShape.Pattern

namespace Node

variable {rules : Option Rules}

/-- Whether every wildcard in the tree has a name. -/
def fullyNamed (n : Node) : Bool := n.wildcards.all (·.name.isSome)

/-- Where every wildcard has a name, none is without. -/
theorem nameless_of_fullyNamed {n : Node} (h : n.fullyNamed) : nameless n.wildcards = 0 := by
  rw [nameless, List.length_eq_zero_iff, List.filter_eq_nil_iff]
  intro w hw
  have hName : w.name.isSome := List.all_eq_true.1 h w hw
  simpa [Option.isSome_iff_ne_none] using hName

/-- Whether an assignment of the value could be written with the target left out of the value. -/
def repeatsTarget (target value : Node) : Bool :=
  AssignOp.all.any fun op => (op.binary?.bind (operandBeside? target · value)).isSome

/-- Whether the rules write every nameless wildcard of the node as often as the node does. They copy
the target of an assignment or of an update, or leave a copy of it out, if operations may be part of
assignments. -/
def evenHere (rules : Option Rules) : Node → Bool
  | .assign op target value =>
    !rules.any Rules.compound || target.fullyNamed || (op = .plain && !repeatsTarget target value)
  | .update _ _ target =>
    !rules.any (fun on => on.compound && on.increment) || target.fullyNamed
  | _ => true

/-- The variable of a declaration of one variable. -/
def onlyDeclared? : Node → Option Node
  | .declaration _ [.declarator id _] => some id
  | _ => none

/-- Whether the same holds of the statements of a list, where declarations may be split and merged
with the next statement. -/
def evenStatements (rules : Option Rules) : List Node → Bool
  | [] => true
  | p :: ps =>
    (!rules.any Rules.declarationSplit || p.onlyDeclared?.all fullyNamed ||
      (p.splitDeclaration?.isNone && (ps.head?.bind p.mergeDeclaration?).isNone)) &&
      evenStatements rules ps

/-- The statement lists in the slots of a node. -/
def statementLists (n : Node) : List (List Node) :=
  n.fields.flatMap fun
    | .stmt (some p) => [Duty.statements p]
    | .seq .statements ps => [ps]
    | _ => []

/-- Whether the rules write every nameless wildcard of the tree as often as the tree does. -/
def Even (rules : Option Rules) (n : Node) : Prop :=
  ∀ d ∈ n.descendants, d.evenHere rules ∧ ∀ ps ∈ d.statementLists, evenStatements rules ps

instance (rules : Option Rules) (n : Node) : Decidable (n.Even rules) :=
  inferInstanceAs (Decidable (∀ d ∈ n.descendants,
    d.evenHere rules = true ∧ ∀ ps ∈ d.statementLists, evenStatements rules ps = true))

theorem Even.child {n c : Node} (h : n.Even rules) (hc : c ∈ n.children) : c.Even rules :=
  fun d hd => h d (mem_descendants_of_child hc hd)

/-- A node is even if it is so itself, with its lists of statements, and its children are even. -/
theorem even_iff {n : Node} :
    n.Even rules ↔ (n.evenHere rules ∧ ∀ ps ∈ n.statementLists, evenStatements rules ps) ∧
      ∀ c ∈ n.children, c.Even rules := by
  constructor
  · intro h
    exact ⟨h n n.mem_descendants_self, fun c hc => h.child hc⟩
  · rintro ⟨hHere, hBelow⟩ d hd
    rcases mem_descendants_iff.1 hd with rfl | ⟨c, hc, hd⟩
    · exact hHere
    · exact hBelow c hc d hd

theorem even_binary {op : BinaryOp} {left right : Node} :
    (Node.binary op left right).Even rules ↔ left.Even rules ∧ right.Even rules := by
  rw [even_iff]
  simp [evenHere, statementLists, fields]

theorem even_logical {op : LogicalOp} {left right : Node} :
    (Node.logical op left right).Even rules ↔ left.Even rules ∧ right.Even rules := by
  rw [even_iff]
  simp [evenHere, statementLists, fields]

/-- An assignment is even if it is so itself and its sides are even. -/
theorem even_assign {op : AssignOp} {target value : Node} :
    (Node.assign op target value).Even rules ↔
      (Node.assign op target value).evenHere rules ∧ target.Even rules ∧ value.Even rules := by
  rw [even_iff]
  simp [statementLists, fields]

/-- An update is even if it is so itself and its target is even. -/
theorem even_update {op : UpdateOp} {before : Bool} {target : Node} :
    (Node.update op before target).Even rules ↔
      (Node.update op before target).evenHere rules ∧ target.Even rules := by
  rw [even_iff]
  simp [statementLists, fields]

theorem even_expr {e : Node} : (Node.expr e).Even rules ↔ e.Even rules := by
  rw [even_iff]
  simp [evenHere, statementLists, fields, children, Field.toList]

/-- A literal holds no wildcard, so it is even. -/
theorem even_int (n : Int) : (Node.int n).Even rules := by
  rw [even_iff]
  simp [int, evenHere, statementLists, fields, children]

/-- A declaration of one name is even if the name and the value are. -/
theorem even_declaration {kind : DeclarationKind} {id : Node} {init : Option Node} :
    (Node.declaration kind [.declarator id init]).Even rules ↔
      id.Even rules ∧ ∀ value ∈ init, value.Even rules := by
  rw [even_iff]
  simp only [evenHere, statementLists, fields, children]
  simp [even_iff (n := .declarator id init), evenHere, statementLists, fields, children,
    Field.toList]

/-- Where an operand beside the target is found, the target is repeated. -/
theorem repeatsTarget_of_operand {op : AssignOp} {applied : BinaryOp} {target value operand : Node}
    (hOp : op.binary? = some applied) (h : operandBeside? target applied value = some operand) :
    repeatsTarget target value := by
  refine List.any_eq_true.2 ⟨op, ?_, ?_⟩
  · cases op <;> simp [AssignOp.all]
  · rw [hOp, Option.bind_some, h]
    rfl

/-- Which assignments keep their count of wildcards when they are rewritten. -/
theorem evenHere_assign {op : AssignOp} {target value : Node} :
    (Node.assign op target value).evenHere rules ↔
      (rules.any Rules.compound → target.fullyNamed ∨ op = .plain ∧ ¬ repeatsTarget target value) := by
  rw [evenHere]
  cases rules.any Rules.compound <;> simp

/-- Which updates keep their count of wildcards when they are rewritten. -/
theorem evenHere_update {op : UpdateOp} {before : Bool} {target : Node} :
    (Node.update op before target).evenHere rules ↔
      (rules.any (fun on => on.compound && on.increment) → target.fullyNamed) := by
  rw [evenHere]
  cases rules.any (fun on => on.compound && on.increment) <;> simp

/-- A target without nameless wildcards may be copied. -/
theorem evenHere_of_fullyNamed {op : AssignOp} {target value : Node} (h : target.fullyNamed) :
    (Node.assign op target value).evenHere rules :=
  evenHere_assign.2 fun _ => .inl h

/-- The other forms of an even assignment are even, with as many nameless wildcards. -/
theorem Even.reassigned {on : Rules} {op wanted : AssignOp} {target value form : Node}
    (hEven : (Node.assign op target value).Even (some on))
    (h : form ∈ Node.reassigned on op target value wanted) :
    form.Even (some on) ∧
      nameless form.wildcards = nameless (Node.assign op target value).wildcards := by
  obtain ⟨hHere, hTarget, hValue⟩ := even_assign.1 hEven
  obtain ⟨hOn, ⟨-, applied, hApplied, rfl⟩ | ⟨rfl, applied, hApplied, operand, hOperand, rfl⟩⟩ :=
    mem_reassigned.1 h
  · have hNamed : target.fullyNamed := by
      rcases evenHere_assign.1 hHere hOn with hNamed | ⟨rfl, -⟩
      · exact hNamed
      · cases hApplied
    refine ⟨even_assign.2 ⟨evenHere_of_fullyNamed hNamed, hTarget,
      even_binary.2 ⟨hTarget, hValue⟩⟩, ?_⟩
    simp [nameless_append, nameless_of_fullyNamed hNamed]
  · have hNamed : target.fullyNamed := by
      rcases evenHere_assign.1 hHere hOn with hNamed | ⟨-, hOnce⟩
      · exact hNamed
      · exact absurd (repeatsTarget_of_operand hApplied hOperand) hOnce
    refine ⟨even_assign.2 ⟨evenHere_of_fullyNamed hNamed, hTarget,
      hValue.child (mem_children_of_operandBeside? hOperand)⟩, ?_⟩
    obtain ⟨l, r, rfl, ⟨hSame, rfl⟩ | ⟨hSame, rfl⟩⟩ := operandBeside?_cases hOperand <;>
      simp [nameless_append, wildcards_eq_of_beq hSame, nameless_of_fullyNamed hNamed]

/-- The forms of an even update that are assignments are even, with as many nameless wildcards. -/
theorem Even.updateAssigned {on : Rules} {op : UpdateOp} {before : Bool} {wanted : AssignOp}
    {target form : Node} (hEven : (Node.update op before target).Even (some on))
    (h : form ∈ Node.updateAssigned on op target wanted) :
    form.Even (some on) ∧
      nameless form.wildcards = nameless (Node.update op before target).wildcards := by
  obtain ⟨hHere, hTarget⟩ := even_update.1 hEven
  obtain ⟨hOn, ⟨-, rfl⟩ | ⟨⟨-, hCompound⟩, applied, -, rfl⟩⟩ := mem_updateAssigned.1 h
  · refine ⟨even_assign.2 ⟨?_, hTarget, even_int 1⟩, by simp [int]⟩
    refine evenHere_assign.2 fun hCompound => .inl (evenHere_update.1 hHere ?_)
    simpa [hOn] using hCompound
  · have hNamed : target.fullyNamed := evenHere_update.1 hHere (by simp [hOn, hCompound])
    refine ⟨even_assign.2 ⟨evenHere_of_fullyNamed hNamed, hTarget,
      even_binary.2 ⟨hTarget, even_int 1⟩⟩, ?_⟩
    simp [int, nameless_append, nameless_of_fullyNamed hNamed]

/-- An even assignment that does what an update does is even as an update, with as many nameless
wildcards. -/
theorem Even.updated {on : Rules} {op : AssignOp} {target value : Node} {wanted : UpdateOp}
    {before : Bool} (hEven : (Node.assign op target value).Even (some on))
    (h : isUpdateBy on op target value wanted) :
    (Node.update wanted before target).Even (some on) ∧
      nameless (Node.update wanted before target).wildcards =
        nameless (Node.assign op target value).wildcards := by
  obtain ⟨hHere, hTarget, -⟩ := even_assign.1 hEven
  rcases isUpdateBy_iff.1 h with
    ⟨rfl, hOne⟩ | ⟨⟨-, hCompound⟩, applied, hApplied, operand, hOperand, hOne⟩
  · obtain ⟨literal, rfl⟩ := eq_literal_of_isOne hOne
    refine ⟨even_update.2 ⟨evenHere_update.2 fun hBoth => ?_, hTarget⟩, by simp⟩
    have hCompound : on.compound := (Bool.and_eq_true_iff.1 hBoth).1
    rcases evenHere_assign.1 hHere hCompound with hNamed | ⟨hPlain, -⟩
    · exact hNamed
    · cases wanted <;> cases hPlain
  · have hNamed : target.fullyNamed := by
      rcases evenHere_assign.1 hHere hCompound with hNamed | ⟨-, hOnce⟩
      · exact hNamed
      · exact absurd (repeatsTarget_of_operand hApplied hOperand) hOnce
    refine ⟨even_update.2 ⟨evenHere_update.2 fun _ => hNamed, hTarget⟩, ?_⟩
    obtain ⟨literal, rfl⟩ := eq_literal_of_isOne hOne
    obtain ⟨l, r, rfl, ⟨hSame, rfl⟩ | ⟨hSame, rfl⟩⟩ := operandBeside?_cases hOperand <;>
      simp [nameless_append, wildcards_eq_of_beq hSame, nameless_of_fullyNamed hNamed]

/-- All forms of an even pattern are even, with as many nameless wildcards. -/
theorem Even.alternatives {on : Rules} {p c form : Node} (hEven : p.Even (some on))
    (h : form ∈ Node.alternatives on p c) :
    form.Even (some on) ∧ nameless form.wildcards = nameless p.wildcards := by
  have hForm := h
  unfold Node.alternatives at hForm
  split at hForm
  · obtain ⟨-, rfl⟩ := mem_alternatives_binary.1 h
    refine ⟨even_binary.2 (even_binary.1 hEven).symm, ?_⟩
    simp [nameless_append, Nat.add_comm]
  · obtain ⟨-, rfl⟩ := mem_alternatives_logical.1 h
    refine ⟨even_logical.2 (even_logical.1 hEven).symm, ?_⟩
    simp [nameless_append, Nat.add_comm]
  · exact hEven.reassigned hForm
  · exact hEven.updateAssigned hForm
  · rw [List.mem_ite_nil_right, Bool.and_eq_true, List.mem_singleton] at hForm
    obtain ⟨⟨-, hUpdate⟩, rfl⟩ := hForm
    exact hEven.updated hUpdate
  · cases hForm

/-- The ends of an even row of statements are even. -/
theorem evenStatements_drop {ps : List Node} (h : evenStatements rules ps) (n : Nat) :
    evenStatements rules (ps.drop n) := by
  induction n generalizing ps with
  | zero => exact h
  | succ n ih =>
      cases ps with
      | nil => exact h
      | cons p ps => exact ih (Bool.and_eq_true_iff.1 h).2

/-- A declaration that is split or merged declares a variable without nameless wildcards. -/
theorem fullyNamed_of_onlyDeclared? {p id : Node} {ps : List Node}
    (h : evenStatements rules (p :: ps)) (hOn : rules.any Rules.declarationSplit)
    (hId : p.onlyDeclared? = some id)
    (hJoins : p.splitDeclaration?.isSome ∨ (ps.head?.bind p.mergeDeclaration?).isSome) :
    id.fullyNamed := by
  obtain ⟨hHere, -⟩ := Bool.and_eq_true_iff.1 h
  rw [hOn, hId] at hHere
  rcases hJoins with hSplit | hMerge
  · simpa [Option.isSome_iff_ne_none.1 hSplit] using hHere
  · simpa [Option.isSome_iff_ne_none.1 hMerge] using hHere

/-- The halves of a declaration in an even list are even, with as many nameless wildcards. -/
theorem even_of_split {p declared assigned : Node} {ps : List Node} (hEven : p.Even rules)
    (hRow : evenStatements rules (p :: ps)) (hOn : rules.any Rules.declarationSplit)
    (h : p.splitDeclaration? = some (declared, assigned)) :
    (declared.Even rules ∧ assigned.Even rules) ∧
      nameless p.wildcards = nameless declared.wildcards + nameless assigned.wildcards := by
  have hJoins : p.splitDeclaration?.isSome := by rw [h]; rfl
  obtain ⟨kind, id, init, rfl, rfl, rfl⟩ := splitDeclaration?_cases h
  have hNamed : id.fullyNamed := fullyNamed_of_onlyDeclared? hRow hOn rfl (.inl hJoins)
  obtain ⟨hId, hInit⟩ := even_declaration.1 hEven
  refine ⟨⟨even_declaration.2 ⟨hId, by simp⟩, even_expr.2 (even_assign.2
    ⟨evenHere_of_fullyNamed hNamed, hId, hInit init rfl⟩)⟩, ?_⟩
  simp [nameless_append, nameless_of_fullyNamed hNamed]

/-- Two statements of an even list make up an even declaration, with as many nameless wildcards. -/
theorem even_of_merge {p q merged : Node} {qs : List Node} (hp : p.Even rules) (hq : q.Even rules)
    (hRow : evenStatements rules (p :: q :: qs)) (hOn : rules.any Rules.declarationSplit)
    (h : p.mergeDeclaration? q = some merged) :
    merged.Even rules ∧
      nameless merged.wildcards = nameless p.wildcards + nameless q.wildcards := by
  have hJoins : ((q :: qs).head?.bind p.mergeDeclaration?).isSome := by
    rw [List.head?_cons, Option.bind_some, h]
    rfl
  obtain ⟨kind, id, left, right, rfl, rfl, hSame, rfl⟩ := mergeDeclaration?_cases h
  have hNamed : id.fullyNamed := fullyNamed_of_onlyDeclared? hRow hOn rfl (.inr hJoins)
  have hRight : right.Even rules := (even_assign.1 (even_expr.1 hq)).2.2
  refine ⟨even_declaration.2 ⟨(even_declaration.1 hp).1, ?_⟩, ?_⟩
  · intro value hValue
    cases hValue
    exact hRight
  · simp [nameless_append, wildcards_eq_of_beq hSame, nameless_of_fullyNamed hNamed]

end Node

/-- Patterns in a list, of statements if `dive`, whose nameless wildcards the rules leave alone. -/
structure Node.EvenRow (rules : Option Rules) (dive : Bool) (ps : List Node) : Prop where
  each : ∀ p ∈ ps, p.Even rules
  statements : dive → Node.evenStatements rules ps

theorem Node.EvenRow.drop {rules : Option Rules} {dive : Bool} {ps : List Node}
    (h : Node.EvenRow rules dive ps) (n : Nat) : Node.EvenRow rules dive (ps.drop n) :=
  ⟨fun p hp => h.each p (List.mem_of_mem_drop hp),
    fun hDive => Node.evenStatements_drop (h.statements hDive) n⟩

theorem Node.EvenRow.tail {rules : Option Rules} {dive : Bool} {p : Node} {ps : List Node}
    (h : Node.EvenRow rules dive (p :: ps)) : Node.EvenRow rules dive ps := h.drop 1

/-- The same of the patterns of a duty. -/
def Duty.Even (rules : Option Rules) : Duty → Prop
  | exact p _ | below p _ => p.Even rules
  | list pairing ps _ => Node.EvenRow rules (pairing = .statements) ps

/-- The duties of an even slot are even. -/
theorem Duty.even_of_ofSlots? {rules : Option Rules} {whole : Bool} {n : Node} {f : Field Node}
    {g : Field Site} {duties : List Duty} (h : ofSlots? whole f g = some duties)
    (hEven : n.Even rules) (hf : f ∈ n.fields) : ∀ duty ∈ duties, duty.Even rules := by
  have hChild : ∀ c ∈ f.toList, c.Even rules := fun c hc =>
    hEven.child (List.mem_flatMap.2 ⟨f, hf, hc⟩)
  have hLists : ∀ ps ∈ n.statementLists, Node.evenStatements rules ps :=
    (Node.even_iff.1 hEven).1.2
  rcases ofSlots?_cases h with
    ⟨p, c, hPair, rfl⟩ | ⟨p, c, rfl, -, rfl⟩ | ⟨pairing, _, ps, cs, rfl, -, rfl⟩ | ⟨-, rfl⟩
  · have hp : p.Even rules := by
      rcases hPair with ⟨rfl, -⟩ | ⟨rfl, -⟩ <;> exact hChild p (by simp [Field.toList])
    intro duty hDuty
    obtain rfl := List.mem_singleton.1 hDuty
    cases whole <;> exact hp
  · intro duty hDuty
    obtain rfl := List.mem_singleton.1 hDuty
    have hp : p.Even rules := hChild p (by simp [Field.toList])
    refine ⟨fun q hq => ?_, fun _ => hLists _ (List.mem_flatMap.2 ⟨_, hf, by simp⟩)⟩
    rcases mem_statements hq with rfl | hq
    · exact hp
    · exact hp.child hq
  · intro duty hDuty
    obtain rfl := List.mem_singleton.1 hDuty
    refine ⟨hChild, fun hPairing => ?_⟩
    obtain rfl := of_decide_eq_true hPairing
    exact hLists _ (List.mem_flatMap.2 ⟨_, hf, by simp⟩)
  · simp

/-- The duties of an even node are even. -/
theorem Duty.even_of_ofNodes? {rules : Option Rules} {p : Node} {c : Site} {duties : List Duty}
    (h : ofNodes? p c = some duties) (hEven : p.Even rules) : ∀ duty ∈ duties, duty.Even rules := by
  have hFields : ∀ (whole : Bool) (fs : List (Field Node)) (gs : List (Field Site))
      (duties : List Duty), fs ⊆ p.fields → ofFields? whole fs gs = some duties →
      ∀ duty ∈ duties, duty.Even rules := by
    intro whole fs
    induction fs with
    | nil =>
        intro gs duties _ h
        cases h
        simp
    | cons f fs ih =>
        intro gs duties hSub h
        cases gs with
        | nil =>
            cases h
            simp
        | cons g gs =>
            obtain ⟨hf, hSub⟩ := List.cons_subset.1 hSub
            obtain ⟨first, rest, hFirst, hRest, rfl⟩ := ofFields?_cons h
            exact List.forall_mem_append.2
              ⟨even_of_ofSlots? hFirst hEven hf, ih gs rest hSub hRest⟩
  rw [ofNodes?_eq] at h
  exact hFields _ p.fields c.fields duties (List.Subset.refl _) h

/-- The same of the patterns of a task. -/
def Task.Even (rules : Option Rules) : Task → Prop
  | node p _ => p.Even rules
  | duty d => d.Even rules
  | duties ds => ∀ d ∈ ds, d.Even rules
  | fixed ps _ => Node.EvenRow rules false ps
  | scan dive ps _ => Node.EvenRow rules dive ps
  | spot dive p ps _ _ _ => Node.EvenRow rules dive (p :: ps)

namespace Conditions

variable {conditions : Conditions}

/-- Every form of an even pattern is even, and has as many nameless wildcards. -/
theorem even_of_mem_forms {p c form : Node} (hEven : p.Even conditions.rules)
    (h : form ∈ conditions.forms p c) :
    form.Even conditions.rules ∧ nameless form.wildcards = nameless p.wildcards := by
  rcases List.mem_cons.1 h with rfl | h
  · exact ⟨hEven, rfl⟩
  · cases hRules : conditions.rules with
    | none => simp [hRules] at h
    | some on =>
        rw [hRules] at h hEven
        exact hEven.alternatives h

/-- A binding without a name adds one to the nameless ones, and any other none. -/
theorem Binds.length_anonymous {w : Wildcard} {value : Binding} {b b' : Branch}
    (h : conditions.Binds w value b b') :
    b'.anonymous.length = b.anonymous.length + Pattern.nameless [w] := by
  cases h with
  | nameless hName => simp [Pattern.nameless, hName]
  | again hName | fresh hName => simp [Pattern.nameless, hName]

/-- Every way through a search for even patterns binds as many nameless wildcards as the patterns
have. -/
theorem Solves.length_anonymous {task : Task} {b b' : Branch} (h : conditions.Solves task b b')
    (hEven : task.Even conditions.rules) :
    b'.anonymous.length = b.anonymous.length + nameless task.wildcards := by
  induction h with
  | wildcard hBind =>
      rw [Task.wildcards, Node.wildcards_wildcard]
      exact hBind.length_anonymous
  | hole =>
      rw [Task.wildcards, Node.wildcards_eq]
      rfl
  | @form p form c duties b b' hp hForm hShape hDuties _ ih =>
      obtain ⟨hFormEven, hCount⟩ := even_of_mem_forms hEven hForm
      have hConcrete : form.isConcrete := by
        rcases mem_forms hForm with rfl | hRewrites
        · exact hp
        · exact isConcrete_of_rewrites hRewrites
      have hSame := Duty.flatMap_wildcards_of_ofNodes? hShape (wildcard?_of_isConcrete hConcrete)
        hDuties
      -- the form may be another than the pattern, but its count is the same
      rw [ih (Duty.even_of_ofNodes? hDuties hFormEven), Task.wildcards, Task.wildcards, hSame,
        hCount]
  | noDuties => rfl
  | consDuties _ _ ihFirst ihRest =>
      obtain ⟨hFirst, hRest⟩ := List.forall_mem_cons.1 hEven
      rw [ihRest hRest, ihFirst hFirst]
      simp [Task.wildcards, nameless_append, Nat.add_assoc]
  | exact _ ih | within _ _ _ ih =>
      rw [ih hEven]
      simp [Task.wildcards, Duty.wildcards, Duty.patterns]
  | fixed _ ih | ordered _ ih | statements _ ih => exact ih hEven
  | fixedNil | scanNil => rfl
  | fixedLast hGlob hBind =>
      obtain ⟨rfl, -⟩ := Node.eq_wildcard_of_glob? hGlob
      simpa [Task.wildcards] using hBind.length_anonymous
  | fixedGlob hGlob hBind _ ih =>
      obtain ⟨rfl, -⟩ := Node.eq_wildcard_of_glob? hGlob
      rw [ih hEven.tail, hBind.length_anonymous, Nat.add_assoc, ← nameless_append]
      simp [Task.wildcards]
  | fixedCons _ _ _ ihFirst ihRest =>
      rw [ihRest hEven.tail, ihFirst (hEven.each _ List.mem_cons_self), Nat.add_assoc,
        ← nameless_append]
      rfl
  | scanCons _ _ _ _ ihFirst ihRest =>
      rw [ihRest (hEven.tail.drop _), ihFirst hEven, Nat.add_assoc, ← nameless_append,
        ← Task.wildcards_scan_cons]
  | scanLast hGlob hBind =>
      obtain ⟨rfl, -⟩ := Node.eq_wildcard_of_glob? hGlob
      simpa [Task.wildcards, Branch.anchor] using hBind.length_anonymous
  | @scanGlob dive p q qs w run spot np nc b b₁ b₂ b₃ hGlob hBind _ _ ihFirst ihRest =>
      obtain ⟨rfl, -⟩ := Node.eq_wildcard_of_glob? hGlob
      have hSpot : nameless (Task.spot dive q qs spot np nc).wildcards +
          nameless (Task.scan dive (qs.drop np) (spot.following.drop nc)).wildcards =
          nameless ((q :: qs).flatMap Node.wildcards) := by
        rw [← nameless_append]
        exact congrArg nameless
          (@Task.wildcards_scan_cons dive q qs [] spot np nc (spot.following.drop nc)).symm
      rw [ihRest (hEven.tail.tail.drop _), ihFirst hEven.tail, hBind.length_anonymous, Nat.add_assoc,
        Nat.add_assoc, hSpot, ← nameless_append]
      simp [Task.wildcards, Branch.anchor]
  | whole _ ih =>
      rw [ih (hEven.each _ List.mem_cons_self)]
      simp [Task.wildcards, Branch.anchor]
  | split hOn hSplit _ _ _ ihFirst ihSecond =>
      -- the halves of an even declaration have its nameless wildcards between them
      obtain ⟨⟨hDeclared, hAssigned⟩, hCount⟩ := Node.even_of_split
        (hEven.each _ List.mem_cons_self) (hEven.statements rfl) hOn hSplit
      rw [ihSecond hAssigned, ihFirst hDeclared]
      simp [Task.wildcards, Branch.anchor, hCount, Nat.add_assoc]
  | merged hOn hMerge _ ih =>
      obtain ⟨hMerged, hCount⟩ := Node.even_of_merge (hEven.each _ List.mem_cons_self)
        (hEven.each _ (by simp)) (hEven.statements rfl) hOn hMerge
      rw [ih hMerged]
      simp [Task.wildcards, Branch.anchor, hCount, nameless_append]

/-- An even pattern has as many nameless bindings as nameless wildcards in every solution. -/
theorem Finds.length_anonymous {top : Site} {pattern : Node} {b : Branch}
    (h : conditions.Finds top pattern b) (hEven : pattern.Even conditions.rules) :
    b.anonymous.length = nameless pattern.wildcards := by
  have hRow : ∀ {ps}, pattern = .program ps → Node.EvenRow conditions.rules true ps := by
    rintro ps rfl
    obtain ⟨⟨-, hLists⟩, hBelow⟩ := Node.even_iff.1 hEven
    refine ⟨fun p hp => hBelow p ?_, fun _ => hLists ps ?_⟩
    · simpa [Node.children, Node.fields, Field.toList] using hp
    · simp [Node.statementLists, Node.fields]
  cases h with
  | statements _ done =>
      have hCount := done.length_anonymous (hRow rfl)
      simpa [Task.wildcards, Branch.start] using hCount
  | nothing =>
      rw [Node.wildcards_program]
      rfl
  | alone done =>
      have hCount := done.length_anonymous ((hRow rfl).each _ List.mem_cons_self)
      simpa [Task.wildcards, Branch.rootedAt] using hCount
  | anywhere _ done =>
      have hCount := done.length_anonymous hEven
      simpa [Task.wildcards, Branch.rootedAt] using hCount

/-- The names of a pattern have values of their extents in what a match found. -/
theorem Finds.serves {top : Site} {compiled : Pattern} {b : Branch} {constraints : List Constraint}
    (h : conditions.Finds top compiled.root b)
    (hValid : Pattern.validate compiled.root constraints = .ok compiled.vars) :
    Pattern.Serves (b.finish top) compiled.root.wildcards := by
  obtain ⟨-, hVars, -⟩ := Pattern.validate_ok hValid
  intro name extent hMem
  obtain ⟨value, hFind, hExtent⟩ := (h.covers hVars).exists_value ((hVars name extent).2 hMem)
  refine ⟨value.capture, ?_, by rw [value.extent_capture, hExtent]⟩
  rw [b.find?_finish, Branch.value?, hFind]
  rfl

/-- Under any rules, a match of an even pattern has exactly one nameless value for each nameless
wildcard of the pattern, and filling the pattern with the bindings succeeds. -/
theorem matched_bindings_count {pattern : PatternSource} {compiled : Pattern} {bindings : Bindings}
    {asked : List Inquiry}
    (hCompiled : Pattern.compile pattern conditions.constraints = .ok compiled)
    (hEven : compiled.root.Even conditions.rules)
    (hMatched : (∃ source, conditions.matchCode source pattern = .ok (.matched bindings, asked)) ∨
      ∃ n, conditions.matchNode n pattern = .ok (.matched bindings, asked)) :
    bindings.anonymous.length = nameless compiled.root.wildcards ∧
      ∃ t, compiled.inject bindings = .ok t := by
  obtain ⟨top, b, hFinds, rfl⟩ :
      ∃ top b, conditions.Finds top compiled.root b ∧ bindings = b.finish top := by
    rcases hMatched with ⟨source, hMatched⟩ | ⟨n, hMatched⟩
    · exact exists_finds_of_matchCode hCompiled hMatched
    · exact exists_finds_of_matchNode hCompiled hMatched
  have hCount : (b.finish top).anonymous.length = nameless compiled.root.wildcards := by
    rw [← hFinds.length_anonymous hEven, Branch.finish, List.length_map]
  obtain ⟨run, supply, hFills, -⟩ :=
    Pattern.exists_fills (x := ⟨(b.finish top).anonymous, 0⟩)
      (hFinds.serves (Pattern.compile_ok hCompiled)) (Nat.le_of_eq hCount.symm)
  refine ⟨hCount, Node.ofRun run, ?_⟩
  rw [Pattern.inject_eq, hFills]
  rfl

/-- Under all rules the pattern `$x += _;` at `n = 2 + n;`: the target is written twice, but it has
a name. -/
theorem matched_bindings_count_sum :
    let conditions : Conditions := ⟨[], some .all, false⟩
    let pattern : Node :=
      .expr (.assign .add (.wildcard ⟨some "x", .scalar⟩) (.wildcard ⟨none, .scalar⟩))
    let source : Node := .expr (.assign .plain (.ident "n") (.binary .add (.int 2) (.ident "n")))
    pattern.Even conditions.rules ∧ ∃ compiled bindings asked,
      Pattern.compile (.tree pattern) [] = .ok compiled ∧
      conditions.matchCode (.tree source) (.tree pattern) = .ok (.matched bindings, asked) ∧
      bindings.anonymous.length = 1 ∧ ∃ t, compiled.inject bindings = .ok t := by
  intro conditions pattern source
  have hEven : pattern.Even conditions.rules := by decide +kernel
  obtain ⟨bindings, asked, hMatch⟩ : ∃ bindings asked,
      conditions.matchCode (.tree source) (.tree pattern) = .ok (.matched bindings, asked) :=
    Outcome.exists_matched_of_verdict (by decide +kernel)
  obtain ⟨-, compiled, -, -, hCompiled, -⟩ := exists_solution_of_matchCode hMatch
  have hRoot := Pattern.root_of_compile hCompiled
  have hNumber : nameless pattern.wildcards = 1 := by decide +kernel
  obtain ⟨hCount, hFilled⟩ :=
    matched_bindings_count hCompiled (hRoot.symm ▸ hEven) (.inl ⟨_, hMatch⟩)
  rw [hRoot, hNumber] at hCount
  exact ⟨hEven, compiled, bindings, asked, hCompiled, hMatch, hCount, hFilled⟩

/-- Under all rules `_ += 1;` with its one nameless wildcard takes two nameless values at
`x = y + 1;`, and `_ = _ + 1;` with two takes one at `x += 1;`. So does `var _ = 7;` take two values
at `var x; x = 7;`. -/
theorem matched_bindings_miscount :
    let conditions : Conditions := ⟨[], some .all, false⟩
    let any : Node := .wildcard ⟨none, .scalar⟩
    let added (target : Node) : Node := .expr (.assign .add target (.int 1))
    let summed (target operand : Node) : Node :=
      .expr (.assign .plain target (.binary .add operand (.int 1)))
    let declared (id : Node) (init : Option Node) : Node := .declaration .var [.declarator id init]
    let values (source pattern : Node) : Option Nat :=
      match conditions.matchCode (.tree source) (.tree pattern) with
      | .ok (.matched bindings, _) => some bindings.anonymous.length
      | .ok (.failed _, _) | .error _ => none
    (values (.program [summed (.ident "x") (.ident "y")]) (.program [added any]) = some 2 ∧
      nameless (Node.program [added any]).wildcards = 1) ∧
    (values (.program [added (.ident "x")]) (.program [summed any any]) = some 1 ∧
      nameless (Node.program [summed any any]).wildcards = 2) ∧
    values (.program [declared (.ident "x") none, .expr (.assign .plain (.ident "x") (.int 7))])
        (.program [declared any (some (.int 7))]) = some 2 ∧
      nameless (Node.program [declared any (some (.int 7))]).wildcards = 1 := by
  decide +kernel

end Conditions

end CodeShape
