import CodeShape.Proofs.Equality
import CodeShape.Proofs.Leniency

/-! Equivalence turned around. Equivalence under rules goes both ways as long as no assignment
repeats its target in other words: to take `a = a + b` for `a += b` the two targets have to be
equal, while on the way back they only have to be equivalent. -/
namespace CodeShape

/-- Turning a comparison round twice gives it back. -/
theorem BinaryOp.converse?_symm {op op' : BinaryOp} (h : op.converse? = some op') :
    op'.converse? = some op := by
  cases op <;> cases h <;> rfl

namespace Node

variable {rules : Rules}

@[simp]
theorem children_assign (op : AssignOp) (l r : Node) : (Node.assign op l r).children = [l, r] := rfl

@[simp]
theorem children_update (op : UpdateOp) (before : Bool) (x : Node) :
    (Node.update op before x).children = [x] := rfl

@[simp]
theorem children_binary (op : BinaryOp) (l r : Node) :
    (Node.binary op l r).children = [l, r] := rfl

@[simp]
theorem children_logical (op : LogicalOp) (l r : Node) :
    (Node.logical op l r).children = [l, r] := rfl

/-- Whether the trees have one shape and their parts are equal up to the rules. -/
def partwise (rules : Rules) (form candidate : Node) : Bool :=
  form.sameShape candidate && form.aligned candidate &&
    (form.children.zip candidate.children).all fun (x, y) => equalUnder rules x y

/-- Two nodes are equal under rules if they are so part by part, as they are or in an alternative
form. -/
theorem equalUnder_iff {p c : Node} :
    equalUnder rules p c ↔ partwise rules p c ∨
      ∃ form ∈ alternatives rules p c, partwise rules form c := by
  rw [equalUnder_eq, List.any_cons, Bool.or_eq_true, List.any_eq_true]
  rfl

/-- Nodes are equal part by part if their shapes fit and their children are equal. -/
theorem partwise_iff {a b : Node} :
    partwise rules a b ↔ a.sameShape b ∧ a.aligned b ∧
      List.Forall₂ (fun x y => equalUnder rules x y) a.children b.children := by
  rw [partwise, Bool.and_eq_true_iff, Bool.and_eq_true_iff, and_assoc]
  exact and_congr_right fun _ => and_congr_right fun hAligned => all_zip_iff hAligned

/-- Of nodes with two children each the children are compared in order. -/
theorem partwise_of_two {a b l r l' r' : Node} (ha : a.fields = [.one l, .one r])
    (hb : b.fields = [.one l', .one r']) :
    partwise rules a b ↔ a.sameShape b ∧ equalUnder rules l l' ∧ equalUnder rules r r' := by
  simp [partwise, aligned, ha, hb, Field.fitAll, Field.fits, children, Field.toList]

/-- Binary operations are compared by their operators and operands. -/
theorem partwise_binary {op op' : BinaryOp} {l r l' r' : Node} :
    partwise rules (.binary op l r) (.binary op' l' r') ↔
      op = op' ∧ equalUnder rules l l' ∧ equalUnder rules r r' :=
  (partwise_of_two rfl rfl).trans (and_congr_left' (beq_iff_eq (a := op) (b := op')))

theorem partwise_logical {op op' : LogicalOp} {l r l' r' : Node} :
    partwise rules (.logical op l r) (.logical op' l' r') ↔
      op = op' ∧ equalUnder rules l l' ∧ equalUnder rules r r' :=
  (partwise_of_two rfl rfl).trans (and_congr_left' (beq_iff_eq (a := op) (b := op')))

/-- Assignments are compared by their operators and sides. -/
theorem partwise_assign {op op' : AssignOp} {l r l' r' : Node} :
    partwise rules (.assign op l r) (.assign op' l' r') ↔
      op = op' ∧ equalUnder rules l l' ∧ equalUnder rules r r' :=
  (partwise_of_two rfl rfl).trans (and_congr_left' (beq_iff_eq (a := op) (b := op')))

/-- Updates are compared by their operators, places and targets. -/
theorem partwise_update {op op' : UpdateOp} {before before' : Bool} {x y : Node} :
    partwise rules (.update op before x) (.update op' before' y) ↔
      (op = op' ∧ before = before') ∧ equalUnder rules x y := by
  have hShape : (Node.update op before x).sameShape (.update op' before' y) =
      (op == op' && before == before') := rfl
  simp [partwise, hShape, aligned, fields, Field.fitAll, Field.fits, children, Field.toList]

/-- Whether two applications of operators may have their operands swapped. -/
def Swaps (rules : Rules) (op op' : BinaryOp) : Prop :=
  rules.commutative ∧ op = op' ∧ op.commutative ∨ rules.converse ∧ op.converse? = some op'

/-- Operators that swap do so in both directions. -/
theorem Swaps.symm {op op' : BinaryOp} (h : Swaps rules op op') : Swaps rules op' op := by
  rcases h with ⟨hOn, rfl, hOp⟩ | ⟨hOn, hOp⟩
  · exact .inl ⟨hOn, rfl, hOp⟩
  · exact .inr ⟨hOn, BinaryOp.converse?_symm hOp⟩

/-- The one alternative of a binary operation is with its operands swapped. -/
theorem mem_alternatives_binary {op op' : BinaryOp} {l r l' r' form : Node} :
    form ∈ alternatives rules (.binary op l r) (.binary op' l' r') ↔
      Swaps rules op op' ∧ form = .binary op' r l := by
  simp only [alternatives, List.mem_append, List.mem_ite_nil_right, List.mem_singleton,
    Bool.and_eq_true, decide_eq_true_eq]
  constructor
  · rintro (⟨⟨⟨hOn, rfl⟩, hOp⟩, rfl⟩ | ⟨⟨hOn, hOp⟩, rfl⟩)
    · exact ⟨.inl ⟨hOn, rfl, hOp⟩, rfl⟩
    · exact ⟨.inr ⟨hOn, hOp⟩, rfl⟩
  · rintro ⟨⟨hOn, rfl, hOp⟩ | ⟨hOn, hOp⟩, rfl⟩
    · exact .inl ⟨⟨⟨hOn, rfl⟩, hOp⟩, rfl⟩
    · exact .inr ⟨⟨hOn, hOp⟩, rfl⟩

/-- The one alternative of a logical operation is with its operands swapped. -/
theorem mem_alternatives_logical {op op' : LogicalOp} {l r l' r' form : Node} :
    form ∈ alternatives rules (.logical op l r) (.logical op' l' r') ↔
      (rules.commutative ∧ op = op' ∧ op.commutative) ∧ form = .logical op' r l := by
  simp only [alternatives, List.mem_ite_nil_right, List.mem_singleton, Bool.and_eq_true,
    decide_eq_true_eq, and_assoc]
  constructor
  · rintro ⟨hOn, rfl, hOp, rfl⟩
    exact ⟨hOn, rfl, hOp, rfl⟩
  · rintro ⟨hOn, rfl, hOp, rfl⟩
    exact ⟨hOn, rfl, hOp, rfl⟩

/-- Binary operations are equal operand by operand, or crosswise where the rules allow it. -/
theorem equalUnder_binary {op op' : BinaryOp} {l r l' r' : Node} :
    equalUnder rules (.binary op l r) (.binary op' l' r') ↔
      op = op' ∧ equalUnder rules l l' ∧ equalUnder rules r r' ∨
      Swaps rules op op' ∧ equalUnder rules r l' ∧ equalUnder rules l r' := by
  rw [equalUnder_iff, partwise_binary]
  apply or_congr_right
  constructor
  · rintro ⟨form, hForm, hParts⟩
    obtain ⟨hSwaps, rfl⟩ := mem_alternatives_binary.1 hForm
    exact ⟨hSwaps, (partwise_binary.1 hParts).2⟩
  · rintro ⟨hSwaps, hParts⟩
    exact ⟨_, mem_alternatives_binary.2 ⟨hSwaps, rfl⟩, partwise_binary.2 ⟨rfl, hParts⟩⟩

/-- The ways to write an assignment as another one. -/
theorem mem_reassigned {op wanted : AssignOp} {l r form : Node} :
    form ∈ reassigned rules op l r wanted ↔ rules.compound ∧
      ((wanted = .plain ∧ ∃ applied, op.binary? = some applied ∧
          form = .assign .plain l (.binary applied l r)) ∨
        op = .plain ∧ ∃ applied, wanted.binary? = some applied ∧
          ∃ operand, operandBeside? l applied r = some operand ∧
            form = .assign wanted l operand) := by
  have hPlain : ∀ op : AssignOp, op.binary? = none ↔ op = .plain := by
    intro op
    cases op <;> simp [AssignOp.binary?]
  unfold reassigned
  cases rules.compound with
  | false => simp
  | true =>
      cases hOp : op.binary? with
      | none =>
          cases hWanted : wanted.binary? with
          | none => simp
          | some applied =>
              have hNot : wanted ≠ .plain := by rw [Ne, ← hPlain, hWanted]; simp
              simp [hNot, (hPlain op).1 hOp, eq_comm]
      | some applied =>
          have hNot : op ≠ .plain := by rw [Ne, ← hPlain, hOp]; simp
          cases hWanted : wanted.binary? with
          | none => simp [hNot, (hPlain wanted).1 hWanted]
          | some applied' =>
              have hNot' : wanted ≠ .plain := by rw [Ne, ← hPlain, hWanted]; simp
              simp [hNot, hNot']

/-- The ways to write an update as an assignment. -/
theorem mem_updateAssigned {op : UpdateOp} {argument form : Node} {wanted : AssignOp} :
    form ∈ updateAssigned rules op argument wanted ↔ rules.increment ∧
      ((wanted = op.compound ∧ form = .assign wanted argument (.int 1)) ∨
        (wanted = .plain ∧ rules.compound) ∧ ∃ applied, op.compound.binary? = some applied ∧
          form = .assign .plain argument (.binary applied argument (.int 1))) := by
  have hNot : op.compound ≠ .plain := by cases op <;> simp [UpdateOp.compound]
  unfold updateAssigned
  cases rules.increment with
  | false => simp
  | true =>
      by_cases hWanted : wanted = op.compound
      · simp [hWanted, hNot]
      · by_cases hPlain : wanted = .plain ∧ rules.compound
        · obtain ⟨rfl, hOn⟩ := hPlain
          simp [hNot.symm, hOn, eq_comm (b := form)]
        · simp [hWanted, hPlain]

/-- An assignment is an update if it adds or takes away one, in either form. -/
theorem isUpdateBy_iff {op : AssignOp} {l r : Node} {wanted : UpdateOp} :
    isUpdateBy rules op l r wanted ↔ (op = wanted.compound ∧ r.isOne) ∨
      (op = .plain ∧ rules.compound) ∧ ∃ applied, wanted.compound.binary? = some applied ∧
        ∃ operand, operandBeside? l applied r = some operand ∧ operand.isOne := by
  rw [isUpdateBy, Bool.or_eq_true, Bool.and_eq_true, Bool.and_eq_true, Bool.and_eq_true,
    decide_eq_true_eq, decide_eq_true_eq, Option.any_eq_true]
  apply or_congr_right
  apply and_congr_right
  intro _
  constructor
  · rintro ⟨operand, hBound, hOne⟩
    obtain ⟨applied, hApplied, hOperand⟩ := Option.bind_eq_some_iff.1 hBound
    exact ⟨applied, hApplied, operand, hOperand, hOne⟩
  · rintro ⟨applied, hApplied, operand, hOperand, hOne⟩
    exact ⟨operand, Option.bind_eq_some_iff.2 ⟨applied, hApplied, hOperand⟩, hOne⟩

/-- The operand beside the target is on the right, or on the left of a commutative operator. -/
theorem operandBeside?_iff {target n operand : Node} {op : BinaryOp} :
    operandBeside? target op n = some operand ↔ ∃ l r, n = .binary op l r ∧
      (l == target ∧ operand = r ∨
        (l == target) = false ∧ (op.commutative ∧ r == target) ∧ operand = l) := by
  cases n with
  | binary used l r =>
      unfold operandBeside?
      by_cases hUsed : used = op
      · subst hUsed
        cases hLeft : l == target with
        | true => simp [hLeft, eq_comm (b := operand)]
        | false => simp [hLeft, eq_comm (b := operand), and_assoc]
      · simp [hUsed]
  | _ => simp [operandBeside?]

end Node

/-- Whether no rule applies to nodes with the label, and their shape is compared in full. -/
def Label.firm : Label → Bool
  | binary op => !op.commutative && op.converse?.isNone
  | logical op => !op.commutative
  | assign _ | update _ _ | property _ _ _ _ => false
  | _ => true

/-- Labels that agree up to shorthand are equal if one of them is firm. -/
theorem Label.beq_of_firm {l l' : Label} (h : l.unabbreviated == l'.unabbreviated)
    (hFirm : l.firm ∨ l'.firm) : l == l' := by
  have hCases : ∀ l : Label, l.unabbreviated = l ∨ l.unabbreviated.firm = false ∧ l.firm = false ∧
      ∀ v, l.unabbreviated ≠ .literal v := by
    intro l
    cases l with
    | property => exact .inr ⟨rfl, rfl, by simp [unabbreviated]⟩
    | _ => exact .inl rfl
  rcases hCases l with hl | ⟨hLoose, hl, hValue⟩
  · rcases hCases l' with hl' | ⟨hLoose, hl', hValue⟩
    · rwa [hl, hl'] at h
    · rcases Label.beq_iff.1 h with hSame | ⟨v, w, -, hw, -⟩
      · rw [← hSame, hl] at hLoose
        simp [hLoose, hl'] at hFirm
      · exact absurd hw (hValue w)
  · rcases Label.beq_iff.1 h with hSame | ⟨v, w, hv, -, -⟩
    · rcases hCases l' with hl' | ⟨-, hl', -⟩
      · rw [hSame, hl'] at hLoose
        simp [hLoose, hl] at hFirm
      · simp [hl, hl'] at hFirm
    · exact absurd hv (hValue v)

namespace Node

variable {rules : Rules}

/-- Whether the tree can only be written in one way: no rule applies anywhere in it. -/
def firm (n : Node) : Bool :=
  n.label.firm && n.children.attach.all fun ⟨c, h⟩ =>
    have := sizeOf_lt_of_mem_children h
    c.firm
termination_by sizeOf n

/-- A node is firm if its label and its children are. -/
theorem firm_iff {n : Node} : n.firm ↔ n.label.firm ∧ ∀ c ∈ n.children, c.firm := by
  rw [firm, Bool.and_eq_true, List.all_eq_true]
  exact and_congr_right fun _ =>
    ⟨fun h c hc => h ⟨c, hc⟩ (List.mem_attach _ _), fun h c _ => h c.1 c.2⟩

/-- Equal trees are firm together. -/
theorem firm_of_beq {a b : Node} (h : a == b) (ha : a.firm) : b.firm := by
  induction hSize : sizeOf a using Nat.strongRecOn generalizing a b with
  | ind size ih =>
      rw [beq_iff] at h
      obtain ⟨hLabel, -, hChildren⟩ := h
      rw [firm_iff] at ha ⊢
      constructor
      · rcases Label.beq_iff.1 hLabel with hSame | ⟨v, w, -, hw, -⟩
        · exact hSame ▸ ha.1
        · rw [hw]
          rfl
      · have hFlipped : List.Forall₂ (fun y x => y.firm ∧ y == x) b.children a.children := by
          apply forall₂_flip_mem hChildren
          intro x hx y _ hEqual
          exact ⟨ih _ (hSize ▸ sizeOf_lt_of_mem_children hx) hEqual (ha.2 x hx) rfl,
            BEq.symm hEqual⟩
        exact ((List.forall₂_and_left _ _).1 hFlipped).1

/-- No rule gives a firm tree another form, or another tree the form of a firm one. -/
theorem not_mem_alternatives_of_firm {a b form : Node} (h : a.firm ∨ b.firm) :
    form ∉ alternatives rules a b := by
  have hLabel : a.label.firm ∨ b.label.firm :=
    h.imp (fun h => (firm_iff.1 h).1) fun h => (firm_iff.1 h).1
  intro hForm
  have hPair := hForm
  unfold alternatives at hPair
  split at hPair
  · obtain ⟨⟨-, rfl, hOp⟩ | ⟨-, hOp⟩, -⟩ := mem_alternatives_binary.1 hForm
    · simp [label, Label.firm, hOp] at hLabel
    · have hBack := BinaryOp.converse?_symm hOp
      simp [label, Label.firm, hOp, hBack] at hLabel
  · obtain ⟨⟨-, rfl, hOp⟩, -⟩ := mem_alternatives_logical.1 hForm
    simp [label, Label.firm, hOp] at hLabel
  · simp [label, Label.firm] at hLabel
  · simp [label, Label.firm] at hLabel
  · simp [label, Label.firm] at hLabel
  · cases hPair

/-- A firm tree is only equivalent to what equals it. -/
theorem beq_of_firm {a b : Node} (hFirm : a.firm ∨ b.firm) (h : equalUnder rules a b) :
    a == b := by
  induction hSize : sizeOf a using Nat.strongRecOn generalizing a b with
  | ind size ih =>
      rcases equalUnder_iff.1 h with hParts | ⟨form, hForm, -⟩
      · obtain ⟨hShape, hAligned, hChildren⟩ := partwise_iff.1 hParts
        have hLabel : a.label.firm ∨ b.label.firm :=
          hFirm.imp (fun h => (firm_iff.1 h).1) fun h => (firm_iff.1 h).1
        refine beq_iff.2 ⟨Label.beq_of_firm hShape hLabel, hAligned, ?_⟩
        apply forall₂_imp_mem hChildren
        intro x hx y hy hEqual
        have hPart : x.firm ∨ y.firm :=
          hFirm.imp (fun h => (firm_iff.1 h).2 x hx) fun h => (firm_iff.1 h).2 y hy
        exact ih _ (hSize ▸ sizeOf_lt_of_mem_children hx) hPart hEqual rfl
      · exact absurd hForm (not_mem_alternatives_of_firm hFirm)

/-- Whether an assignment of an operation names its target in one way only, and does not repeat it
as a second operand unless operands may be swapped. -/
def steadyHere (rules : Rules) : Node → Bool
  | .assign .plain target (.binary op _ right) =>
    target.firm && (rules.commutative || !(op.commutative && right == target))
  | _ => true

/-- If operations may be part of assignments, every assignment in the tree is steady. -/
def Steady (rules : Rules) (n : Node) : Prop :=
  rules.compound → ∀ d ∈ n.descendants, d.steadyHere rules

instance (rules : Rules) (n : Node) : Decidable (n.Steady rules) :=
  inferInstanceAs (Decidable
    (rules.compound = true → ∀ d ∈ n.descendants, d.steadyHere rules = true))

/-- A steady node is so itself where compounds are rewritten. -/
theorem Steady.here {n : Node} (h : n.Steady rules) (hOn : rules.compound) : n.steadyHere rules :=
  h hOn n n.mem_descendants_self

/-- The children of a steady node are steady. -/
theorem Steady.child {n c : Node} (h : n.Steady rules) (hc : c ∈ n.children) : c.Steady rules :=
  fun hOn d hd => h hOn d (mem_descendants_of_child hc hd)

/-- A plain assignment is steady if its target is firm and is not found on both sides of an operator
that swaps. -/
theorem steadyHere_iff {op : BinaryOp} {target left right : Node} :
    (Node.assign .plain target (.binary op left right)).steadyHere rules ↔
      target.firm ∧ (op.commutative → right == target → rules.commutative) := by
  rw [steadyHere, Bool.and_eq_true, Bool.or_eq_true, Bool.not_eq_true', Bool.and_eq_false_imp]
  apply and_congr_right
  intro _
  cases rules.commutative <;> simp

/-- Only a binary operation equals one. -/
theorem exists_binary_of_equal {op : BinaryOp} {l r n : Node}
    (h : equalUnder rules (.binary op l r) n) : ∃ used x y, n = .binary used x y := by
  cases n with
  | binary used x y => exact ⟨used, x, y, rfl⟩
  | _ =>
      rcases equalUnder_iff.1 h with hParts | ⟨form, hForm, -⟩
      · cases (partwise_iff.1 hParts).1
      · cases hForm

/-- An application of an operator to a target, in the place of another one to an equivalent target,
leaves an equivalent operand beside that target. -/
theorem exists_operand_of_equal {op : AssignOp} {applied : BinaryOp} {target target' r n : Node}
    (hOp : op.binary? = some applied)
    (hSteady : (Node.assign .plain target' n).steadyHere rules)
    (hTarget : equalUnder rules target target')
    (h : equalUnder rules (.binary applied target r) n) :
    ∃ operand ∈ n.children, operandBeside? target' applied n = some operand ∧
      equalUnder rules r operand := by
  obtain ⟨used, x, y, rfl⟩ := exists_binary_of_equal h
  have hFirm' : target'.firm := (steadyHere_iff.1 hSteady).1
  have hEqual : target == target' := beq_of_firm (.inr hFirm') hTarget
  have hRepeat : ∀ {z}, equalUnder rules target z → z == target' := by
    intro z hz
    have hFirst : target == z := beq_of_firm (.inl (firm_of_beq (BEq.symm hEqual) hFirm')) hz
    exact BEq.trans (BEq.symm hFirst) hEqual
  have hConverse : applied.converse? = none := by
    cases op <;> cases hOp <;> rfl
  have hx : x ∈ (Node.binary used x y).children := by simp
  have hy : y ∈ (Node.binary used x y).children := by simp
  rcases equalUnder_binary.1 h with ⟨rfl, hLeft, hRight⟩ | ⟨⟨-, rfl, hComm⟩ | ⟨-, hOther⟩, hSwap⟩
  · exact ⟨y, hy, operandBeside?_iff.2 ⟨x, y, rfl, .inl ⟨hRepeat hLeft, rfl⟩⟩, hRight⟩
  · obtain ⟨hLeft, hRight⟩ := hSwap
    cases hFirst : x == target' with
    | true =>
        -- both operands equal the target, so it does not matter which one is taken for it
        have hBoth : r == x := beq_of_firm (.inr (firm_of_beq (BEq.symm hFirst) hFirm')) hLeft
        have hSame : r == y :=
          BEq.trans hBoth (BEq.trans hFirst (BEq.symm (hRepeat hRight)))
        exact ⟨y, hy, operandBeside?_iff.2 ⟨x, y, rfl, .inl ⟨hFirst, rfl⟩⟩,
          equalUnder_of_beq rules hSame⟩
    | false =>
        exact ⟨x, hx, operandBeside?_iff.2 ⟨x, y, rfl, .inr ⟨hFirst, ⟨hComm, hRepeat hRight⟩, rfl⟩⟩,
          hLeft⟩
  · rw [hConverse] at hOther
    cases hOther

/-- An application of an operator can be put together again from a target and the operand beside
it. -/
theorem equal_of_operand {applied : BinaryOp} {target target' r operand n : Node}
    (hSteady : (Node.assign .plain target n).steadyHere rules)
    (hTarget : equalUnder rules target target')
    (hOperand : operandBeside? target applied n = some operand) (h : equalUnder rules r operand) :
    equalUnder rules (.binary applied target' r) n := by
  obtain ⟨x, y, rfl, hSide⟩ := operandBeside?_iff.1 hOperand
  obtain ⟨hFirm, hSwap⟩ := steadyHere_iff.1 hSteady
  have hEqual : target == target' := beq_of_firm (.inl hFirm) hTarget
  have hRepeat : ∀ {z}, z == target → equalUnder rules target' z := fun hz =>
    equalUnder_of_beq rules (BEq.symm (BEq.trans hz hEqual))
  rcases hSide with ⟨hx, rfl⟩ | ⟨-, ⟨hComm, hy⟩, rfl⟩
  · exact equalUnder_binary.2 (.inl ⟨rfl, hRepeat hx, h⟩)
  · exact equalUnder_binary.2 (.inr ⟨.inl ⟨hSwap hComm hy, rfl, hComm⟩, h, hRepeat hy⟩)

/-- The literal one is told by its value. -/
theorem isOne_iff_beq {n : Node} : n.isOne ↔ Node.int 1 == n := by
  cases n with
  | literal v =>
      have hLabel : (Node.int 1 == .literal v) =
          (LiteralValue.number (.ofInt 1) == v.value && true && true) := beq_eq ..
      rw [hLabel, Bool.and_true, Bool.and_true, LiteralValue.beq_iff]
      obtain ⟨value, raw⟩ := v
      cases value with
      | number x =>
          have hOne : isOne (.literal ⟨.number x, raw⟩) = (x.rank == (Number.ofInt 1).rank) := rfl
          rw [hOne, beq_iff_eq]
          constructor
          · intro hRank
            exact .inr ⟨_, x, rfl, rfl, hRank.symm⟩
          · rintro (hSame | ⟨y, z, hy, hz, hRank⟩)
            · cases hSame
              rfl
            · cases hy
              cases hz
              exact hRank.symm
      | _ => simp [isOne, number?]
  | _ =>
      rw [beq_iff, Label.beq_iff]
      simp [isOne, number?, label, int]

/-- What is recognised as the number one is what is equivalent to it. -/
theorem isOne_iff {n : Node} : n.isOne ↔ equalUnder rules (.int 1) n := by
  have hFirm : (Node.int 1).firm := firm_iff.2 ⟨rfl, fun _ hc => nomatch hc⟩
  rw [isOne_iff_beq]
  exact ⟨equalUnder_of_beq rules, beq_of_firm (.inl hFirm)⟩

theorem mem_children_of_operandBeside? {target n operand : Node} {op : BinaryOp}
    (h : operandBeside? target op n = some operand) : operand ∈ n.children := by
  obtain ⟨x, y, rfl, ⟨-, rfl⟩ | ⟨-, -, rfl⟩⟩ := operandBeside?_iff.1 h
  all_goals simp

/-- Equivalences of steady trees below a size go both ways. -/
def TurnsBelow (rules : Rules) (size : Nat) : Prop :=
  ∀ {x y : Node}, sizeOf x < size → x.Steady rules → y.Steady rules →
    equalUnder rules x y → equalUnder rules y x

/-- Equality may be shown of an alternative form. -/
theorem equalUnder_of_form {a b form : Node} (hForm : form ∈ alternatives rules a b)
    (hParts : partwise rules form b) : equalUnder rules a b :=
  equalUnder_iff.2 (.inr ⟨form, hForm, hParts⟩)

/-- An assignment by an operator and one of an operation turn into each other. -/
theorem equalUnder_symm_assign {op op' : AssignOp} {l r l' r' form : Node}
    (ih : TurnsBelow rules (sizeOf (Node.assign op l r)))
    (ha : (Node.assign op l r).Steady rules) (hb : (Node.assign op' l' r').Steady rules)
    (hForm : form ∈ reassigned rules op l r op')
    (hParts : partwise rules form (.assign op' l' r')) :
    equalUnder rules (.assign op' l' r') (.assign op l r) := by
  have hTurn : equalUnder rules l l' → equalUnder rules l' l :=
    ih (sizeOf_lt_of_mem_children (by simp)) (ha.child (by simp)) (hb.child (by simp))
  have hr : r.Steady rules := ha.child (by simp)
  have hr' : r'.Steady rules := hb.child (by simp)
  obtain ⟨hOn, ⟨rfl, applied, hApplied, rfl⟩ | ⟨rfl, applied, hApplied, operand, hOperand, rfl⟩⟩ :=
    mem_reassigned.1 hForm
  · obtain ⟨-, hTarget, hValue⟩ := partwise_assign.1 hParts
    obtain ⟨operand, hMem, hOperand, hEqual⟩ :=
      exists_operand_of_equal hApplied (hb.here hOn) hTarget hValue
    have hBack : equalUnder rules operand r :=
      ih (sizeOf_lt_of_mem_children (by simp)) hr (hr'.child hMem) hEqual
    exact equalUnder_of_form
      (mem_reassigned.2 ⟨hOn, .inr ⟨rfl, applied, hApplied, operand, hOperand, rfl⟩⟩)
      (partwise_assign.2 ⟨rfl, hTurn hTarget, hBack⟩)
  · obtain ⟨-, hTarget, hEqual⟩ := partwise_assign.1 hParts
    have hMem : operand ∈ r.children := mem_children_of_operandBeside? hOperand
    have hSmall : sizeOf operand < sizeOf (Node.assign .plain l r) :=
      Nat.lt_trans (sizeOf_lt_of_mem_children hMem) (sizeOf_lt_of_mem_children (by simp))
    have hBack : equalUnder rules r' operand := ih hSmall (hr.child hMem) hr' hEqual
    have hValue : equalUnder rules (.binary applied l' r') r :=
      equal_of_operand (ha.here hOn) hTarget hOperand hBack
    exact equalUnder_of_form (mem_reassigned.2 ⟨hOn, .inl ⟨rfl, applied, hApplied, rfl⟩⟩)
      (partwise_assign.2 ⟨rfl, hTurn hTarget, hValue⟩)

/-- An update turns into an assignment and back. -/
theorem equalUnder_symm_update {op : UpdateOp} {before : Bool} {op' : AssignOp} {x l r form : Node}
    (ih : TurnsBelow rules (sizeOf (Node.update op before x)))
    (ha : (Node.update op before x).Steady rules) (hb : (Node.assign op' l r).Steady rules)
    (hForm : form ∈ updateAssigned rules op x op')
    (hParts : partwise rules form (.assign op' l r)) :
    equalUnder rules (.assign op' l r) (.update op before x) := by
  have hBack : rules.increment → isUpdateBy rules op' l r op → equalUnder rules x l →
      equalUnder rules (.assign op' l r) (.update op before x) := by
    intro hOn hUpdate hTarget
    have hTurned : equalUnder rules l x :=
      ih (sizeOf_lt_of_mem_children (by simp)) (ha.child (by simp)) (hb.child (by simp)) hTarget
    have hForm : .update op before l ∈
        alternatives rules (.assign op' l r) (.update op before x) := by
      simp [alternatives, hOn, hUpdate]
    exact equalUnder_of_form hForm (partwise_update.2 ⟨⟨rfl, rfl⟩, hTurned⟩)
  obtain ⟨hOn, ⟨rfl, rfl⟩ | ⟨⟨rfl, hCompound⟩, applied, hApplied, rfl⟩⟩ :=
    mem_updateAssigned.1 hForm
  · obtain ⟨-, hTarget, hOne⟩ := partwise_assign.1 hParts
    exact hBack hOn (isUpdateBy_iff.2 (.inl ⟨rfl, isOne_iff.2 hOne⟩)) hTarget
  · obtain ⟨-, hTarget, hValue⟩ := partwise_assign.1 hParts
    obtain ⟨operand, -, hOperand, hOne⟩ :=
      exists_operand_of_equal hApplied (hb.here hCompound) hTarget hValue
    exact hBack hOn (isUpdateBy_iff.2 (.inr ⟨⟨rfl, hCompound⟩, applied, hApplied, operand, hOperand,
      isOne_iff.2 hOne⟩)) hTarget

/-- An assignment that does what an update does turns into it and back. -/
theorem equalUnder_symm_updated {op : AssignOp} {op' : UpdateOp} {before : Bool} {l r x : Node}
    (ih : TurnsBelow rules (sizeOf (Node.assign op l r)))
    (ha : (Node.assign op l r).Steady rules) (hb : (Node.update op' before x).Steady rules)
    (hOn : rules.increment) (hUpdate : isUpdateBy rules op l r op')
    (hTarget : equalUnder rules l x) :
    equalUnder rules (.update op' before x) (.assign op l r) := by
  have hBack : equalUnder rules x l :=
    ih (sizeOf_lt_of_mem_children (by simp)) (ha.child (by simp)) (hb.child (by simp)) hTarget
  rcases isUpdateBy_iff.1 hUpdate with
    ⟨rfl, hOne⟩ | ⟨⟨rfl, hCompound⟩, applied, hApplied, operand, hOperand, hOne⟩
  · exact equalUnder_of_form (mem_updateAssigned.2 ⟨hOn, .inl ⟨rfl, rfl⟩⟩)
      (partwise_assign.2 ⟨rfl, hBack, isOne_iff.1 hOne⟩)
  · have hValue : equalUnder rules (.binary applied x (.int 1)) r :=
      equal_of_operand (ha.here hCompound) hTarget hOperand (isOne_iff.1 hOne)
    exact equalUnder_of_form
      (mem_updateAssigned.2 ⟨hOn, .inr ⟨⟨rfl, hCompound⟩, applied, hApplied, rfl⟩⟩)
      (partwise_assign.2 ⟨rfl, hBack, hValue⟩)

/-- Steady trees are equivalent both ways. -/
theorem equalUnder_symm {a b : Node} (ha : a.Steady rules) (hb : b.Steady rules)
    (h : equalUnder rules a b) : equalUnder rules b a := by
  induction hSize : sizeOf a using Nat.strongRecOn generalizing a b with
  | ind size ih =>
      have hBelow : TurnsBelow rules (sizeOf a) := fun hSmall hx hy hEqual =>
        ih _ (hSize ▸ hSmall) hx hy hEqual rfl
      have hPart : ∀ x ∈ a.children, ∀ y ∈ b.children,
          equalUnder rules x y → equalUnder rules y x :=
        fun x hx y hy => hBelow (sizeOf_lt_of_mem_children hx) (ha.child hx) (hb.child hy)
      rcases equalUnder_iff.1 h with hParts | ⟨form, hForm, hParts⟩
      · obtain ⟨hShape, hAligned, hChildren⟩ := partwise_iff.1 hParts
        exact equalUnder_iff.2 (.inl (partwise_iff.2
          ⟨sameShape_symm hShape, aligned_symm hAligned, forall₂_flip_mem hChildren hPart⟩))
      · have hPair := hForm
        unfold alternatives at hPair
        split at hPair
        · next op l r op' l' r' =>
            obtain ⟨hSwaps, rfl⟩ := mem_alternatives_binary.1 hForm
            obtain ⟨-, hLeft, hRight⟩ := partwise_binary.1 hParts
            exact equalUnder_of_form (mem_alternatives_binary.2 ⟨hSwaps.symm, rfl⟩)
              (partwise_binary.2 ⟨rfl, hPart l (by simp) r' (by simp) hRight,
                hPart r (by simp) l' (by simp) hLeft⟩)
        · next op l r op' l' r' =>
            obtain ⟨⟨hOn, rfl, hOp⟩, rfl⟩ := mem_alternatives_logical.1 hForm
            obtain ⟨-, hLeft, hRight⟩ := partwise_logical.1 hParts
            exact equalUnder_of_form (mem_alternatives_logical.2 ⟨⟨hOn, rfl, hOp⟩, rfl⟩)
              (partwise_logical.2 ⟨rfl, hPart l (by simp) r' (by simp) hRight,
                hPart r (by simp) l' (by simp) hLeft⟩)
        · exact equalUnder_symm_assign hBelow ha hb hPair hParts
        · exact equalUnder_symm_update hBelow ha hb hPair hParts
        · next op l r op' before x =>
            rw [List.mem_ite_nil_right, Bool.and_eq_true, List.mem_singleton] at hPair
            obtain ⟨⟨hOn, hUpdate⟩, rfl⟩ := hPair
            exact equalUnder_symm_updated hBelow ha hb hOn hUpdate (partwise_update.1 hParts).2
        · cases hPair

/-- Equivalence goes both ways between trees in which every assignment is steady. -/
theorem equivalent_comm {a b : Node} (ha : a.Steady rules) (hb : b.Steady rules) :
    equivalent (some rules) a b = equivalent (some rules) b a :=
  Bool.eq_iff_iff.2 ⟨equalUnder_symm ha hb, equalUnder_symm hb ha⟩

/-- Under all rules `a[i] += 2` and `a[i] = 2 + a[i]` are equivalent both ways. -/
theorem equivalent_comm_item :
    let item : Node := .member (.ident "a") (.ident "i") true
    let short : Node := .assign .add item (.int 2)
    let long : Node := .assign .plain item (.binary .add (.int 2) item)
    equivalent (some .all) short long = equivalent (some .all) long short ∧
      equivalent (some .all) short long := by
  intro item short long
  exact ⟨equivalent_comm (by decide +kernel) (by decide +kernel), by decide +kernel⟩

/-- Under all rules `o[x + y] += 2` may stand for `o[x + y] = o[y + x] + 2`, where the target is
repeated in other words, but not the other way round. Without the rules for swapping operands
`a = 1 + a` may stand for `a++`, but not the other way round. -/
theorem equivalent_one_way :
    let item (x y : String) : Node := .member (.ident "o") (.binary .add (.ident x) (.ident y)) true
    let short : Node := .assign .add (item "x" "y") (.int 2)
    let long : Node := .assign .plain (item "x" "y") (.binary .add (item "y" "x") (.int 2))
    let fixed : Rules := { Rules.all with commutative := false }
    let updated : Node := .update .increment false (.ident "a")
    let added : Node := .assign .plain (.ident "a") (.binary .add (.int 1) (.ident "a"))
    (equivalent (some .all) short long = true ∧ equivalent (some .all) long short = false) ∧
      equivalent (some fixed) added updated = true ∧
      equivalent (some fixed) updated added = false := by
  decide +kernel

end Node

end CodeShape
