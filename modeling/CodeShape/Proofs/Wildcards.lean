import CodeShape.Match.Node
import CodeShape.Proofs.Tree

/-! The wildcards of a pattern. Other forms of a pattern, and declarations that are split or merged,
hold the same wildcards, though perhaps not equally often. -/
namespace CodeShape

namespace Node

def wildcard? : Node → Option Wildcard
  | .wildcard w => some w
  | _ => none

/-- All wildcards in a tree, in the order of the text. -/
def wildcards (n : Node) : List Wildcard :=
  n.wildcard?.toList ++ n.children.attach.flatMap fun ⟨c, h⟩ =>
    have := sizeOf_lt_of_mem_children h
    c.wildcards
termination_by sizeOf n

/-- The wildcards of a tree in preorder. -/
theorem wildcards_eq (n : Node) :
    n.wildcards = n.wildcard?.toList ++ n.children.flatMap wildcards := by
  rw [wildcards]
  congr 1
  rw [List.flatMap_def, List.flatMap_def]
  congr 1
  exact List.attach_map_val (l := n.children) (f := wildcards)

/-- The wildcards below a node that is none itself, slot by slot. -/
theorem wildcards_eq_of_fields {n : Node} (h : n.wildcard? = none) :
    n.wildcards = n.fields.flatMap fun field => field.toList.flatMap wildcards := by
  rw [wildcards_eq, h, children, List.flatMap_assoc]
  rfl

section Children

variable {n left right e : Node} {ns : List Node}

/-- What is no wildcard itself has those of its children. -/
theorem wildcards_of_children (h : n.wildcard? = none) (hChildren : n.children = ns) :
    n.wildcards = ns.flatMap wildcards := by
  rw [wildcards_eq, h, hChildren]
  rfl

/-- What has one child has the wildcards of that. -/
theorem wildcards_of_child (h : n.wildcard? = none) (hChildren : n.children = [e]) :
    n.wildcards = e.wildcards := by
  rw [wildcards_of_children h hChildren, List.flatMap_singleton]

/-- What has two children has the wildcards of the first and then of the second. -/
theorem wildcards_of_pair (h : n.wildcard? = none) (hChildren : n.children = [left, right]) :
    n.wildcards = left.wildcards ++ right.wildcards := by
  rw [wildcards_of_children h hChildren, List.flatMap_cons, List.flatMap_singleton]

end Children

@[simp]
theorem wildcards_wildcard (w : Wildcard) : (Node.wildcard w).wildcards = [w] := wildcards_eq _

@[simp]
theorem wildcards_literal (value : Literal) : (Node.literal value).wildcards = [] :=
  wildcards_of_children rfl rfl

@[simp]
theorem wildcards_expr (e : Node) : (Node.expr e).wildcards = e.wildcards :=
  wildcards_of_child rfl rfl

@[simp]
theorem wildcards_program (body : List Node) :
    (Node.program body).wildcards = body.flatMap wildcards :=
  wildcards_of_children rfl (List.append_nil body)

@[simp]
theorem wildcards_binary (op : BinaryOp) (left right : Node) :
    (Node.binary op left right).wildcards = left.wildcards ++ right.wildcards :=
  wildcards_of_pair rfl rfl

@[simp]
theorem wildcards_logical (op : LogicalOp) (left right : Node) :
    (Node.logical op left right).wildcards = left.wildcards ++ right.wildcards :=
  wildcards_of_pair rfl rfl

@[simp]
theorem wildcards_assign (op : AssignOp) (left right : Node) :
    (Node.assign op left right).wildcards = left.wildcards ++ right.wildcards :=
  wildcards_of_pair rfl rfl

@[simp]
theorem wildcards_update (op : UpdateOp) (before : Bool) (argument : Node) :
    (Node.update op before argument).wildcards = argument.wildcards :=
  wildcards_of_child rfl rfl

@[simp]
theorem wildcards_declaration (kind : DeclarationKind) (declarators : List Node) :
    (Node.declaration kind declarators).wildcards = declarators.flatMap wildcards :=
  wildcards_of_children rfl (List.append_nil declarators)

@[simp]
theorem wildcards_declarator (id : Node) (init : Option Node) :
    (Node.declarator id init).wildcards = id.wildcards ++ init.toList.flatMap wildcards := by
  have hChildren : (Node.declarator id init).children = id :: init.toList :=
    congrArg (id :: ·) (List.append_nil _)
  rw [wildcards_of_children rfl hChildren, List.flatMap_cons]

/-- Wildcards of a child are wildcards of the node. -/
theorem mem_wildcards_of_child {n c : Node} {w : Wildcard} (hChild : c ∈ n.children)
    (h : w ∈ c.wildcards) : w ∈ n.wildcards := by
  rw [wildcards_eq]
  exact List.mem_append_right _ (List.mem_flatMap.2 ⟨c, hChild, h⟩)

/-- What has a wildcard at its root is one. -/
theorem eq_wildcard_of_wildcard? {n : Node} {w : Wildcard} (h : n.wildcard? = some w) :
    n = .wildcard w := by
  cases n with
  | wildcard w' => rw [Option.some.inj h]
  | _ => cases h

/-- A glob is a wildcard for a run. -/
theorem eq_wildcard_of_glob? {n : Node} {w : Wildcard} (h : n.glob? = some w) :
    n = .wildcard w ∧ w.extent = .glob := by
  unfold glob? at h
  split at h
  · obtain rfl := Option.some.inj h
    exact ⟨rfl, rfl⟩
  · cases h

/-- A wildcard that is no glob stands for one node. -/
theorem extent_of_glob? {w : Wildcard} (h : (Node.wildcard w).glob? = none) :
    w.extent = .scalar := by
  obtain ⟨name, extent⟩ := w
  cases extent with
  | scalar => rfl
  | glob => cases h

theorem glob?_of_wildcard? {n : Node} (h : n.wildcard? = none) : n.glob? = none := by
  cases hGlob : n.glob? with
  | none => rfl
  | some w =>
      rw [(eq_wildcard_of_glob? hGlob).1] at h
      cases h

/-- Whether a node is a wildcard is said by its label. -/
theorem wildcard?_of_label_eq {a b : Node} (h : a.label = b.label) :
    a.wildcard? = b.wildcard? := by
  have hLabel : ∀ n : Node, n.wildcard? = match n.label with
      | .wildcard w => some w
      | _ => none := by
    intro n
    cases n <;> rfl
  rw [hLabel a, hLabel b, h]

theorem eq_wildcard_of_label_beq {n : Node} {w : Wildcard} (h : n.label == .wildcard w) :
    n = .wildcard w := by
  cases n with
  | wildcard w' =>
      have hEq : (w' == w) = true := h
      rw [eq_of_beq hEq]
  | _ => cases h

theorem eq_wildcard_of_beq_label {n : Node} {w : Wildcard} (h : Label.wildcard w == n.label) :
    n = .wildcard w := by
  cases n with
  | wildcard w' =>
      have hEq : (w == w') = true := h
      rw [eq_of_beq hEq]
  | _ => cases h

theorem wildcard?_eq_of_label {a b : Node} (h : a.label == b.label) :
    a.wildcard? = b.wildcard? := by
  cases hb : b.wildcard? with
  | some w =>
      obtain rfl := eq_wildcard_of_wildcard? hb
      rw [eq_wildcard_of_label_beq h]
      rfl
  | none =>
      cases ha : a.wildcard? with
      | none => rfl
      | some w =>
          obtain rfl := eq_wildcard_of_wildcard? ha
          rw [eq_wildcard_of_beq_label h] at hb
          cases hb

/-- Aligned nodes have equally many children. -/
theorem length_children_of_aligned {a b : Node} (h : a.aligned b) :
    a.children.length = b.children.length := by
  have hFields : ∀ (fs gs : List (Field Node)), Field.fitAll fs gs →
      (fs.flatMap Field.toList).length = (gs.flatMap Field.toList).length := by
    intro fs gs hFit
    fun_induction Field.fitAll fs gs with
    | case1 => rfl
    | case2 f fs g gs ih =>
        obtain ⟨hFirst, hRest⟩ := Bool.and_eq_true_iff.1 hFit
        have hSlot : f.toList.length = g.toList.length := by
          cases f <;> cases g <;> simp_all [Field.fits, Field.toList]
          · next a b => cases a <;> cases b <;> simp_all
          · next a b => cases a <;> cases b <;> simp_all
        simp [hSlot, ih hRest]
    | case3 => cases hFit
  exact hFields a.fields b.fields h

/-- Equal trees have the same wildcards. -/
theorem wildcards_eq_of_beq {a b : Node} (h : a == b) : a.wildcards = b.wildcards := by
  induction hSize : sizeOf a using Nat.strongRecOn generalizing a b with
  | ind size ih =>
      rw [beq_eq, Bool.and_eq_true_iff, Bool.and_eq_true_iff] at h
      obtain ⟨⟨hLabel, hAligned⟩, hChildren⟩ := h
      have hPair : ∀ as bs : List Node, as.length = bs.length →
          (∀ x ∈ as, sizeOf x < size) → ((as.zip bs).all fun pair => pair.1 == pair.2) →
          as.flatMap wildcards = bs.flatMap wildcards := by
        intro as
        induction as with
        | nil =>
            intro bs hLength _ _
            rw [List.eq_nil_of_length_eq_zero hLength.symm]
        | cons x as ihList =>
            intro bs hLength hSmall hAll
            cases bs with
            | nil => cases hLength
            | cons y bs =>
                simp only [List.zip_cons_cons, List.all_cons, Bool.and_eq_true] at hAll
                have hHead := ih (sizeOf x) (hSmall x (by simp)) hAll.1 rfl
                have hTail := ihList bs (Nat.succ.inj hLength)
                  (fun z hz => hSmall z (by simp [hz])) hAll.2
                simp [hHead, hTail]
      rw [wildcards_eq a, wildcards_eq b, wildcard?_eq_of_label hLabel]
      congr 1
      refine hPair _ _ (length_children_of_aligned hAligned) ?_ hChildren
      intro x hx
      rw [← hSize]
      exact sizeOf_lt_of_mem_children hx

/-- An operand beside a target is one of the two operands; the other one equals the target. -/
theorem operandBeside?_cases {target n operand : Node} {op : BinaryOp}
    (h : operandBeside? target op n = some operand) :
    ∃ left right, n = .binary op left right ∧
      (left == target ∧ operand = right ∨ right == target ∧ operand = left) := by
  unfold operandBeside? at h
  split at h
  · next used left right =>
      split at h
      · cases h
      · next hUsed =>
          have hOp : used = op := by simpa using hUsed
          subst hOp
          split at h
          · next hLeft => exact ⟨left, right, rfl, .inl ⟨hLeft, (Option.some.inj h).symm⟩⟩
          · split at h
            · next hRight =>
                rw [Bool.and_eq_true] at hRight
                exact ⟨left, right, rfl, .inr ⟨hRight.2, (Option.some.inj h).symm⟩⟩
            · cases h
  · cases h

/-- Only a literal is the number one. -/
theorem eq_literal_of_isOne {n : Node} (h : n.isOne) : ∃ value, n = .literal value := by
  cases n with
  | literal value => exact ⟨value, rfl⟩
  | _ => cases h

/-- All forms that the rules give. -/
inductive Rewrites : (pattern form : Node) → Prop where
  | swapBinary {op wanted : BinaryOp} {left right : Node} :
      Rewrites (.binary op left right) (.binary wanted right left)
  | swapLogical {op : LogicalOp} {left right : Node} :
      Rewrites (.logical op left right) (.logical op right left)
  | expand {op : AssignOp} {applied : BinaryOp} {left right : Node} :
      Rewrites (.assign op left right) (.assign .plain left (.binary applied left right))
  | contract {op wanted : AssignOp} {applied : BinaryOp} {left right operand : Node}
      (hOperand : operandBeside? left applied right = some operand) :
      Rewrites (.assign op left right) (.assign wanted left operand)
  | addOne {op : UpdateOp} {wanted : AssignOp} {before : Bool} {argument : Node} :
      Rewrites (.update op before argument) (.assign wanted argument (.int 1))
  | assignSum {op : UpdateOp} {applied : BinaryOp} {before : Bool} {argument : Node} :
      Rewrites (.update op before argument)
        (.assign .plain argument (.binary applied argument (.int 1)))
  | countOne {op : AssignOp} {wanted : UpdateOp} {before : Bool} {left right : Node}
      (hOne : right.isOne) : Rewrites (.assign op left right) (.update wanted before left)
  | countSum {op : AssignOp} {wanted : UpdateOp} {applied : BinaryOp} {before : Bool}
      {left right operand : Node} (hOperand : operandBeside? left applied right = some operand)
      (hOne : operand.isOne) : Rewrites (.assign op left right) (.update wanted before left)

/-- Every alternative that the rules give is a rewriting of the pattern. Each family of rules has
its arm. -/
theorem rewrites_of_mem_alternatives {rules : Rules} {p c form : Node}
    (h : form ∈ alternatives rules p c) : Rewrites p form := by
  unfold alternatives at h
  split at h
  · rcases List.mem_append.1 h with h | h
    · split at h
      · rw [List.mem_singleton.1 h]
        exact .swapBinary
      · cases h
    · split at h
      · rw [List.mem_singleton.1 h]
        exact .swapBinary
      · cases h
  · split at h
    · rw [List.mem_singleton.1 h]
      exact .swapLogical
    · cases h
  · unfold reassigned at h
    split at h
    · cases h
    · split at h
      · rw [List.mem_singleton.1 h]
        exact .expand
      · obtain ⟨operand, hOperand, rfl⟩ := List.mem_map.1 h
        exact .contract (Option.mem_toList.1 hOperand)
      · cases h
  · unfold updateAssigned at h
    split at h
    · cases h
    · split at h
      · rw [List.mem_singleton.1 h]
        exact .addOne
      · split at h
        · obtain ⟨applied, -, rfl⟩ := List.mem_map.1 h
          exact .assignSum
        · cases h
  · split at h
    · next hUpdate =>
        rw [List.mem_singleton.1 h]
        obtain ⟨-, hUpdate⟩ := Bool.and_eq_true_iff.1 hUpdate
        rcases Bool.or_eq_true_iff.1 hUpdate with hOne | hSum
        · exact .countOne (Bool.and_eq_true_iff.1 hOne).2
        · obtain ⟨operand, hOperand, hOne⟩ := (Option.any_eq_true _ _).1
            (Bool.and_eq_true_iff.1 hSum).2
          obtain ⟨applied, -, hOperand⟩ := Option.bind_eq_some_iff.1 hOperand
          exact .countSum hOperand hOne
    · cases h
  · cases h

/-- A rewritten pattern has the wildcards of the pattern. -/
theorem Rewrites.mem_wildcards {p form : Node} (h : Rewrites p form) (w : Wildcard) :
    w ∈ form.wildcards ↔ w ∈ p.wildcards := by
  cases h with
  | swapBinary => simp [or_comm]
  | swapLogical => simp [or_comm]
  | expand => simp
  | addOne => simp [int]
  | assignSum => simp [int]
  | contract hOperand =>
      obtain ⟨l, r, rfl, ⟨hTarget, rfl⟩ | ⟨hTarget, rfl⟩⟩ := operandBeside?_cases hOperand
      · simp [wildcards_eq_of_beq hTarget]
      · simp [wildcards_eq_of_beq hTarget, or_comm]
  | countOne hOne =>
      obtain ⟨value, rfl⟩ := eq_literal_of_isOne hOne
      simp
  | countSum hOperand hOne =>
      obtain ⟨value, rfl⟩ := eq_literal_of_isOne hOne
      obtain ⟨l, r, rfl, ⟨hTarget, rfl⟩ | ⟨hTarget, rfl⟩⟩ := operandBeside?_cases hOperand
      · simp [wildcards_eq_of_beq hTarget]
      · simp [wildcards_eq_of_beq hTarget]

/-- Only a declaration of one initialized variable is split, and this is how. -/
theorem splitDeclaration?_cases {p declared assigned : Node}
    (h : p.splitDeclaration? = some (declared, assigned)) :
    ∃ kind id init, p = .declaration kind [.declarator id (some init)] ∧
      declared = .declaration kind [.declarator id none] ∧
      assigned = .expr (.assign .plain id init) := by
  unfold splitDeclaration? at h
  split at h
  · cases h
    exact ⟨_, _, _, rfl, rfl, rfl⟩
  · cases h

/-- Only a declaration of one bare variable and a plain assignment are merged, and this is how. -/
theorem mergeDeclaration?_cases {p q merged : Node} (h : p.mergeDeclaration? q = some merged) :
    ∃ kind id left right, p = .declaration kind [.declarator id none] ∧
      q = .expr (.assign .plain left right) ∧ left == id ∧
      merged = .declaration kind [.declarator id (some right)] := by
  unfold mergeDeclaration? at h
  split at h
  · split at h
    · next hTarget =>
        cases h
        exact ⟨_, _, _, _, rfl, rfl, hTarget, rfl⟩
    · cases h
  · cases h

/-- The halves of a declaration have its wildcards. -/
theorem mem_wildcards_split {p declared assigned : Node} {w : Wildcard}
    (h : p.splitDeclaration? = some (declared, assigned)) :
    w ∈ p.wildcards ↔ w ∈ declared.wildcards ∨ w ∈ assigned.wildcards := by
  obtain ⟨kind, id, init, rfl, rfl, rfl⟩ := splitDeclaration?_cases h
  simp

/-- A merged declaration has the wildcards of both statements. -/
theorem mem_wildcards_merge {p q merged : Node} {w : Wildcard}
    (h : p.mergeDeclaration? q = some merged) :
    w ∈ merged.wildcards ↔ w ∈ p.wildcards ∨ w ∈ q.wildcards := by
  obtain ⟨kind, id, left, right, rfl, rfl, hTarget, rfl⟩ := mergeDeclaration?_cases h
  simp [wildcards_eq_of_beq hTarget]

end Node

/-- Below a node without wildcards there are none. -/
theorem Site.wildcards_eq_nil {top s : Site} (hs : s ∈ top.descendants)
    (h : top.node.wildcards = []) : s.node.wildcards = [] := by
  have hPath : ∀ (path : List Nat) (m n : Node), m.wildcards = [] → m.at? path = some n →
      n.wildcards = [] := by
    intro path
    induction path with
    | nil =>
        intro m n hPlain hNode
        cases hNode
        exact hPlain
    | cons i path ih =>
        intro m n hPlain hNode
        obtain ⟨c, hChild, hNode⟩ := Option.bind_eq_some_iff.1 hNode
        refine ih c n (List.eq_nil_iff_forall_not_mem.2 fun w hw => ?_) hNode
        have hMem := Node.mem_wildcards_of_child (List.mem_of_getElem? hChild) hw
        rw [hPlain] at hMem
        cases hMem
  obtain ⟨path, -, hNode⟩ := mem_descendants_iff.1 hs
  exact hPath path top.node s.node h hNode

/-- A form is the pattern itself or a rewriting of it. -/
theorem Conditions.mem_forms {conditions : Conditions} {p c form : Node}
    (h : form ∈ conditions.forms p c) : form = p ∨ Node.Rewrites p form := by
  rcases List.mem_cons.1 h with rfl | h
  · exact .inl rfl
  · cases hRules : conditions.rules with
    | none => simp [hRules] at h
    | some rules =>
        rw [hRules] at h
        exact .inr (Node.rewrites_of_mem_alternatives h)

/-- Every form of a pattern has the wildcards of the pattern. -/
theorem Conditions.mem_wildcards_of_mem_forms {conditions : Conditions} {p c form : Node}
    (h : form ∈ conditions.forms p c) (w : Wildcard) :
    w ∈ form.wildcards ↔ w ∈ p.wildcards := by
  rcases mem_forms h with rfl | hRewrites
  · exact Iff.rfl
  · exact hRewrites.mem_wildcards w

end CodeShape
