import CodeShape.Proofs.Kinds
import CodeShape.Proofs.Numerals

/-!
What folding leaves. No sign is left in front of a number, and an operation on two numbers only
where an operand was no number as it was written or where there is no finite result; a tree without
anything to fold is left as it is. The numbers in a folded program have the texts of their values.
-/
namespace CodeShape

/-- Operations on numbers. -/
def BinaryOp.isArithmetic : BinaryOp → Bool
  | add | sub | mul | div | rem | exp => true
  | _ => false

namespace Field

theorem map_eq_self {α : Type} {f : α → α} {field : Field α} (h : ∀ a ∈ field.toList, f a = a) :
    field.map f = field := by
  cases field with
  | one a => exact congrArg one (h a List.mem_cons_self)
  | opt a? =>
      cases a? with
      | none => rfl
      | some a => exact congrArg (fun a => opt (some a)) (h a List.mem_cons_self)
  | stmt a? =>
      cases a? with
      | none => rfl
      | some a => exact congrArg (fun a => stmt (some a)) (h a List.mem_cons_self)
  | seq pairing as => exact congrArg (seq pairing) ((List.map_congr_left h).trans as.map_id')

end Field

namespace Node

/-- A sign in front of a number. -/
def isSigned : Node → Bool
  | unary .neg argument | unary .plus argument => argument.number?.isSome
  | _ => false

/-- An arithmetic operation on two numbers. -/
def isCalculation : Node → Bool
  | binary op left right => op.isArithmetic && left.number?.isSome && right.number?.isSome
  | _ => false

/-- The finite value of an arithmetic operation on two numbers. -/
def result? : Node → Option Number
  | binary op left right => do op.apply? (← left.number?) (← right.number?)
  | _ => none

/-- What a calculation collapses to is its result, rendered. -/
theorem computed?_eq (op : BinaryOp) (left right : Node) :
    computed? op left right =
      (binary op left right).result?.map fun value => .literal ⟨.number value, value.render⟩ := by
  simp [computed?, result?, Option.map_eq_bind, Option.bind_assoc]

/-- The children of a node that does not become a number are folded in their places. -/
theorem children_foldConstants {n : Node} (h : n.collapsed? = none) :
    n.foldConstants.children = n.children.map foldConstants := by
  rw [children, (view_foldConstants h).2, children, List.map_flatMap, List.flatMap_map]
  simp only [Field.toList_map]

/-- What stands at a place of the folded tree is what stood there, folded. -/
theorem exists_at?_of_foldConstants {t n : Node} {path : List Nat}
    (h : t.foldConstants.at? path = some n) : ∃ m, t.at? path = some m ∧ n = m.foldConstants := by
  induction path generalizing t with
  | nil => exact ⟨t, rfl, (Option.some.inj h).symm⟩
  | cons i path ih =>
      obtain ⟨c, hChild, hAt⟩ := Option.bind_eq_some_iff.1 h
      cases hCollapsed : t.collapsed? with
      | some m =>
          obtain ⟨l, rfl⟩ := isLiteral_of_collapsed? hCollapsed
          rw [foldConstants_eq, hCollapsed] at hChild
          cases hChild
      | none =>
          rw [children_foldConstants hCollapsed, List.getElem?_map] at hChild
          obtain ⟨d, hd, rfl⟩ := Option.map_eq_some_iff.1 hChild
          obtain ⟨m, hm, hn⟩ := ih hAt
          exact ⟨m, Option.bind_eq_some_iff.2 ⟨d, hd, hm⟩, hn⟩

/-- No sign stays in front of a number. -/
theorem isSigned_foldConstants (n : Node) : n.foldConstants.isSigned = false := by
  cases hCollapsed : n.collapsed? with
  | some m =>
      obtain ⟨l, rfl⟩ := isLiteral_of_collapsed? hCollapsed
      rw [foldConstants_eq, hCollapsed]
      rfl
  | none =>
      rw [foldConstants_eq, hCollapsed]
      cases n with
      | unary op argument =>
          have hArgument : ∀ {sign : Node → Node},
              (if argument.foldConstants.number?.isSome then some (sign argument.foldConstants)
                else none) = none → argument.foldConstants.number?.isSome = false := by
            intro sign h
            simpa using h
          cases op with
          | neg => exact hArgument hCollapsed
          | plus => exact hArgument hCollapsed
          | _ => rfl
      | _ => rfl

/-- An operation on two numbers that is left comes from an operation without a value. -/
theorem exists_of_isCalculation_foldConstants {n : Node}
    (h : n.foldConstants.isCalculation = true) :
    ∃ op left right, n = .binary op left right ∧ n.result? = none ∧
      n.foldConstants = .binary op left.foldConstants right.foldConstants := by
  cases hCollapsed : n.collapsed? with
  | some m =>
      obtain ⟨l, rfl⟩ := isLiteral_of_collapsed? hCollapsed
      rw [foldConstants_eq, hCollapsed] at h
      cases h
  | none =>
      have hEq := n.foldConstants_eq
      rw [hCollapsed] at hEq
      rw [hEq] at h
      cases n with
      | binary op left right =>
          have hComputed := computed?_eq op left right
          refine ⟨op, left, right, rfl, ?_, hEq⟩
          exact Option.map_eq_none_iff.1 (hComputed.symm.trans hCollapsed)
      | _ => cases h

/-- A tree without anything to fold is left as it is. -/
theorem foldConstants_eq_self {t : Node}
    (h : ∀ n ∈ t.descendants, n.isSigned = false ∧ n.result? = none) : t.foldConstants = t := by
  induction hSize : sizeOf t using Nat.strongRecOn generalizing t with
  | ind size ih =>
      have hChildren : ∀ c ∈ t.children, c.foldConstants = c := fun c hc =>
        ih _ (hSize ▸ sizeOf_lt_of_mem_children hc)
          (fun n hn => h n (mem_descendants_of_child hc hn)) rfl
      obtain ⟨hSigned, hResult⟩ := h t (mem_descendants_self t)
      have hCollapsed : t.collapsed? = none := by
        cases t with
        | unary op argument =>
            have hArgument : argument.foldConstants = argument :=
              hChildren argument List.mem_cons_self
            cases op with
            | neg | plus =>
                rw [collapsed?, hArgument]
                exact if_neg (Bool.eq_false_iff.1 hSigned)
            | _ => rfl
        | binary op left right => rw [collapsed?, computed?_eq, hResult, Option.map_none]
        | _ => rfl
      have hFields : t.fields.map (Field.map foldConstants) = t.fields := by
        refine (List.map_congr_left fun field hField => ?_).trans (List.map_id' _)
        exact Field.map_eq_self fun c hc => hChildren c (List.mem_flatMap.2 ⟨field, hField, hc⟩)
      rw [foldConstants_eq, hCollapsed, hFields]
      exact build_label_fields t

/-- Folding leaves no sign in front of a number. An arithmetic operation on two numbers that it
leaves stood in the same place, with an operand that was no number yet or without a finite value. A
tree without such signs and without operations that have a value is not changed, not even in the
text of its literals. -/
theorem foldConstants_reaches_normal_form (t : Node) :
    (∀ n ∈ t.foldConstants.descendants, n.isSigned = false) ∧
      (∀ path n, t.foldConstants.at? path = some n → n.isCalculation = true →
        ∃ op left right, t.at? path = some (.binary op left right) ∧
          n = .binary op left.foldConstants right.foldConstants ∧
          (left.number? = none ∨ right.number? = none ∨
            ∃ x y, left.number? = some x ∧ right.number? = some y ∧ op.apply? x y = none)) ∧
      ((∀ n ∈ t.descendants, n.isSigned = false ∧ n.result? = none) → t.foldConstants = t) := by
  refine ⟨fun n hn => ?_, fun path n hAt hCalculation => ?_, foldConstants_eq_self⟩
  · obtain ⟨s, hs, rfl⟩ := List.mem_map.1 hn
    obtain ⟨path, -, hAt⟩ := Site.mem_descendants_iff.1 hs
    obtain ⟨m, -, hm⟩ := exists_at?_of_foldConstants hAt
    rw [hm]
    exact isSigned_foldConstants m
  · obtain ⟨m, hm, rfl⟩ := exists_at?_of_foldConstants hAt
    obtain ⟨op, left, right, rfl, hResult, hEq⟩ :=
      exists_of_isCalculation_foldConstants hCalculation
    refine ⟨op, left, right, hm, hEq, ?_⟩
    cases hLeft : left.number? with
    | none => exact .inl rfl
    | some x =>
        cases hRight : right.number? with
        | none => exact .inr (.inl rfl)
        | some y =>
            rw [result?, hLeft, hRight] at hResult
            exact .inr (.inr ⟨x, y, rfl, rfl, hResult⟩)

/-- The outer sum of `30 + 50 + 10` is left as `80 + 10`, and `x + 1 / 0` is left as it is. -/
theorem foldConstants_reaches_normal_form_sums :
    let sum : Node := .binary .add (.binary .add (.int 30) (.int 50)) (.int 10)
    let kept : Node := .binary .add (.ident "x") (.binary .div (.int 1) (.int 0))
    (sum.foldConstants.isCalculation = true ∧
      ∃ op left right, sum.at? [] = some (.binary op left right) ∧
        sum.foldConstants = .binary op left.foldConstants right.foldConstants ∧
        (left.number? = none ∨ right.number? = none ∨
          ∃ x y, left.number? = some x ∧ right.number? = some y ∧ op.apply? x y = none)) ∧
      (∀ n ∈ kept.descendants, n.isSigned = false ∧ n.result? = none) ∧
      kept.foldConstants = kept := by
  intro sum kept
  have hSum : sum.foldConstants.isCalculation = true := by decide +kernel
  have hKept : ∀ n ∈ kept.descendants, n.isSigned = false ∧ n.result? = none := by
    decide +kernel
  exact ⟨⟨hSum, (foldConstants_reaches_normal_form sum).2.1 [] _ rfl hSum⟩, hKept,
    (foldConstants_reaches_normal_form kept).2.2 hKept⟩

/-! Texts of numbers. -/

/-- The texts of all numbers in the tree show their values. -/
def ShowsNumbers (t : Node) : Prop :=
  ∀ value raw, .literal ⟨.number value, raw⟩ ∈ t.descendants → value.Shows raw.toList

theorem ShowsNumbers.child {n c : Node} (h : n.ShowsNumbers) (hc : c ∈ n.children) :
    c.ShowsNumbers :=
  fun value raw hMem => h value raw (mem_descendants_of_child hc hMem)

/-- A minus sign in front of a number is put into the text or taken out of it. -/
theorem exists_of_negated {x : Number} {raw : String} (h : x.Shows raw.toList) :
    ∃ raw', negated (.literal ⟨.number x, raw⟩) = .literal ⟨.number x.neg, raw'⟩ ∧
      x.neg.Shows raw'.toList := by
  refine ⟨_, rfl, ?_⟩
  generalize raw.toList = cs at h
  cases h with
  | plain hRead hSign =>
      split
      · exact absurd rfl hSign
      · rw [String.toList_ofList]
        exact .signed (by rw [hRead, Number.neg_neg]) hSign
  | signed hRead hSign =>
      simp only [String.toList_ofList]
      exact .plain hRead hSign

/-- The result of a calculation is finite, as others are not folded. -/
theorem isFinite_of_result {op : BinaryOp} {x y z : Number} (h : op.apply? x y = some z) :
    z.isFinite = true :=
  (Option.filter_eq_some_iff.1 h).2

theorem exists_of_number? {n : Node} {value : Number} (h : n.number? = some value) :
    ∃ raw, n = .literal ⟨.number value, raw⟩ := by
  unfold number? at h
  split at h
  · cases h
    exact ⟨_, rfl⟩
  · cases h

/-- The number that a node becomes has the text of its value, if that is so of its argument. -/
theorem shows_of_collapsed? {n : Node} {value : Number} {raw : String}
    (h : n.collapsed? = some (.literal ⟨.number value, raw⟩))
    (hChildren : ∀ c ∈ n.children, c.foldConstants.ShowsNumbers) : value.Shows raw.toList := by
  cases n with
  | unary op argument =>
      have hArgument := hChildren argument List.mem_cons_self
      cases op with
      | neg =>
          rw [collapsed?] at h
          split at h
          · next hNumber =>
              obtain ⟨x, hx⟩ := Option.isSome_iff_exists.1 hNumber
              obtain ⟨text, hEq⟩ := exists_of_number? hx
              obtain ⟨text', hNegated, hShows⟩ :=
                exists_of_negated (hArgument x text (hEq ▸ mem_descendants_self _))
              rw [hEq, hNegated] at h
              cases h
              exact hShows
          · cases h
      | plus =>
          rw [collapsed?] at h
          split at h
          · next hNumber =>
              obtain ⟨x, hx⟩ := Option.isSome_iff_exists.1 hNumber
              obtain ⟨text, hEq⟩ := exists_of_number? hx
              rw [hEq] at h
              cases h
              exact hArgument value raw (hEq ▸ mem_descendants_self _)
          · cases h
      | _ => cases h
  | binary op left right =>
      rw [collapsed?, computed?_eq] at h
      obtain ⟨x, hResult, hEq⟩ := Option.map_eq_some_iff.1 h
      cases hEq
      obtain ⟨l, -, hResult⟩ := Option.bind_eq_some_iff.1 hResult
      obtain ⟨r, -, hResult⟩ := Option.bind_eq_some_iff.1 hResult
      exact Number.shows_render (isFinite_of_result hResult)
  | _ => cases h

/-- Folding keeps to the texts of the values. -/
theorem ShowsNumbers.foldConstants {t : Node} (h : t.ShowsNumbers) :
    t.foldConstants.ShowsNumbers := by
  induction hSize : sizeOf t using Nat.strongRecOn generalizing t with
  | ind size ih =>
      have hChildren : ∀ c ∈ t.children, c.foldConstants.ShowsNumbers := fun c hc =>
        ih _ (hSize ▸ sizeOf_lt_of_mem_children hc) (h.child hc) rfl
      intro value raw hMem
      obtain hTop | ⟨c, hc, hMem⟩ := mem_descendants_iff.1 hMem
      · cases hCollapsed : t.collapsed? with
        | some m =>
            rw [foldConstants_eq, hCollapsed] at hTop
            cases hTop
            exact shows_of_collapsed? hCollapsed hChildren
        | none =>
            have hLabel : t.label = t.foldConstants.label := (view_foldConstants hCollapsed).1.symm
            have hSame : t = t.foldConstants := eq_of_label_of_number hLabel (hTop ▸ rfl)
            refine h value raw ?_
            rw [hTop, ← hSame]
            exact mem_descendants_self t
      · obtain ⟨d, hd, rfl⟩ := exists_of_mem_children_foldConstants hc
        exact hChildren d hd value raw hMem

end Node

namespace Formed

variable {place : Place} {n : Node}

/-- The numbers in formed trees are those that the scanner gives. -/
theorem isNumeral {value : Number} {raw : String}
    (h : Formed place (.literal ⟨.number value, raw⟩)) : Unread.IsNumeral value raw := by
  generalize hNode : Node.literal ⟨.number value, raw⟩ = n at h
  induction h with
  | number h | numberKey h =>
      cases hNode
      exact h
  | blockStatement _ ih | declarationStatement _ ih | startDeclaration _ ih | startExpression _ ih
  | parameter _ ih | arrowBlock _ ih | arrowExpression _ ih | argument _ ih | element _ ih
  | computedKey _ ih => exact ih hNode
  | _ => cases hNode

/-- What the grammar forms shows its numbers. -/
theorem showsNumbers (h : Formed place n) : n.ShowsNumbers := by
  induction hSize : sizeOf n using Nat.strongRecOn generalizing place n with
  | ind size ih =>
      intro value raw hMem
      obtain rfl | ⟨c, hc, hMem⟩ := Node.mem_descendants_iff.1 hMem
      · refine .plain h.isNumeral.read ?_
        obtain ⟨c, cs, hRaw, hStart⟩ := Unread.exists_cons_of_isNumeral h.isNumeral
        rw [hRaw]
        rintro ⟨⟩
        exact absurd hStart (by decide)
      · obtain ⟨slot, hSlot, hChild⟩ := List.mem_flatMap.1 hc
        obtain ⟨place, hFormed⟩ := h.slots slot hSlot
        exact ih _ (hSize ▸ Node.sizeOf_lt_of_mem_children hc) (hFormed c hChild) rfl value raw hMem

end Formed

namespace Node

/-- Every number of a program, after its constants are folded, is read back from its text: the text
as it is, or what follows the minus sign that it starts with, negated. -/
theorem folded_numbers_read_back {text : String} {t : Node} (h : parseProgram text = .ok t)
    {value : Number} {raw : String}
    (hNumber : .literal ⟨.number value, raw⟩ ∈ t.foldConstants.descendants) :
    Number.readSigned? raw.toList = some value := by
  obtain ⟨body, rfl, hBody⟩ := formed_of_parseProgram h
  have hShows : (Node.program body).ShowsNumbers := by
    intro value raw hMem
    obtain hTop | ⟨c, hc, hMem⟩ := mem_descendants_iff.1 hMem
    · cases hTop
    · have hc : c ∈ body := by simpa [children, fields, Field.toList] using hc
      exact (hBody c hc).showsNumbers value raw hMem
  exact (hShows.foldConstants value raw hNumber).readSigned?_eq

/-- A difference that is negated, next to a number in base sixteen with two signs. -/
theorem folded_numbers_read_back_signs :
    ∃ text t value raw, text = "a = [-(7 - 2), - -0x1F, -1_0]" ∧ parseProgram text = .ok t ∧
      .literal ⟨.number value, raw⟩ ∈ t.foldConstants.descendants ∧ value.render = "-5" ∧
      Number.readSigned? raw.toList = some value := by
  generalize hText : "a = [-(7 - 2), - -0x1F, -1_0]" = text
  have hOk : (parseProgram text).toOption.any (fun t => t.foldConstants.descendants.any fun n =>
      n.number?.any fun value => value.render == "-5") = true := by
    rw [← hText]
    decide +kernel
  cases hParse : parseProgram text with
  | error fault => simp [hParse, Except.toOption] at hOk
  | ok t =>
      rw [hParse] at hOk
      obtain ⟨n, hn, hFive⟩ := List.any_eq_true.1 hOk
      obtain ⟨value, hValue, hRender⟩ := (Option.any_eq_true _ _).1 hFive
      obtain ⟨raw, rfl⟩ := exists_of_number? hValue
      exact ⟨text, t, value, raw, rfl, hParse, hn, beq_iff_eq.1 hRender,
        folded_numbers_read_back hParse hn⟩

end Node

end CodeShape
