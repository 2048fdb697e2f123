import CodeShape.Proofs.Rereading
import Mathlib.Data.List.Induction

/-!
How operands with operators between them are grouped. A tree is grouped if none of its operators
takes an operation that the table of powers leaves to another. Every row of operands and operators is
the in-order reading of a grouped tree, which is built from left to right; the parser reads a grouped
tree back from its row. So the parser groups every row, and in the only way there is.
-/
namespace CodeShape

open CodeShape.Parser Lexeme Node Grammar Unread

/-- An operator between two operands. -/
inductive Connective where
  | binary (op : BinaryOp)
  | logical (op : LogicalOp)
deriving DecidableEq

namespace Connective

def text : Connective → String
  | binary op => op.text
  | logical op => op.text

def power : Connective → Nat
  | binary op => binaryPower op
  | logical op => logicalPower op

def word : Connective → Lexeme
  | binary op => op.word
  | logical op => .punct (.logical op)

def make : Connective → Node → Node → Node
  | binary op => .binary op
  | logical op => .logical op

/-- The operator may have an operation of power `p` on its left. -/
def TakesLeft (c : Connective) (p : Nat) : Prop :=
  if c.power = binaryPower .exp then c.power < p else c.power ≤ p

/-- The operator may have an operation of power `p` on its right. -/
def TakesRight (c : Connective) (p : Nat) : Prop :=
  if c.power = binaryPower .exp then c.power ≤ p else c.power < p

instance (c : Connective) (p : Nat) : Decidable (c.TakesLeft p) :=
  inferInstanceAs (Decidable (if c.power = binaryPower .exp then c.power < p else c.power ≤ p))

instance (c : Connective) (p : Nat) : Decidable (c.TakesRight p) :=
  inferInstanceAs (Decidable (if c.power = binaryPower .exp then c.power ≤ p else c.power < p))

/-- The least power that the rule for operators looks for on the right of the operator. -/
def rightPower (c : Connective) : Nat :=
  if c.power = binaryPower .exp then c.power else c.power + 1

variable {c d : Connective} {p : Nat}

/-- An operator takes on its right what is of its power there or above. -/
theorem takesRight_iff : c.TakesRight p ↔ c.rightPower ≤ p := by
  unfold TakesRight rightPower
  split <;> rfl

/-- An operator asks no less on its right than its own power. -/
theorem power_le_rightPower : c.power ≤ c.rightPower := by
  unfold rightPower
  split <;> omega

/-- No operator has more power than that of powers of numbers. -/
theorem power_le_exp : c.power ≤ binaryPower .exp := by
  cases c with
  | binary op => cases op <;> decide
  | logical op => cases op <;> decide

theorem one_le_power : 1 ≤ c.power := by
  cases c with
  | binary op => cases op <;> decide
  | logical op => cases op <;> decide

/-- What is taken on the left has at least the operator's power. -/
theorem power_le_of_takesLeft (h : c.TakesLeft p) : c.power ≤ p := by
  unfold TakesLeft at h
  split at h <;> omega

/-- What an operator leaves to its left ends there. -/
theorem lt_rightPower_of_takesLeft (h : c.TakesLeft d.power) : c.power < d.rightPower := by
  have hExp := d.power_le_exp
  unfold TakesLeft at h
  unfold rightPower
  split at h <;> split <;> omega

/-- Of two operators in a row, the first may be below the second or the second below the first. -/
theorem takesRight_of_not_takesLeft (h : ¬ c.TakesLeft d.power) : d.TakesRight c.power := by
  have hExp := d.power_le_exp
  unfold TakesLeft at h
  unfold TakesRight
  split at h <;> split <;> omega

theorem isTemplate_word : c.word.isTemplate = false := by
  cases c with
  | binary op => cases op <;> rfl
  | logical op => rfl

/-- The word of a connective is read as that connective. -/
theorem operator?_word : operator? false c.word = some (c.power, c.make) := by
  cases c with
  | binary op => cases op <;> rfl
  | logical op => rfl

/-- Every connective ends a unary operation. -/
theorem endsUnary_word : EndsUnary (some c.word) := by
  cases c with
  | binary op => cases op <;> exact ⟨rfl, rfl⟩
  | logical op => exact ⟨rfl, rfl⟩

theorem not_arrow_word : c.word.isSign .arrow = false := by
  cases c with
  | binary op => cases op <;> rfl
  | logical op => rfl

theorem spells_word : Spells (c.text.toList ++ [' ']) [c.word] fun _ => True := by
  cases c with
  | binary op => exact Lettered.binarySign op
  | logical op => exact Lettered.logicalSign op

end Connective

/-- The operand that a word is by itself. -/
def Lexeme.operand? : Lexeme → Option Node
  | .number value raw => some (.literal ⟨.number value, raw⟩)
  | .string value raw => some (.literal ⟨.string value, raw⟩)
  | .name text =>
    if text = "this" then some .this
    else if text = "true" then some (.literal ⟨.bool true, text⟩)
    else if text = "false" then some (.literal ⟨.bool false, text⟩)
    else if text = "null" then some (.literal ⟨.null, text⟩)
    else if text ∈ keywords ∨ text = "async" ∨ text = "await" then none
    else some (.ident text)
  | _ => none

/-- An operand of a single word: a name, a number, a string, or a keyword that stands for a value. -/
structure Operand where
  word : Lexeme
  node : Node
  scanned : word.IsScanned
  operand : word.operand? = some node

/-- What stands between operators, and the operators with what stands after each. -/
structure Alternation (α : Type) where
  first : α
  rest : List (Connective × α)

namespace Alternation

variable {α β : Type}

def join (left : Alternation α) (c : Connective) (right : Alternation α) : Alternation α :=
  ⟨left.first, left.rest ++ (c, right.first) :: right.rest⟩

def map (f : α → β) (row : Alternation α) : Alternation β :=
  ⟨f row.first, row.rest.map fun (c, a) => (c, f a)⟩

/-- The text of a row, with a space between any two of its words. -/
def text (row : Alternation Operand) : String :=
  " ".intercalate
    (row.first.word.render :: row.rest.flatMap fun (c, x) => [c.text, x.word.render])

/-- The words after the first operand. -/
def later (row : Alternation Operand) : List Lexeme := row.rest.flatMap fun (c, x) => [c.word, x.word]

def words (row : Alternation Operand) : List Lexeme := row.first.word :: row.later

/-- Two rows joined by a connective have its word between theirs. -/
theorem later_join (left right : Alternation Operand) (c : Connective) :
    (left.join c right).later = left.later ++ c.word :: right.words := by
  simp [join, later, words]

theorem words_join (left right : Alternation Operand) (c : Connective) :
    (left.join c right).words = left.words ++ c.word :: right.words :=
  congrArg _ (later_join left right c)

/-- A row whose image has an operator in it has the operator at that place. -/
theorem exists_join {f : α → β} {row : Alternation α} {left right : Alternation β} {c : Connective}
    (h : row.map f = left.join c right) :
    ∃ left' right' : Alternation α, row = left'.join c right' ∧ left'.map f = left ∧ right'.map f = right := by
  obtain ⟨first, rest⟩ := row
  obtain ⟨first', rest'⟩ := left
  obtain ⟨first'', rest''⟩ := right
  simp only [map, join, mk.injEq] at h
  obtain ⟨rfl, hRest⟩ := h
  obtain ⟨before, after, rfl, rfl, hAfter⟩ := List.map_eq_append_iff.1 hRest
  obtain ⟨⟨d, a⟩, after, rfl, hHead, rfl⟩ := List.map_eq_cons_iff.1 hAfter
  simp only [Prod.mk.injEq] at hHead
  obtain ⟨rfl, rfl⟩ := hHead
  exact ⟨⟨first, before⟩, ⟨a, after⟩, rfl, rfl, rfl⟩

end Alternation

namespace Node

def connective? : Node → Option Connective
  | .binary op _ _ => some (.binary op)
  | .logical op _ _ => some (.logical op)
  | _ => none

/-- The operands and operators of a tree from left to right. -/
def inOrder : Node → Alternation Node
  | .binary op left right => left.inOrder.join (.binary op) right.inOrder
  | .logical op left right => left.inOrder.join (.logical op) right.inOrder
  | n => ⟨n, []⟩

/-- Every operator of the tree may have the operations that it has. -/
inductive Grouped : Node → Prop where
  | operand {n : Node} (h : n.connective? = none) : Grouped n
  | operation {c : Connective} {left right : Node} (hLeft : Grouped left) (hRight : Grouped right)
      (takesLeft : ∀ d ∈ left.connective?, c.TakesLeft d.power)
      (takesRight : ∀ d ∈ right.connective?, c.TakesRight d.power) : Grouped (c.make left right)

@[simp] theorem connective?_make (c : Connective) (left right : Node) :
    (c.make left right).connective? = some c := by
  cases c <;> rfl

/-- An operation is read in order as its two sides joined. -/
@[simp] theorem inOrder_make (c : Connective) (left right : Node) :
    (c.make left right).inOrder = left.inOrder.join c right.inOrder := by
  cases c <;> rfl

/-- What has no connective at its root is an operand. -/
theorem inOrder_of_connective?_eq_none {n : Node} (h : n.connective? = none) :
    n.inOrder = ⟨n, []⟩ := by
  cases n with
  | binary | logical => cases h
  | _ => rfl

/-- The tree `t'` is grouped and goes on with an operator and an operand where `t` ends. -/
structure GoesOn (t : Node) (c : Connective) (x t' : Node) : Prop where
  grouped : t'.Grouped
  inOrder_eq : t'.inOrder = t.inOrder.join c ⟨x, []⟩
  root : ∀ d ∈ t'.connective?, d = c ∨ d ∈ t.connective?

/-- The operator takes the whole tree as its left operand. -/
theorem GoesOn.whole {t x : Node} {c : Connective} (h : t.Grouped) (hx : x.connective? = none)
    (hTakes : ∀ d ∈ t.connective?, c.TakesLeft d.power) : GoesOn t c x (c.make t x) where
  grouped := .operation h (.operand hx) hTakes (by simp [hx])
  inOrder_eq := by rw [inOrder_make, inOrder_of_connective?_eq_none hx]
  root := by simp

/-- Where the operator does not take the whole tree, it is left to the last operand of the tree. -/
theorem Grouped.exists_goesOn {t x : Node} (h : t.Grouped) (c : Connective)
    (hx : x.connective? = none) : ∃ t', GoesOn t c x t' := by
  induction h with
  | operand hn => exact ⟨_, .whole (.operand hn) hx (by simp [hn])⟩
  | @operation d left right hLeft hRight takesLeft takesRight _ ihRight =>
      by_cases hTakes : c.TakesLeft d.power
      · exact ⟨_, .whole (.operation hLeft hRight takesLeft takesRight) hx (by simpa using hTakes)⟩
      · obtain ⟨right', hRight'⟩ := ihRight
        refine ⟨d.make left right', .operation hLeft hRight'.grouped takesLeft ?_, ?_, by simp⟩
        · intro e he
          rcases hRight'.root e he with rfl | he
          · exact Connective.takesRight_of_not_takesLeft hTakes
          · exact takesRight e he
        · simp [hRight'.inOrder_eq, Alternation.join]

end Node

namespace Alternation

/-- Every row of operands is that of a grouped tree. -/
theorem exists_grouped (row : Alternation Node) (hFirst : row.first.connective? = none)
    (hRest : ∀ o ∈ row.rest, o.2.connective? = none) : ∃ t : Node, t.Grouped ∧ t.inOrder = row := by
  obtain ⟨first, rest⟩ := row
  induction rest using List.reverseRecOn with
  | nil => exact ⟨first, .operand hFirst, inOrder_of_connective?_eq_none hFirst⟩
  | append_singleton rest o ih =>
      obtain ⟨t, hGrouped, hOrder⟩ := ih hFirst fun o ho => hRest o (List.mem_append_left _ ho)
      obtain ⟨t', hGoesOn⟩ := hGrouped.exists_goesOn o.1 (hRest o (by simp))
      refine ⟨t', hGoesOn.grouped, ?_⟩
      rw [hGoesOn.inOrder_eq, hOrder]
      rfl

end Alternation

namespace Operand

variable (x : Operand)

/-- The operand as a tree: it is no operation, and it is written as its word. -/
structure Agrees (w : Lexeme) (n : Node) : Prop where
  tree : n.IsOperatorTree
  isOperation : n.isOperation = false
  words : n.words = [w]
  bare : n.bare = w.render
  notAsync : w.isName "async" = false
  notParen : w.isSign .openParen = false

theorem agrees : Agrees x.word x.node := by
  obtain ⟨w, n, hScanned, hOperand⟩ := x
  cases w with
  | number value raw =>
      cases hOperand
      exact ⟨.number hScanned, rfl, rfl, rfl, rfl, rfl⟩
  | string value raw =>
      cases hOperand
      exact ⟨.string hScanned, rfl, rfl, rfl, rfl, rfl⟩
  | name text =>
      simp only [operand?] at hOperand
      split_ifs at hOperand with hThis hTrue hFalse hNull hOther
      · cases hOperand
        subst hThis
        exact ⟨.this, rfl, rfl, rfl, rfl, rfl⟩
      · cases hOperand
        subst hTrue
        exact ⟨.bool true, rfl, rfl, rfl, rfl, rfl⟩
      · cases hOperand
        subst hFalse
        exact ⟨.bool false, rfl, rfl, rfl, rfl, rfl⟩
      · cases hOperand
        subst hNull
        exact ⟨.null, rfl, rfl, rfl, rfl, rfl⟩
      · cases hOperand
        simp only [not_or] at hOther
        obtain ⟨hKeyword, hAsync, hAwait⟩ := hOther
        have hContains : keywords.contains text = false := by simpa using hKeyword
        exact ⟨.ident hScanned hContains hAsync hAwait, rfl, rfl, rfl,
          beq_eq_false_iff_ne.2 hAsync, rfl⟩
  | _ => cases hOperand

/-- An operand is read by the rule for unary operations. -/
theorem reads {m : Nat} (hm : x.word.weight ≤ m) :
    Reads (level m).unaryRule [x.word] x.node EndsUnary := by
  have hx := x.agrees
  have hWords : x.node.operandWords x.node.words = [x.word] := by
    rw [operandWords, hx.isOperation, hx.words]
    rfl
  have hReads := hx.tree.formed.rereads.unary hx.tree.formed hx.tree.faithful m
    (by simpa [hWords] using hm)
  rwa [hWords] at hReads

/-- An operand is spelled by the text of its word. -/
theorem spells : Spells x.word.render.toList [x.word] EndsNumber := by
  have hx := x.agrees
  rw [← hx.bare, ← hx.words]
  exact (hx.tree.formed.lettered hx.tree.faithful).spells

end Operand

namespace Alternation

variable {row : Alternation Operand} {t : Node}

/-- The text of a row spells its words. -/
theorem spells (row : Alternation Operand) : Spells row.text.toList row.words EndsNumber := by
  obtain ⟨first, rest⟩ := row
  induction rest generalizing first with
  | nil => simpa [text, words, later] using first.spells
  | cons o rest ih =>
      obtain ⟨c, x⟩ := o
      have hText : (text ⟨first, (c, x) :: rest⟩).toList =
          first.word.render.toList ++ ' ' :: (c.text.toList ++ ' ' :: (text ⟨x, rest⟩).toList) := by
        simp [text]
      rw [hText]
      exact Lettered.infixed first.spells c.spells_word (ih x)

/-- Nothing follows that the last operator of the tree would leave to its right operand. -/
def Closes (t : Node) (next : Option Lexeme) : Prop :=
  ∀ c ∈ t.connective?, EndsBinary false c.rightPower next

/-- A loop that makes the tree of the first operand, after that operand. -/
theorem reads_of_extends {m power : Nat} (hm : weightOf row.words ≤ m)
    (hPower : ∀ c ∈ t.connective?, power ≤ c.power)
    (h : Extends ((level m).operatorStep false power) row.first.node row.later t (Closes t)) :
    Reads ((level m).binaryRule false power) row.words t (EndsBinary false power) := by
  have hEnds : ∀ next, EndsBinary false power next → Closes t next := by
    intro next hNext c hc
    refine ⟨hNext.unary, fun o ho => ?_⟩
    exact Nat.lt_of_lt_of_le (hNext.operator o ho)
      (Nat.le_trans (hPower c hc) Connective.power_le_rightPower)
  rw [binaryRule_eq]
  rw [words, weightOf_cons] at hm
  refine (row.first.reads (by omega)).bind ((h.mono hEnds).reads_grow reads_operatorStep_none) ?_
  intro next hNext
  obtain ⟨first, _ | ⟨⟨c, x⟩, rest⟩⟩ := row
  · exact hNext.unary
  · exact c.endsUnary_word

/-- The loop over the operators of at least the given power makes a grouped tree of its first
operand. -/
theorem extends_later (h : t.Grouped) (hRow : row.map Operand.node = t.inOrder) {m power : Nat}
    (hm : weightOf row.words ≤ m) (hPower : ∀ c ∈ t.connective?, power ≤ c.power) :
    Extends ((level m).operatorStep false power) row.first.node row.later t (Closes t) := by
  induction h generalizing row m power with
  | operand hn =>
      rw [inOrder_of_connective?_eq_none hn] at hRow
      obtain ⟨first, rest⟩ := row
      simp only [map, mk.injEq, List.map_eq_nil_iff] at hRow
      obtain ⟨rfl, rfl⟩ := hRow
      exact .refl
  | @operation c left right hLeft hRight takesLeft takesRight ihLeft ihRight =>
      rw [inOrder_make] at hRow
      obtain ⟨row, row', rfl, hRow, hRow'⟩ := exists_join hRow
      have hPower : power ≤ c.power := hPower c (by simp)
      rw [words_join, weightOf_append, weightOf_cons] at hm
      have hWeight := c.word.weight_pos
      cases m with
      | zero => omega
      | succ m =>
          have hReads : Reads ((level m).binaryRule false c.rightPower) row'.words right
              (EndsBinary false c.rightPower) := by
            have hTakes : ∀ d ∈ right.connective?, c.rightPower ≤ d.power :=
              fun d hd => Connective.takesRight_iff.1 (takesRight d hd)
            exact reads_of_extends (by omega) hTakes (ihRight hRow' (by omega) hTakes)
          have hExtends : Extends ((level (m + 1)).operatorStep false power) row.first.node row.later
              left (Closes left) :=
            ihLeft hRow (by omega) fun d hd =>
              Nat.le_trans hPower (Connective.power_le_of_takesLeft (takesLeft d hd))
          rw [later_join]
          refine hExtends.snoc (F := Closes (c.make left right)) ?_ nofun ?_
          · refine .peek_word c.isTemplate_word ?_
            have hNot : ¬ c.power < power := Nat.not_lt.2 hPower
            simp only [Option.bind_some, Connective.operator?_word, hNot, if_false]
            refine .bind (u := [c.word]) (F := fun _ => True) (reads_advance _) ?_ fun _ _ => trivial
            exact hReads.done.mono fun next hNext => hNext c (by simp)
          · intro next _ d hd
            refine ⟨c.endsUnary_word, fun o ho => ?_⟩
            rw [List.head?_cons, Option.some_or, Option.bind_some, Connective.operator?_word] at ho
            cases ho
            exact Connective.lt_rightPower_of_takesLeft (takesLeft d hd)

/-- A row is read as the grouped tree whose row it is. -/
theorem reads_assignment (h : t.Grouped) (hRow : row.map Operand.node = t.inOrder) {m : Nat}
    (hm : weightOf row.words < m) :
    Reads ((level m).assignment false) row.words t (EndsExpression false) := by
  cases m with
  | zero => exact absurd hm (Nat.not_lt_zero _)
  | succ m =>
      have hPower : ∀ c ∈ t.connective?, 1 ≤ c.power := fun c _ => c.one_le_power
      have hBinary : Reads ((level m).binaryRule false 1) row.words t (EndsBinary false 1) :=
        reads_of_extends (Nat.le_of_lt_succ hm) hPower
          (extends_later h hRow (Nat.le_of_lt_succ hm) hPower)
      have hFirst := row.first.agrees
      have hStarts : row.words.head?.any (startsExpression false) = true := by
        have hNode := hFirst.tree.formed.startsExpression hFirst.tree.faithful
        rwa [hFirst.words] at hNode
      have hArrow : row.later.head?.any (isSign .arrow) = false := by
        obtain ⟨first, _ | ⟨⟨c, x⟩, rest⟩⟩ := row
        · rfl
        · exact c.not_arrow_word
      refine reads_unassigned (.of_word hFirst.notParen hArrow) ?_ hStarts (fun _ h => h) ?_
      · simp [NoAsync, words, hFirst.notAsync]
      · exact (reads_conditional hBinary).mono fun _ h => h.choice

/-- The text of a row is parsed as the grouped tree whose row it is. -/
theorem parseExpression_of_grouped (h : t.Grouped) (hRow : row.map Operand.node = t.inOrder) :
    parseExpression row.text = .ok t :=
  parseExpression_of_reads row.spells fun _ hm => reads_assignment h hRow hm

theorem connective?_node (x : Operand) : x.node.connective? = none := by
  have hOperation := x.agrees.isOperation
  cases hNode : x.node with
  | binary | logical =>
      rw [hNode] at hOperation
      cases hOperation
  | _ => rfl

/-- The parser groups a row as the table of powers says. It makes a tree whose operands and operators
are those of the row, in this order, and in which every operator has operations only where its power
lets it have them; there is no other such tree. -/
theorem parse_groups (row : Alternation Operand) : ∃ t, parseExpression row.text = .ok t ∧
    t.inOrder = row.map Operand.node ∧ t.Grouped ∧
    ∀ t' : Node, t'.inOrder = row.map Operand.node → t'.Grouped → t' = t := by
  obtain ⟨t, hGrouped, hOrder⟩ := exists_grouped (row.map Operand.node) (connective?_node row.first)
    (by
      intro o ho
      obtain ⟨p, -, rfl⟩ := List.mem_map.1 ho
      exact connective?_node p.2)
  have hParse := parseExpression_of_grouped hGrouped hOrder.symm
  refine ⟨t, hParse, hOrder, hGrouped, fun t' hOrder' hGrouped' => ?_⟩
  have hParse' := parseExpression_of_grouped hGrouped' hOrder'.symm
  exact Except.ok.inj (hParse'.symm.trans hParse)

/-- Differences group to the left and powers to the right. -/
theorem parse_groups_powers : ∃ row : Alternation Operand, row.text = "x - 5 - x ** x ** this && null in x" ∧
    parseExpression row.text = .ok (.logical .and
      (.binary .sub (.binary .sub (.ident "x") (.int 5))
        (.binary .exp (.ident "x") (.binary .exp (.ident "x") .this)))
      (.binary .isIn (.literal ⟨.null, "null"⟩) (.ident "x"))) := by
  let x : Operand := ⟨.name "x", .ident "x",
    (Lettered.ident (show IsName "x" by decide)).isScanned rfl rfl rfl rfl, rfl⟩
  let five : Operand := ⟨.number (.ofInt 5) "5", .int 5,
    (Lettered.number ⟨⟨['5'], rfl, rfl⟩, by decide +kernel⟩).isScanned rfl rfl rfl rfl, rfl⟩
  let this : Operand := ⟨.name "this", .this, Lettered.this.isScanned rfl rfl rfl rfl, rfl⟩
  let null : Operand := ⟨.name "null", .literal ⟨.null, "null"⟩,
    Lettered.null.isScanned rfl rfl rfl rfl, rfl⟩
  let row : Alternation Operand := ⟨x, [(.binary .sub, five), (.binary .sub, x), (.binary .exp, x),
    (.binary .exp, this), (.logical .and, null), (.binary .isIn, x)]⟩
  have hLeaf : ∀ y : Operand, y.node.Grouped := fun y => .operand (connective?_node y)
  have hPowers : (Node.binary .exp (.ident "x") (.binary .exp (.ident "x") .this)).Grouped :=
    .operation (c := .binary .exp) (hLeaf x)
      (.operation (c := .binary .exp) (hLeaf x) (hLeaf this) nofun nofun) nofun (by decide)
  have hDifferences : (Node.binary .sub (.binary .sub (.ident "x") (.int 5))
      (.binary .exp (.ident "x") (.binary .exp (.ident "x") .this))).Grouped :=
    .operation (c := .binary .sub)
      (.operation (c := .binary .sub) (hLeaf x) (hLeaf five) nofun nofun) hPowers
      (by decide) (by decide)
  have hGrouped := Grouped.operation (c := .logical .and) hDifferences
    (.operation (c := .binary .isIn) (hLeaf null) (hLeaf x) nofun nofun) (by decide) (by decide)
  obtain ⟨t, hParse, -, -, hUnique⟩ := parse_groups row
  refine ⟨row, by decide +kernel, hParse.trans (congrArg _ ?_)⟩
  exact (hUnique _ rfl hGrouped).symm

end Alternation

end CodeShape
