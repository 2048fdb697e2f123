import CodeShape.Proofs.Members

/-!
How the words of an expression are read back as the expression. The rules that the grammar comes back
to are those of levels; a level reads words that it cannot exhaust. An expression is read in several
ways: as one item, as a whole, as an operand, as what `new` constructs, and after an operator; which
of them its text can be read in is told by its kind, and each follows from the one that is its own.
-/
namespace CodeShape

open CodeShape.Parser Lexeme Node Grammar

/-- A word that an element of a list starts with. -/
def Lexeme.startsArgument (w : Lexeme) : Bool := w.isSign .ellipsis || w.startsExpression false

namespace Node

/-- Expressions that are no operands of the rule for choices: arrow functions and sequences. -/
def isLoose : Node → Bool
  | function .arrow _ _ _ | sequence _ => true
  | _ => false

variable {n : Node}

/-- An item that is no sequence stands as it is. -/
theorem itemWords_of_not (h : n.isSequence = false) : n.itemWords n.words = n.words := by
  rw [itemWords, h]
  rfl

/-- A sequence among items stands in parentheses. -/
theorem itemWords_of (h : n.isSequence = true) : n.itemWords n.words = wrapped n.words := by
  rw [itemWords, h]
  rfl

/-- An operand that is no operation stands as it is. -/
theorem operandWords_of_not (h : n.isOperation = false) : n.operandWords n.words = n.words := by
  rw [operandWords, h]
  rfl

/-- An operation among operands stands in parentheses. -/
theorem operandWords_of (h : n.isOperation = true) : n.operandWords n.words = wrapped n.words := by
  rw [operandWords, h]
  rfl

theorem needsFence_of_isFunction (h : n.isFunction = true) : n.needsFence = true := by
  cases n <;> first | rfl | cases h

/-- Sequences are operations, so what is none is no sequence. -/
theorem isSequence_of_not_operation (h : n.isOperation = false) : n.isSequence = false := by
  cases n <;> first | rfl | cases h

theorem isLoose_of_not_operation (h : n.isOperation = false) : n.isLoose = false := by
  cases n with
  | function form => cases form <;> first | rfl | cases h
  | sequence => cases h
  | _ => rfl

/-- Sequences are loose, so what is not loose is no sequence. -/
theorem isSequence_of_not_loose (h : n.isLoose = false) : n.isSequence = false := by
  cases n <;> first | rfl | cases h

/-- What can be assigned to is no operation, and so it is never fenced. -/
theorem isOperation_of_isTarget (h : isTarget n = true) : n.isOperation = false := by
  cases n <;> first | rfl | cases h

end Node

namespace Formed

variable {free noIn : Bool} {n : Node}

/-- Only what stands after `new` or `extends` is formed where less is allowed. -/
theorem bound (h : Formed (.expression free) n) (hn : n.isOperation = true ∨ n.needsFence = true) :
    Formed (.expression false) n := by
  cases h with
  | ident | call | member | computedMember => rcases hn with hn | hn <;> cases hn
  | _ => constructor <;> assumption

/-- What is no operation does not see where the word `in` ends an expression. -/
theorem faithful_eq (h : Formed (.expression free) n) (hOperation : n.isOperation = false)
    (noIn : Bool) : n.faithful noIn = n.faithful false := by
  cases h with
  | arrow | assign | binary | logical | unary | conditional | sequence => cases hOperation
  | function =>
      have hForm : (FunctionForm.expression == FunctionForm.arrow) = false := by decide
      simp [faithful_function, hForm]
  | classExpression => rw [faithful_classDef, faithful_classDef]
  | _ => rfl

/-- Only operations trail: an operand ends with a word or a bracket of its own. -/
theorem trails_eq (h : Formed (.expression free) n) (hOperation : n.isOperation = false) :
    n.trails = false := by
  cases h with
  | arrow | assign | binary | logical | unary | conditional | sequence => cases hOperation
  | _ => rfl

/-- An operand is no arrow function: it is in parentheses, or none by itself. -/
theorem noArrow_fenced (h : Formed (.expression free) n) (fence : Bool)
    (hn : n.isOperation = false → NoArrow n.words) :
    NoArrow (if fence then wrapped n.words else n.operandWords n.words) := by
  have hWrapped : NoArrow (wrapped n.words) := .wrapped h.nested
  split
  · exact hWrapped
  · rw [operandWords]
    split
    · exact hWrapped
    · next hOperation => exact hn (by simpa using hOperation)

/-- The look for an arrow function finds none but an arrow function. -/
theorem noArrow (h : Formed (.expression free) n) (hFaithful : n.faithful noIn = true)
    (hLoose : n.isLoose = false) : NoArrow n.words := by
  have hCalm := h.calm hFaithful
  generalize hPlace : Place.expression free = place at h
  induction h generalizing noIn free with
  | ident | this | bool | null | number | string | template | array | object =>
      exact .of_calm rfl hCalm
  | function =>
      rw [words_function (show FunctionForm.expression ≠ .arrow by decide)] at hCalm ⊢
      exact .of_calm rfl hCalm
  | classExpression =>
      rw [words_classDef] at hCalm ⊢
      exact .of_calm rfl hCalm
  | construct => exact .of_calm rfl hCalm
  | @unary _ op => cases op <;> exact .of_calm rfl hCalm
  | @update _ _ before argument hTarget hArgument ih =>
      cases before with
      | true => exact .of_calm rfl hCalm
      | false =>
          have hArgument' : argument.faithful false = true := hFaithful
          exact (hArgument.noArrow_fenced false fun h => ih hArgument' (isLoose_of_not_operation h)
            (hArgument.calm hArgument') rfl).append rfl
  | assign hTarget hLeft _ ih _ =>
      simp only [faithful_assign, Bool.and_eq_true] at hFaithful
      have hLoose := isLoose_of_not_operation (isOperation_of_isTarget hTarget)
      exact (ih hFaithful.1.1 hLoose (hLeft.calm hFaithful.1.1) rfl).append rfl
  | call h _ ih _ | member h _ ih =>
      simp only [faithful_call, faithful_member, Bool.and_eq_true] at hFaithful
      cases hPlace
      exact (h.noArrow_fenced _ fun ho => ih hFaithful.1.2 (isLoose_of_not_operation ho)
        (h.calm hFaithful.1.2) rfl).append rfl
  | computedMember h _ ih =>
      simp only [faithful_member, Bool.and_eq_true] at hFaithful
      cases hPlace
      exact (h.noArrow_fenced false fun ho => ih hFaithful.1.2 (isLoose_of_not_operation ho)
        (h.calm hFaithful.1.2) rfl).append rfl
  | @binary _ op _ _ h _ ih =>
      simp only [faithful_binary, Bool.and_eq_true] at hFaithful
      exact (h.noArrow_fenced false fun ho => ih hFaithful.1.2 (isLoose_of_not_operation ho)
        (h.calm hFaithful.1.2) rfl).append (by cases op <;> rfl)
  | logical h _ ih =>
      simp only [faithful_logical, Bool.and_eq_true] at hFaithful
      exact (h.noArrow_fenced false fun ho => ih hFaithful.1 (isLoose_of_not_operation ho)
        (h.calm hFaithful.1) rfl).append rfl
  | conditional h _ _ ih _ _ =>
      simp only [faithful_conditional, Bool.and_eq_true] at hFaithful
      rw [words_conditional, List.append_assoc]
      exact (h.noArrow_fenced false fun ho => ih hFaithful.1.1 (isLoose_of_not_operation ho)
        (h.calm hFaithful.1.1) rfl).append rfl
  | arrow | sequence => cases hLoose
  | _ => cases hPlace

/-- Nor does the look for a function or a call of `async`. -/
theorem noAsync (h : Formed (.expression free) n) (hFaithful : n.faithful noIn = true) :
    NoAsync n.words := .of_calm (h.calm hFaithful)

end Formed

/-- The words of an expression are read back as the expression by the rules of every level that they
cannot exhaust. What may follow is what ends an expression; the word `in` does not end an arrow. -/
structure Rereads (n : Node) : Prop where
  item : Formed (.expression false) n → ∀ noIn m, n.faithful (noIn && !n.isSequence) = true →
    weightOf (n.itemWords n.words) < m → Reads ((level m).assignment noIn) (n.itemWords n.words) n
      (EndsExpression (noIn && (n.isSequence || !n.trails)))
  whole : Formed (.expression false) n → ∀ noIn m, n.faithful noIn = true → weightOf n.words < m →
    Reads ((level m).expression noIn) n.words n (EndsSequence (noIn && !n.trails))
  operand : n.faithful false = true → n.isUpdate = false →
    ∀ m, weightOf (n.operandWords n.words) ≤ m → ReadsOperand (level m) (n.operandWords n.words) n
  callee : n.faithful false = true → n.constructs = true →
    ∀ m, weightOf (n.operandWords n.words) ≤ m → ReadsCallee (level m) (n.operandWords n.words) n
  unary : Formed (.expression false) n → n.faithful false = true →
    ∀ m, weightOf (n.operandWords n.words) ≤ m →
      Reads (level m).unaryRule (n.operandWords n.words) n EndsUnary

/-- The words of an element of a list, which may be spread. -/
def RereadsArgument (n : Node) : Prop :=
  n.faithful false = true → ∀ m, weightOf (n.itemWords n.words) < m →
    Reads (spreadable ((level m).assignment false)) (n.itemWords n.words) n (EndsExpression false) ∧
      (n.itemWords n.words).head?.any startsArgument = true

/-- The words of an element of an array. -/
def RereadsElement (n : Node) : Prop :=
  n.faithful false = true → ∀ m, weightOf (n.itemWords n.words) < m →
    ReadsElement (level m) (n.itemWords n.words) n

/-- The words of a block are read back, whatever follows them. -/
def RereadsBlock (n : Node) : Prop :=
  ∀ noIn, n.faithful noIn = true → ∀ m, weightOf n.words ≤ m →
    Reads ((level m).block noIn) n.words n fun _ => True

def RereadsParameter (n : Node) : Prop :=
  n.faithful false = true → ∀ m, weightOf (n.itemWords n.words) < m →
    ReadsItem (level m).parameter .closeParen (n.itemWords n.words) n

def RereadsProperty (n : Node) : Prop :=
  n.faithful false = true → ∀ m, weightOf n.words < m →
    ReadsItem (level m).property .closeBrace n.words n

def RereadsMethod (n : Node) : Prop :=
  n.faithful false = true → ∀ m, weightOf n.words ≤ m →
    Reads (level m).method n.words n (fun _ => True) ∧ n.words.head?.any startsKey = true

namespace Rereads

section Kinds

variable {free : Bool} {n : Node}

/-- A rule of the next level reads what the rule of this level reads. -/
theorem of_assignmentRule {noIn : Bool} {ws : List Lexeme} {G : Option Lexeme → Prop}
    (h : ∀ m, weightOf ws ≤ m → Reads ((level m).assignmentRule noIn) ws n G) {m : Nat}
    (hm : weightOf ws < m) : Reads ((level m).assignment noIn) ws n G := by
  cases m with
  | zero => exact absurd hm (Nat.not_lt_zero _)
  | succ m => exact h m (Nat.le_of_lt_succ hm)

/-- An expression in parentheses. -/
theorem reads_wrapped {noIn : Bool} (hNested : Nested n.words)
    (h : ∀ m, weightOf n.words < m →
      Reads ((level m).expression false) n.words n (EndsSequence false)) {m : Nat}
    (hm : weightOf (wrapped n.words) < m) :
    Reads ((level m).assignment noIn) (wrapped n.words) n (EndsExpression noIn) := by
  refine of_assignmentRule (fun m hm => Grammar.reads_wrapped hNested (h m ?_)) hm
  rw [weightOf_wrapped] at hm
  omega

/-- An operation is an operand in parentheses. -/
theorem of_operation (hOperation : n.isOperation = true)
    (hItem : ∀ noIn m, n.faithful (noIn && !n.isSequence) = true →
      weightOf (n.itemWords n.words) < m → Reads ((level m).assignment noIn)
        (n.itemWords n.words) n (EndsExpression (noIn && (n.isSequence || !n.trails))))
    (hWhole : ∀ noIn m, n.faithful noIn = true → weightOf n.words < m →
      Reads ((level m).expression noIn) n.words n (EndsSequence (noIn && !n.trails))) :
    Rereads n := by
  have hWords := operandWords_of hOperation
  have hOperand : n.faithful false = true → ∀ m, weightOf (n.operandWords n.words) ≤ m →
      Reads (expressionOf ((level m).assignment false)) n.words n (EndsSequence false) := by
    intro hFaithful m hm
    rw [hWords, weightOf_wrapped] at hm
    exact hWhole false m hFaithful (by omega)
  refine ⟨fun _ => hItem, fun _ => hWhole, fun hFaithful _ m hm => ?_, fun hFaithful _ m hm => ?_,
    fun _ hFaithful m hm => ?_⟩
  · have hReads := hOperand hFaithful m hm
    rw [hWords]
    exact .parenthesised hReads
  · have hReads := hOperand hFaithful m hm
    rw [hWords]
    exact ReadsGrown.primary (reads_parenthesised hReads) fun _ => rfl
  · have hReads := hOperand hFaithful m hm
    rw [hWords]
    exact reads_unaryRule (ReadsOperand.parenthesised hReads).reads_callRule rfl

/-- An operation, unless it is a sequence, is one item. -/
theorem of_item (hOperation : n.isOperation = true) (hSequence : n.isSequence = false)
    (h : ∀ noIn m, n.faithful noIn = true → weightOf n.words ≤ m →
      Reads ((level m).assignmentRule noIn) n.words n (EndsExpression (noIn && !n.trails))) :
    Rereads n := by
  have hItem : ∀ noIn m, n.faithful noIn = true → weightOf n.words < m →
      Reads ((level m).assignment noIn) n.words n (EndsExpression (noIn && !n.trails)) :=
    fun noIn m hFaithful hm => of_assignmentRule (fun m hm => h noIn m hFaithful hm) hm
  refine of_operation hOperation (fun noIn m hFaithful hm => ?_) fun noIn m hFaithful hm =>
    reads_single (hItem noIn m hFaithful hm)
  rw [itemWords_of_not hSequence] at hm ⊢
  rw [hSequence, Bool.not_false, Bool.and_true] at hFaithful
  rw [hSequence, Bool.false_or]
  exact hItem noIn m hFaithful hm

/-- What the rule for choices reads is one item. -/
theorem of_choice (hFormed : Formed (.expression false) n) (hOperation : n.isOperation = true)
    (hLoose : n.isLoose = false)
    (h : ∀ noIn m, n.faithful noIn = true → weightOf n.words ≤ m →
      Reads ((level m).conditional noIn) n.words n (EndsExpression (noIn && !n.trails))) :
    Rereads n := by
  refine of_item hOperation (isSequence_of_not_loose hLoose) fun noIn m hFaithful hm => ?_
  exact reads_unassigned (hFormed.noArrow hFaithful hLoose) (hFormed.noAsync hFaithful)
    (hFormed.startsExpression hFaithful) (fun _ hNext => hNext.of_and) (h noIn m hFaithful hm)

/-- What is no operation is read by the rule for operators in front and behind. -/
theorem of_unary (hOperation : n.isOperation = false)
    (hOperand : n.faithful false = true → n.isUpdate = false →
      ∀ m, weightOf n.words ≤ m → ReadsOperand (level m) n.words n)
    (hCallee : n.faithful false = true → n.constructs = true →
      ∀ m, weightOf n.words ≤ m → ReadsCallee (level m) n.words n)
    (hUnary : Formed (.expression false) n → n.faithful false = true →
      ∀ m, weightOf n.words ≤ m → Reads (level m).unaryRule n.words n EndsUnary) : Rereads n := by
  have hSequence := isSequence_of_not_operation hOperation
  have hItem : Formed (.expression false) n → ∀ noIn m, n.faithful noIn = true →
      weightOf n.words < m → Reads ((level m).assignment noIn) n.words n (EndsExpression noIn) := by
    intro hFormed noIn m hFaithful hm
    refine of_assignmentRule (fun m hm => ?_) hm
    have hFaithful' : n.faithful false = true := hFormed.faithful_eq hOperation noIn ▸ hFaithful
    exact reads_unassigned (hFormed.noArrow hFaithful (isLoose_of_not_operation hOperation))
      (hFormed.noAsync hFaithful) (hFormed.startsExpression hFaithful) (fun _ h => h)
      ((reads_conditional (reads_binaryRule (hUnary hFormed hFaithful' m hm))).mono
        fun _ h => h.choice)
  refine ⟨fun hFormed noIn m hFaithful hm => ?_, fun hFormed noIn m hFaithful hm => ?_, ?_, ?_, ?_⟩
  · rw [itemWords_of_not hSequence] at hm ⊢
    rw [hSequence, Bool.not_false, Bool.and_true] at hFaithful
    rw [hSequence, hFormed.trails_eq hOperation, Bool.not_false, Bool.or_true, Bool.and_true]
    exact hItem hFormed noIn m hFaithful hm
  · rw [hFormed.trails_eq hOperation, Bool.not_false, Bool.and_true]
    exact reads_single (hItem hFormed noIn m hFaithful hm)
  · rw [operandWords_of_not hOperation]
    exact hOperand
  · rw [operandWords_of_not hOperation]
    exact hCallee
  · rw [operandWords_of_not hOperation]
    exact hUnary

/-- An operand without operators, in whatever loop over what may go on with it. -/
theorem of_operand (hOperation : n.isOperation = false) (hUpdate : n.isUpdate = false)
    (hOperand : n.faithful false = true →
      ∀ m, weightOf n.words ≤ m → ReadsOperand (level m) n.words n)
    (hCallee : n.faithful false = true → n.constructs = true →
      ∀ m, weightOf n.words ≤ m → ReadsCallee (level m) n.words n) : Rereads n :=
  of_unary hOperation (fun hFaithful _ => hOperand hFaithful) hCallee
    fun hFormed hFaithful m hm => reads_unaryRule (hOperand hFaithful m hm).reads_callRule
      (hFormed.startsOperand hFaithful hOperation hUpdate)

/-- What the rule for operands reads by itself. -/
theorem of_start (hOperation : n.isOperation = false) (hUpdate : n.isUpdate = false)
    (h : n.faithful false = true → ∀ m, weightOf n.words ≤ m →
      Reads (level m).constructOrPrimary n.words n fun _ => True) : Rereads n :=
  of_operand hOperation hUpdate (fun hFaithful m hm => .start (h hFaithful m hm))
    fun hFaithful _ m hm => .start (h hFaithful m hm)

/-- What is read back as an operand without anything after it is read back in every place. -/
theorem of_primary (hOperation : n.isOperation = false) (hUpdate : n.isUpdate = false)
    (hNew : ∀ next : Option Lexeme, (n.words.head?.or next).any (isName "new") = false)
    (h : n.faithful false = true →
      ∀ m, weightOf n.words ≤ m → Reads (level m).primary n.words n fun _ => True) : Rereads n :=
  of_start hOperation hUpdate fun hFaithful m hm =>
    .bind (u := []) reads_eatName_not (h hFaithful m hm) fun next _ => hNew next

/-- An operand with parentheses of its own, or as other operands. -/
theorem fenced (h : Rereads n) (hFormed : Formed (.expression free) n)
    (hFaithful : n.faithful false = true) {fence : Bool} (hFence : fence = true → n.needsFence = true)
    {m : Nat} {step : Node → Parser (Option Node)}
    (hStep : weightOf (n.operandWords n.words) ≤ m →
      ReadsGrown (level m) step (n.operandWords n.words) n)
    (hm : weightOf (if fence then wrapped n.words else n.operandWords n.words) ≤ m) :
    ReadsGrown (level m) step (if fence then wrapped n.words else n.operandWords n.words) n := by
  cases fence with
  | true =>
      rw [if_pos rfl, weightOf_wrapped] at hm
      have hWhole := h.whole (hFormed.bound (.inr (hFence rfl))) false m hFaithful (by omega)
      exact .primary (reads_parenthesised hWhole) fun _ => rfl
  | false => exact hStep hm

end Kinds

section Operands

variable {free : Bool} {callee owner key : Node} {arguments members params : List Node}
variable {id superclass : Option Node} {body : Node} {text raw : String}

theorem ident (h : keywords.contains text = false) : Rereads (.ident text) := by
  refine of_primary rfl rfl (fun _ => beq_eq_false_iff_ne.2 ?_) fun _ m _ => reads_wordOperand h
  rintro rfl
  exact absurd h (by decide)

theorem this : Rereads .this :=
  of_primary rfl rfl (fun _ => rfl) fun _ _ _ => .peek_word rfl reads_taken

/-- A numeral is one word, so it is read back whatever it says. -/
theorem number {value : Number} : Rereads (.literal ⟨.number value, raw⟩) :=
  of_primary rfl rfl (fun _ => rfl) fun _ _ _ => .peek_word rfl reads_taken

theorem string : Rereads (.literal ⟨.string text, raw⟩) :=
  of_primary rfl rfl (fun _ => rfl) fun _ _ _ => .peek_word rfl reads_taken

theorem bool (b : Bool) : Rereads (.literal ⟨.bool b, if b then "true" else "false"⟩) := by
  refine of_primary rfl rfl ?_ fun _ _ _ => ?_
  · cases b <;> exact fun _ => rfl
  · cases b <;> exact .peek_word rfl reads_taken

theorem null : Rereads (.literal ⟨.null, "null"⟩) :=
  of_primary rfl rfl (fun _ => rfl) fun _ _ _ => .peek_word rfl reads_taken

/-- A template is read back if the expressions in it are. -/
theorem template {quasis : List String} {expressions : List Node}
    (hFormed : ∀ n ∈ expressions, Formed (.expression false) n) (h : ∀ n ∈ expressions, Rereads n) :
    Rereads (.template quasis expressions) := by
  refine of_primary rfl rfl (fun _ => rfl) fun hFaithful m hm => ?_
  rw [faithful_template, faithfulAll_eq_true] at hFaithful
  have hWords : (Node.template quasis expressions).words =
      [.template quasis ((expressions.map Node.words).map partOf)] := by
    rw [← wordsAll_eq_map]
    rfl
  rw [hWords] at hm ⊢
  refine reads_template ?_
  rw [List.forall₂_map_left_iff]
  refine List.forall₂_same.2 fun n hn => ?_
  have hWeight := weightOf_lt_template quasis (List.mem_map_of_mem (f := Node.words) hn)
  rw [weightOf_cons, weightOf_nil] at hm
  exact (h n hn).whole (hFormed n hn) false m (hFaithful n hn) (by omega)

/-- An array is read back if its elements are. -/
theorem array {elements : List Node} (h : ∀ n ∈ elements, RereadsElement n) :
    Rereads (.array elements) := by
  refine of_primary rfl rfl (fun _ => rfl) fun hFaithful m hm => ?_
  rw [faithful_array, faithfulAll_eq_true] at hFaithful
  rw [words_array, weightOf_bracketed, weightOf_append] at hm
  rw [words_array]
  refine .peek_word rfl (reads_array ?_)
  rw [List.forall₂_map_left_iff]
  refine List.forall₂_same.2 fun n hn => ?_
  have hWeight := weightOf_le_commas (List.mem_map_of_mem (f := fun n => n.itemWords n.words) hn)
  exact h n hn (hFaithful n hn) m (by omega)

/-- Arguments are read back at a level above what their words weigh. -/
theorem reads_arguments {m : Nat} (h : ∀ n ∈ arguments, RereadsArgument n)
    (hFaithful : faithfulAll false arguments = true)
    (hm : weightOf (wrapped (commas (arguments.map fun n => n.itemWords n.words))) ≤ m) :
    Reads (level m).arguments (wrapped (commas (arguments.map fun n => n.itemWords n.words)))
      arguments fun _ => True := by
  rw [faithfulAll_eq_true] at hFaithful
  rw [weightOf_wrapped] at hm
  refine Grammar.reads_arguments ?_
  rw [List.forall₂_map_left_iff]
  refine List.forall₂_same.2 fun n hn => ?_
  have hWeight := weightOf_le_commas (List.mem_map_of_mem (f := fun n => n.itemWords n.words) hn)
  obtain ⟨hReads, hStarts⟩ := h n hn (hFaithful n hn) m (by omega)
  exact .of_starts hReads rfl rfl rfl hStarts

/-- A call is read back if what is called and the arguments are. -/
theorem call (hFormed : Formed (.expression free) callee) (hCallee : Rereads callee)
    (hArguments : ∀ n ∈ arguments, RereadsArgument n) : Rereads (.call callee arguments) := by
  refine of_operand rfl rfl (fun hFaithful m hm => ?_) fun _ => nofun
  simp only [faithful_call, Bool.and_eq_true, Bool.not_eq_true'] at hFaithful
  obtain ⟨⟨⟨hUpdate, -⟩, hCalleeFaithful⟩, hArgumentsFaithful⟩ := hFaithful
  rw [words_call, weightOf_append] at hm
  rw [words_call]
  refine ReadsOperand.call (hCallee.fenced hFormed hCalleeFaithful needsFence_of_isFunction
    (fun hm => hCallee.operand hCalleeFaithful hUpdate m hm) (by omega)) ?_
  exact reads_arguments hArguments hArgumentsFaithful (by omega)

/-- A construction is read back if what is constructed and the arguments are. -/
theorem construct (hCallee : Rereads callee) (hArguments : ∀ n ∈ arguments, RereadsArgument n) :
    Rereads (.construct callee arguments) := by
  refine of_start rfl rfl fun hFaithful m hm => ?_
  simp only [faithful_construct, Bool.and_eq_true] at hFaithful
  obtain ⟨⟨hConstructs, hCalleeFaithful⟩, hArgumentsFaithful⟩ := hFaithful
  have hWords : (Node.construct callee arguments).words =
      .name "new" :: callee.operandWords callee.words ++
        wrapped (commas (arguments.map fun n => n.itemWords n.words)) := by
    rw [← listWords_eq]
    rfl
  have hWeight := Lexeme.weight_pos (.name "new")
  rw [hWords, weightOf_append, weightOf_cons] at hm
  rw [hWords]
  refine ReadsCallee.reads_construct ?_ (reads_arguments hArguments hArgumentsFaithful (by omega))
  cases m with
  | zero => omega
  | succ m =>
      exact (hCallee.callee hCalleeFaithful hConstructs m (by omega)).reads_constructedRule

/-- A member access is read back if the object is. -/
theorem member (hFormed : Formed (.expression free) owner) (hOwner : Rereads owner) :
    Rereads (.member owner (.ident text) false) := by
  have hWords : (Node.member owner (.ident text) false).words =
      (if owner.needsFence then wrapped owner.words else owner.operandWords owner.words) ++
        [.punct .dot, .name text] := rfl
  refine of_operand rfl rfl (fun hFaithful m hm => ?_) fun hFaithful hConstructs m hm => ?_
  all_goals
    simp only [faithful_member, Bool.and_eq_true, Bool.not_eq_true'] at hFaithful
    obtain ⟨⟨hUpdate, hOwnerFaithful⟩, -⟩ := hFaithful
    rw [hWords, weightOf_append] at hm
    rw [hWords]
  · exact ReadsOperand.access (hOwner.fenced hFormed hOwnerFaithful (fun h => h)
      (fun hm => hOwner.operand hOwnerFaithful hUpdate m hm) (by omega)) (.inl rfl) reads_memberName
  · exact ReadsCallee.access (hOwner.fenced hFormed hOwnerFaithful (fun h => h)
      (fun hm => hOwner.callee hOwnerFaithful hConstructs m hm) (by omega)) (.inl rfl)
      reads_memberName

/-- A member access by a key is read back if the object and the key are. -/
theorem computedMember (hFormed : Formed (.expression false) key) (hOwner : Rereads owner)
    (hKey : Rereads key) : Rereads (.member owner key true) := by
  have hWords : (Node.member owner key true).words = owner.operandWords owner.words ++
      bracketed .openBracket .closeBracket key.words := rfl
  have hAccess : ∀ m, key.faithful false = true → weightOf key.words < m →
      Reads ((level m).memberAccess owner) (bracketed .openBracket .closeBracket key.words)
        (.member owner key true) fun _ => True := fun m hFaithful hm =>
    reads_memberKey (hKey.whole hFormed false m hFaithful hm)
  refine of_operand rfl rfl (fun hFaithful m hm => ?_) fun hFaithful hConstructs m hm => ?_
  all_goals
    simp only [faithful_member, Bool.and_eq_true, Bool.not_eq_true'] at hFaithful
    obtain ⟨⟨hUpdate, hOwnerFaithful⟩, hKeyFaithful⟩ := hFaithful
    rw [hWords, weightOf_append, weightOf_bracketed] at hm
    rw [hWords]
  · exact ReadsOperand.access (hOwner.operand hOwnerFaithful hUpdate m (by omega)) (.inr rfl)
      (hAccess m hKeyFaithful (by omega))
  · exact ReadsCallee.access (hOwner.callee hOwnerFaithful hConstructs m (by omega)) (.inr rfl)
      (hAccess m hKeyFaithful (by omega))

end Operands

section Operations

variable {free noIn : Bool} {n left right test consequent alternate argument : Node}

/-- An operand is read back where a unary rule is asked for it, in parentheses if it is an
operation. -/
theorem reads_unary (h : Rereads n) (hFormed : Formed (.expression false) n)
    (hFaithful : n.faithful false = true) {m : Nat} (hm : weightOf (n.operandWords n.words) < m) :
    Reads (level m).unary (n.operandWords n.words) n EndsUnary := by
  cases m with
  | zero => exact absurd hm (Nat.not_lt_zero _)
  | succ m => exact h.unary hFormed hFaithful m (Nat.le_of_lt_succ hm)

/-- The operand after an operator, where no further operator follows. -/
theorem reads_right (h : Rereads n) (hFormed : Formed (.expression false) n)
    (hFaithful : n.faithful false = true) {m power : Nat}
    (hm : weightOf (n.operandWords n.words) < m) (hPower : 1 ≤ power) :
    Reads ((level m).binary noIn power) (n.operandWords n.words) n (EndsBinary noIn 1) := by
  cases m with
  | zero => exact absurd hm (Nat.not_lt_zero _)
  | succ m =>
      have hUnary := h.unary hFormed hFaithful m (Nat.le_of_lt_succ hm)
      refine Reads.mono (reads_binaryRule hUnary) fun next hNext => ?_
      exact ⟨hNext.unary, fun o ho => Nat.lt_of_lt_of_le (hNext.operator o ho) hPower⟩

/-- An expression that is no sequence, as one item. -/
theorem reads_assignment (h : Rereads n) (hFormed : Formed (.expression false) n)
    (hSequence : n.isSequence = false) (hFaithful : n.faithful noIn = true) {m : Nat}
    (hm : weightOf n.words < m) :
    Reads ((level m).assignment noIn) n.words n (EndsExpression (noIn && !n.trails)) := by
  have hItem := h.item hFormed noIn m
  rw [itemWords_of_not hSequence, hSequence, Bool.not_false, Bool.and_true, Bool.false_or] at hItem
  exact hItem hFaithful hm

/-- A target of an update. -/
theorem update {op : UpdateOp} {before : Bool} (hTarget : isTarget argument = true)
    (hFormed : Formed (.expression false) argument) (h : Rereads argument) :
    Rereads (.update op before argument) := by
  have hUpdate : argument.isUpdate = false := by
    cases argument <;> first | rfl | cases hTarget
  refine of_unary rfl (fun _ => nofun) (fun _ => nofun) fun _ hFaithful m hm => ?_
  have hArgument : argument.faithful false = true := hFaithful
  cases before with
  | true =>
      have hWords : (Node.update op true argument).words =
          .punct (.update op) :: argument.operandWords argument.words := rfl
      have hWeight := Lexeme.weight_pos (.punct (.update op))
      rw [hWords, weightOf_cons] at hm
      rw [hWords]
      exact reads_updateBefore hTarget (h.reads_unary hFormed hArgument (by omega))
  | false =>
      have hWords : (Node.update op false argument).words =
          argument.operandWords argument.words ++ [Lexeme.punct (.update op)] := rfl
      rw [hWords, weightOf_append] at hm
      rw [hWords]
      refine reads_updateAfter hTarget (h.operand hArgument hUpdate m (by omega)).reads_callRule ?_
      exact head?_fenced false rfl fun hOperation =>
        hFormed.startsOperand hArgument hOperation hUpdate

/-- An operator of any power between two operands. -/
theorem between {w : Lexeme} {p : Nat} {make : Node → Node → Node} (hLeft : Rereads left)
    (hRight : Rereads right) (hLeftFormed : Formed (.expression false) left)
    (hRightFormed : Formed (.expression false) right) (hLeftFaithful : left.faithful false = true)
    (hRightFaithful : right.faithful false = true) (hw : w.isTemplate = false)
    (hOperator : operator? noIn w = some (p, make)) (hPower : 1 ≤ p) (hEnds : EndsUnary (some w))
    {m : Nat}
    (hm : weightOf (left.operandWords left.words ++ w :: right.operandWords right.words) ≤ m) :
    Reads ((level m).conditional noIn)
      (left.operandWords left.words ++ w :: right.operandWords right.words) (make left right)
      (EndsChoice noIn) := by
  have hWeight := w.weight_pos
  rw [weightOf_append, weightOf_cons] at hm
  refine (reads_conditional (reads_operator hw hOperator hPower hEnds
    (hLeft.unary hLeftFormed hLeftFaithful m (by omega))
    (hRight.reads_right hRightFormed hRightFaithful (by omega) ?_)))
  split <;> omega

/-- A binary operation is read back if its operands are: fenced, they do not mix with the
operator. -/
theorem binary {op : BinaryOp} (hLeftFormed : Formed (.expression false) left)
    (hRightFormed : Formed (.expression false) right) (hLeft : Rereads left) (hRight : Rereads right) :
    Rereads (.binary op left right) := by
  refine of_choice (.binary hLeftFormed hRightFormed) rfl rfl fun noIn m hFaithful hm => ?_
  simp only [faithful_binary, Bool.and_eq_true] at hFaithful
  have hOp : op.word.isTemplate = false ∧ 1 ≤ binaryPower op ∧ EndsUnary (some op.word) := by
    cases op <;> exact ⟨rfl, by decide, rfl, rfl⟩
  have hOperator : operator? noIn op.word = some (binaryPower op, .binary op) := by
    have hIn := hFaithful.1.1
    cases op with
    | isIn => cases noIn <;> first | rfl | cases hIn
    | _ => rfl
  exact (hLeft.between hRight hLeftFormed hRightFormed hFaithful.1.2 hFaithful.2 hOp.1 hOperator
    hOp.2.1 hOp.2.2 hm).mono fun _ h => h.of_and.choice

/-- A logical operation is read back if its operands are, as a binary one is. -/
theorem logical {op : LogicalOp} (hLeftFormed : Formed (.expression false) left)
    (hRightFormed : Formed (.expression false) right) (hLeft : Rereads left) (hRight : Rereads right) :
    Rereads (.logical op left right) := by
  refine of_choice (.logical hLeftFormed hRightFormed) rfl rfl fun noIn m hFaithful hm => ?_
  simp only [faithful_logical, Bool.and_eq_true] at hFaithful
  have hPower : 1 ≤ logicalPower op := by cases op <;> decide
  exact (hLeft.between (w := .punct (.logical op)) hRight hLeftFormed hRightFormed hFaithful.1
    hFaithful.2 rfl rfl hPower ⟨rfl, rfl⟩ hm).mono fun _ h => h.of_and.choice

/-- A unary operation is read back if its operand is. -/
theorem unaryOperation {op : UnaryOp} (hFormed : Formed (.expression false) argument)
    (h : Rereads argument) : Rereads (.unary op argument) := by
  refine of_choice (.unary hFormed) rfl rfl fun noIn m hFaithful hm => ?_
  have hArgument : argument.faithful false = true := hFaithful
  have hWeight := op.word.weight_pos
  rw [words_unary, weightOf_cons] at hm
  rw [words_unary]
  have hReads : Reads (level m).unary
      (if !op.isWord && argument.isUpdate then wrapped argument.words
        else argument.operandWords argument.words) argument EndsUnary := by
    cases hFence : !op.isWord && argument.isUpdate with
    | true =>
        rw [hFence, if_pos rfl, weightOf_wrapped] at hm
        cases m with
        | zero => omega
        | succ m =>
            have hWhole := h.whole hFormed false m hArgument (by omega)
            exact reads_unaryRule (ReadsOperand.parenthesised hWhole).reads_callRule rfl
    | false =>
        rw [hFence, if_neg Bool.false_ne_true] at hm
        exact h.reads_unary hFormed hArgument (by omega)
  exact (reads_conditional (reads_binaryRule (Grammar.reads_unary hReads))).mono
    fun _ h => h.of_and.choice

/-- A conditional is read back if its parts are. -/
theorem conditional (hTestFormed : Formed (.expression false) test)
    (hConsequentFormed : Formed (.expression false) consequent)
    (hAlternateFormed : Formed (.expression false) alternate) (hTest : Rereads test)
    (hConsequent : Rereads consequent) (hAlternate : Rereads alternate) :
    Rereads (.conditional test consequent alternate) := by
  refine of_choice (.conditional hTestFormed hConsequentFormed hAlternateFormed) rfl rfl
    fun noIn m hFaithful hm => ?_
  simp only [faithful_conditional, Bool.and_eq_true] at hFaithful
  simp only [words_conditional, weightOf_append, weightOf_cons, weight] at hm ⊢
  have hTrails : (!(Node.conditional test consequent alternate).trails) =
      (alternate.isSequence || !alternate.trails) := by
    rw [trails_conditional, Bool.not_and, Bool.not_not]
  rw [hTrails]
  exact reads_choice (reads_binaryRule (hTest.unary hTestFormed hFaithful.1.1 m (by omega)))
    (hConsequent.item hConsequentFormed false m hFaithful.1.2 (by omega))
    (hAlternate.item hAlternateFormed noIn m hFaithful.2 (by omega))

/-- An assignment is read back if its sides are. The right one is no sequence by faithfulness. -/
theorem assign {op : AssignOp} (hTarget : isTarget left = true)
    (hLeftFormed : Formed (.expression false) left) (hRightFormed : Formed (.expression false) right)
    (hLeft : Rereads left) (hRight : Rereads right) : Rereads (.assign op left right) := by
  have hOperation := isOperation_of_isTarget hTarget
  have hFormed : Formed (.expression false) (.assign op left right) :=
    .assign hTarget hLeftFormed hRightFormed
  refine of_item rfl rfl fun noIn m hFaithful hm => ?_
  have hAsync := hFormed.noAsync hFaithful
  simp only [faithful_assign, Bool.and_eq_true, Bool.not_eq_true'] at hFaithful
  obtain ⟨⟨hLeftFaithful, hSequence⟩, hRightFaithful⟩ := hFaithful
  have hWords : (Node.assign op left right).words =
      left.words ++ .punct (.assign op) :: right.words := rfl
  have hWeight := Lexeme.weight_pos (.punct (.assign op))
  have hUnary := hLeft.unary hLeftFormed hLeftFaithful m
  rw [operandWords_of_not hOperation] at hUnary
  rw [hWords, weightOf_append, weightOf_cons] at hm
  exact reads_assign (hLeftFormed.noArrow hLeftFaithful (isLoose_of_not_operation hOperation))
    hAsync (hLeftFormed.startsExpression hLeftFaithful) hTarget
    (reads_conditional (reads_binaryRule (hUnary (by omega))))
    (hRight.reads_assignment hRightFormed hSequence hRightFaithful (by omega))
    fun _ h => h.notAhead

/-- A sequence of two items or more is read back if the items are. -/
theorem sequence {items : List Node} (hLength : 2 ≤ items.length)
    (hItems : ∀ n ∈ items, Formed (.expression false) n) (h : ∀ n ∈ items, Rereads n) :
    Rereads (.sequence items) := by
  have hWhole : ∀ noIn m, (Node.sequence items).faithful noIn = true →
      weightOf (Node.sequence items).words < m →
      Reads ((level m).expression noIn) (Node.sequence items).words (.sequence items)
        (EndsSequence (noIn && !(Node.sequence items).trails)) := by
    intro noIn m hFaithful hm
    simp only [faithful_sequence, Bool.and_eq_true, List.all_eq_true, Bool.not_eq_true',
      faithfulAll_eq_true] at hFaithful
    rw [words_sequence] at hm ⊢
    refine reads_sequence hLength fun n hn => ?_
    have hWeight := weightOf_le_commas (List.mem_map_of_mem (f := Node.words) hn)
    exact (h n hn).reads_assignment (hItems n hn) (hFaithful.1 n hn) (hFaithful.2 n hn) (by omega)
  have hFormed : Formed (.expression false) (.sequence items) := .sequence hLength hItems
  refine of_operation rfl (fun noIn m hFaithful hm => ?_) hWhole
  rw [itemWords_of rfl] at hm ⊢
  refine (reads_wrapped hFormed.nested (fun m hm => hWhole false m ?_ hm) hm).mono fun _ h => h.of_and
  simpa [isSequence] using hFaithful

end Operations

section Functions

variable {id superclass : Option Node} {params members : List Node} {body : Node}

/-- Names that are declared, or none. -/
theorem exists_names (h : ∀ n ∈ id, Formed .binding n) :
    ∃ names : Option String, id = names.map .ident ∧
      (∀ name ∈ names, keywords.contains name = false) ∧
      id.elim [] Node.words = names.toList.map Lexeme.name := by
  cases id with
  | none => exact ⟨none, rfl, nofun, rfl⟩
  | some n =>
      cases h n rfl with
      | binding hName =>
          refine ⟨some _, rfl, fun name hMem => ?_, rfl⟩
          cases hMem
          exact hName.notKeyword

/-- Parameters are read back at a level above what their words weigh. -/
theorem reads_parameters {m : Nat} (h : ∀ n ∈ params, RereadsParameter n)
    (hFaithful : faithfulAll false params = true)
    (hm : weightOf (wrapped (listWords params (wordsAll params))) ≤ m) :
    Reads (level m).parameters (wrapped (listWords params (wordsAll params))) params
      fun _ => True := by
  rw [faithfulAll_eq_true] at hFaithful
  rw [weightOf_wrapped, listWords_eq] at hm
  refine Grammar.reads_parameters fun n hn => h n hn (hFaithful n hn) m ?_
  have hWeight := weightOf_le_commas (List.mem_map_of_mem (f := fun n => n.itemWords n.words) hn)
  omega

/-- A function with its keyword. -/
theorem reads_function {form : FunctionForm} (hArrow : form ≠ .arrow)
    (hForm : form = .declaration → id.isSome) (hId : ∀ n ∈ id, Formed .binding n)
    (hParams : ∀ n ∈ params, RereadsParameter n) (hBody : RereadsBlock body)
    (hFaithful : (Node.function form id params body).faithful false = true) {m : Nat}
    (hm : weightOf (Node.function form id params body).words ≤ m) :
    Reads ((level m).function form) (Node.function form id params body).words
      (.function form id params body) fun _ => True := by
  obtain ⟨names, rfl, hNames, hWords⟩ := exists_names hId
  simp only [faithful_function, Bool.and_eq_true] at hFaithful
  rw [words_function hArrow, hWords] at hm ⊢
  simp only [List.cons_append, List.append_assoc, weightOf_cons, weightOf_append] at hm ⊢
  refine Grammar.reads_function hNames (fun h => by simpa using hForm h)
    (reads_parameters hParams hFaithful.1.1 (by omega)) (hBody false ?_ m (by omega))
  simpa [hArrow] using hFaithful.2

/-- A function expression is read back if its parameters and its body are. -/
theorem function (hId : ∀ n ∈ id, Formed .binding n) (hParams : ∀ n ∈ params, RereadsParameter n)
    (hBody : RereadsBlock body) : Rereads (.function .expression id params body) := by
  have hArrow : FunctionForm.expression ≠ .arrow := by decide
  refine of_primary rfl rfl (fun _ => ?_) fun hFaithful m hm => ?_
  · rw [words_function hArrow]
    rfl
  · have hReads := reads_function hArrow nofun hId hParams hBody hFaithful hm
    rw [words_function hArrow] at hReads ⊢
    exact .peek_word rfl hReads

/-- A class with its keyword. -/
theorem reads_classDef {expression : Bool} (hNamed : expression = false → id.isSome)
    (hId : ∀ n ∈ id, Formed .binding n) (hSuperclass : ∀ n ∈ superclass, Rereads n)
    (hMembers : ∀ n ∈ members, RereadsMethod n) {noIn : Bool}
    (hFaithful : (Node.classDef id superclass members expression).faithful noIn = true) {m : Nat}
    (hm : weightOf (Node.classDef id superclass members expression).words ≤ m) :
    Reads ((level m).classDef expression) (Node.classDef id superclass members expression).words
      (.classDef id superclass members expression) fun _ => True := by
  obtain ⟨names, rfl, hNames, hWords⟩ := exists_names hId
  simp only [faithful_classDef, Bool.and_eq_true, Option.all_eq_true, faithfulAll_eq_true,
    Bool.not_eq_true'] at hFaithful
  obtain ⟨hSuperFaithful, hMembersFaithful⟩ := hFaithful
  rw [words_classDef, hWords, wordsAll_eq_map] at hm ⊢
  simp only [List.cons_append, List.append_assoc, weightOf_cons, weightOf_append,
    weightOf_bracketed] at hm ⊢
  have hMethod : ∀ n ∈ members, Reads (level m).method n.words n (fun _ => True) ∧
      n.words.head?.any startsKey = true := fun n hn => by
    have hWeight := weightOf_le_flatten (List.mem_map_of_mem (f := Node.words) hn)
    exact hMembers n hn (hMembersFaithful n hn) m (by omega)
  refine Grammar.reads_classDef hNames (fun h => by simpa using hNamed h) (fun n hn => ?_)
    (fun n hn => (hMethod n hn).1) fun n hn => (hMethod n hn).2
  cases hn
  have hWeight := Lexeme.weight_pos (.name "extends")
  simp only [Option.elim_some, weightOf_cons] at hm
  cases m with
  | zero => omega
  | succ m =>
      obtain ⟨hUpdate, hFaithful⟩ := hSuperFaithful n rfl
      exact ((hSuperclass n rfl).operand hFaithful hUpdate m (by omega)).reads_callRule

/-- A class expression is read back if its superclass and its members are. -/
theorem classExpression (hId : ∀ n ∈ id, Formed .binding n)
    (hSuperclass : ∀ n ∈ superclass, Rereads n) (hMembers : ∀ n ∈ members, RereadsMethod n) :
    Rereads (.classDef id superclass members true) := by
  refine of_primary rfl rfl (fun _ => ?_) fun hFaithful m hm => ?_
  · rw [words_classDef]
    rfl
  · have hNamed : true = false → id.isSome = true := nofun
    have hReads := reads_classDef hNamed hId hSuperclass hMembers hFaithful hm
    rw [words_classDef] at hReads ⊢
    exact .peek_word rfl hReads

/-- An object is read back if its members are. -/
theorem object (h : ∀ n ∈ members, RereadsProperty n) : Rereads (.object members) := by
  refine of_primary rfl rfl (fun _ => rfl) fun hFaithful m hm => ?_
  rw [faithful_object, faithfulAll_eq_true] at hFaithful
  rw [words_object, weightOf_bracketed] at hm
  rw [words_object]
  refine .peek_word rfl (reads_object ?_)
  rw [List.forall₂_map_left_iff]
  refine List.forall₂_same.2 fun n hn => ?_
  have hWeight := weightOf_le_commas (List.mem_map_of_mem (f := Node.words) hn)
  exact h n hn (hFaithful n hn) m (by omega)

/-- The body of an arrow function: a block, or an expression. -/
def Body (n : Node) : Prop :=
  n.isBlock = true ∧ n.opensBody = false ∧ n.startsBlock = true ∧ RereadsBlock n ∨
    n.isBlock = false ∧ Formed (.expression false) n ∧ Rereads n

/-- An arrow is read back if its parameters and its body are: the search for the arrow finds it
behind the parentheses. -/
theorem arrow (hParamsFormed : ∀ n ∈ params, Formed .parameter n)
    (hParams : ∀ n ∈ params, RereadsParameter n) (hBody : Body body) :
    Rereads (.function .arrow none params body) := by
  refine of_item rfl rfl fun noIn m hFaithful hm => ?_
  have hNested : Nested (listWords params (wordsAll params)) :=
    .listWords fun n hn => (hParamsFormed n hn).nested
  have hWords : (Node.function .arrow none params body).words =
      wrapped (listWords params (wordsAll params)) ++ .punct .arrow ::
        (if body.opensBody then wrapped body.words else body.words) := rfl
  simp only [faithful_function, Bool.and_eq_true] at hFaithful
  obtain ⟨⟨hParamsFaithful, hStarts⟩, hBodyFaithful⟩ := hFaithful
  have hWeight := Lexeme.weight_pos (.punct .arrow)
  rw [hWords, weightOf_append, weightOf_cons] at hm
  rw [hWords]
  have hHead := reads_parameters hParams hParamsFaithful (m := m) (by omega)
  have hForm : (FunctionForm.arrow != FunctionForm.arrow) = false := by decide
  rcases hBody with ⟨hBlock, hOpens, hBrace, hBody⟩ | ⟨hBlock, hFormed, hBody⟩
  · rw [hOpens, if_neg Bool.false_ne_true] at hm ⊢
    have hBodyFaithful : body.faithful noIn = true := by simpa [hBlock] using hBodyFaithful
    refine (reads_arrow (b := true) hNested hHead (fun next => ?_)
      (hBody noIn hBodyFaithful m (by omega))).mono fun _ _ => trivial
    rw [head?_or (ne_nil_of_starts hBrace)]
    exact hBrace
  · have hBodyFaithful : body.faithful false = true := by simpa [hBlock] using hBodyFaithful
    rw [trails_arrow, hBlock, Bool.not_false, Bool.not_true, Bool.and_false]
    cases hOpens : body.opensBody with
    | true =>
        rw [hOpens, if_pos rfl] at hm
        refine reads_arrow (b := false) hNested hHead (fun _ => rfl) ?_
        exact reads_wrapped hFormed.nested
          (fun m hm => hBody.whole hFormed false m hBodyFaithful hm) (by omega)
    | false =>
        rw [hOpens, if_neg Bool.false_ne_true] at hm
        have hSequence : body.isSequence = false := by
          cases body <;> first | rfl | cases hOpens
        have hBrace : body.startsBlock = false := by
          simpa [hBlock, hOpens, hForm] using hStarts
        refine reads_arrow (b := false) hNested hHead (fun next => ?_)
          (hBody.reads_assignment hFormed hSequence hBodyFaithful (by omega))
        rw [if_neg Bool.false_ne_true,
          head?_or (ne_nil_of_starts (hFormed.startsExpression hBodyFaithful))]
        exact hBrace

end Functions

end Rereads

end CodeShape
