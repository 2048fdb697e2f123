import CodeShape.Proofs.Formation
import CodeShape.Proofs.Wording

/-!
What the words of an expression start with. The grammar looks ahead in two ways: at the next two
words, and past a pair of parentheses for an arrow.
-/
namespace CodeShape

namespace Lexeme

def isOpening : Lexeme → Bool
  | .punct .openParen | .punct .openBracket | .punct .openBrace => true
  | _ => false

def isClosing : Lexeme → Bool
  | .punct .closeParen | .punct .closeBracket | .punct .closeBrace => true
  | _ => false

/-- How many brackets are open after the words, unless one is closed that was not open. -/
def nest (depth : Nat) : List Lexeme → Option Nat
  | [] => some depth
  | w :: ws =>
    if w.isOpening then nest (depth + 1) ws
    else if w.isClosing then if depth = 0 then none else nest (depth - 1) ws
    else nest depth ws

/-- The depth of brackets is counted on from one text to the next. -/
theorem nest_append (us vs : List Lexeme) (depth : Nat) :
    nest depth (us ++ vs) = (nest depth us).bind (nest · vs) := by
  induction us generalizing depth with
  | nil => rfl
  | cons w us ih =>
      simp only [List.cons_append, nest, ih]
      split
      · rfl
      · split
        · split <;> rfl
        · rfl

/-- The look past brackets counts them. -/
theorem arrowAfter_of_nest {tokens rest : List Token} {ws : List Lexeme} {depth depth' : Nat}
    (hTokens : tokens.map (·.word.plain) = ws) (h : nest depth ws = some depth') :
    Grammar.arrowAfter (depth + 1) (tokens ++ rest) = Grammar.arrowAfter (depth' + 1) rest := by
  induction tokens generalizing ws depth with
  | nil =>
      subst hTokens
      cases h
      rfl
  | cons t tokens ih =>
      obtain ⟨word, span, flag⟩ := t
      subst hTokens
      rw [List.map_cons, nest] at h
      split at h
      · next hOpening =>
          rw [List.cons_append, ← ih rfl h]
          cases word with
          | punct p => cases p <;> first | rfl | cases hOpening
          | _ => cases hOpening
      · next hOpening =>
          split at h
          · next hClosing =>
              split at h
              · cases h
              · next hDepth =>
                  obtain ⟨depth, rfl⟩ := Nat.exists_eq_succ_of_ne_zero hDepth
                  rw [List.cons_append, ← ih rfl h]
                  cases word with
                  | punct p => cases p <;> first | rfl | cases hClosing
                  | _ => cases hClosing
          · next hClosing =>
              rw [List.cons_append, ← ih rfl h]
              cases word with
              | punct p =>
                  cases p <;> first | rfl | exact absurd rfl hOpening | exact absurd rfl hClosing
              | _ => rfl

end Lexeme

open Lexeme Node CodeShape.Parser

/-- The brackets among the words match each other. -/
def Nested (ws : List Lexeme) : Prop := ∀ depth, nest depth ws = some depth

namespace Nested

variable {us vs : List Lexeme} {wss : List (List Lexeme)}

theorem nil : Nested [] := fun _ => rfl

/-- Texts whose brackets match do so together. -/
theorem append (hu : Nested us) (hv : Nested vs) : Nested (us ++ vs) := by
  intro depth
  rw [nest_append, hu, Option.bind_some, hv]

/-- A word that is no bracket changes no depth. -/
theorem cons {w : Lexeme} (hw : w.isOpening = false) (hw' : w.isClosing = false)
    (hv : Nested vs) : Nested (w :: vs) := by
  intro depth
  rw [nest, hw, hw', if_neg Bool.false_ne_true, if_neg Bool.false_ne_true, hv]

/-- Texts whose brackets match do so one after the other. -/
theorem flatten (h : ∀ ws ∈ wss, Nested ws) : Nested wss.flatten := by
  induction wss with
  | nil => exact nil
  | cons ws wss ih =>
      rw [List.flatten_cons]
      exact (h ws List.mem_cons_self).append (ih fun ws hw => h ws (List.mem_cons_of_mem _ hw))

theorem commas (h : ∀ ws ∈ wss, Nested ws) : Nested (commas wss) := by
  induction wss with
  | nil => exact nil
  | cons ws wss ih =>
      have hRest := ih fun ws hw => h ws (List.mem_cons_of_mem _ hw)
      cases wss with
      | nil => simpa using h ws List.mem_cons_self
      | cons ws' wss =>
          rw [commas_cons_cons]
          exact (h ws List.mem_cons_self).append (cons rfl rfl hRest)

/-- A bracket before and one after, whichever they are, match. -/
theorem bracketed {p q : Punct} (hp : (Lexeme.punct p).isOpening = true)
    (hq : (Lexeme.punct q).isClosing = true) (h : Nested us) : Nested (bracketed p q us) := by
  have hq' : (Lexeme.punct q).isOpening = false := by
    cases q <;> first | rfl | cases hq
  intro depth
  rw [Node.bracketed, List.cons_append, nest, if_pos hp, nest_append, h, Option.bind_some, nest,
    hq', hq]
  rfl

theorem wrapped (h : Nested us) : Nested (wrapped us) := bracketed rfl rfl h

theorem ite {b : Bool} (hu : Nested us) (hv : Nested vs) : Nested (if b then us else vs) := by
  split
  · exact hu
  · exact hv

/-- The parentheses around an operand match. -/
theorem operandWords (h : Nested us) (n : Node) : Nested (n.operandWords us) := ite h.wrapped h

theorem itemWords (h : Nested us) (n : Node) : Nested (n.itemWords us) := ite h.wrapped h

/-- A semicolon after a statement is no bracket. -/
theorem statementWords (h : Nested us) (n : Node) : Nested (n.statementWords us) :=
  ite (h.append (cons rfl rfl nil)) h

theorem map {ns : List Node} {f : Node → List Lexeme} (h : ∀ n ∈ ns, Nested (f n)) :
    ∀ ws ∈ ns.map f, Nested ws := by
  simpa using h

theorem listWords {ns : List Node} (h : ∀ n ∈ ns, Nested n.words) :
    Nested (listWords ns (wordsAll ns)) := by
  rw [listWords_eq]
  exact commas (map fun n hn => (h n hn).itemWords n)

theorem bodyWords {ns : List Node} (h : ∀ n ∈ ns, Nested n.words) :
    Nested (bodyWords ns (wordsAll ns)) := by
  rw [bodyWords_eq]
  exact flatten (map fun n hn => (h n hn).statementWords n)

/-- Words that may be left out. -/
theorem elim {part : Option Node} {f : Node → List Lexeme} (h : ∀ n ∈ part, Nested (f n)) :
    Nested (part.elim [] f) := by
  cases part with
  | none => exact nil
  | some n => exact h n rfl

theorem binary (op : BinaryOp) (h : Nested us) : Nested (op.word :: us) := by
  cases op <;> exact cons rfl rfl h

theorem unary (op : UnaryOp) (h : Nested us) : Nested (op.word :: us) := by
  cases op <;> exact cons rfl rfl h

end Nested

namespace Formed

/-- The brackets among the words of a tree match each other. -/
theorem nested {place : Place} {n : Node} (h : Formed place n) : Nested n.words := by
  induction h with
  | block _ ih => exact .bracketed rfl rfl (.bodyWords ih)
  | blockStatement _ ih | declarationStatement _ ih | startDeclaration _ ih | startExpression _ ih
  | parameter _ ih | arrowBlock _ ih | arrowExpression _ ih | argument _ ih | element _ ih
  | computedKey _ ih => exact ih
  | expr _ ih => exact .append (.ite ih.wrapped ih) (.cons rfl rfl .nil)
  | empty | binding | ident | this | nameKey | shorthand | bool | null => exact .cons rfl rfl .nil
  | number | string | numberKey | stringKey | template => exact .cons rfl rfl .nil
  | breaks | continues => exact .cons rfl rfl (.cons rfl rfl .nil)
  | hole => exact .nil
  | ifElse _ _ _ _ ihTest ihConsequent ihAlternate =>
      rw [words_ifElse]
      exact .append (.append (.cons rfl rfl ihTest.wrapped) (ihConsequent.statementWords _))
        (.elim fun n hn => .cons rfl rfl ((ihAlternate n hn).statementWords n))
  | @forLoop init test step body _ _ _ _ ihInit ihTest ihStep ihBody =>
      have hHead : Nested (init.elim [] words ++ .punct .semicolon :: (test.elim [] words ++
          .punct .semicolon :: step.elim [] words)) :=
        .append (.elim ihInit) (.cons rfl rfl (.append (.elim ihTest) (.cons rfl rfl (.elim ihStep))))
      simpa [words_forLoop, Node.wrapped, Node.bracketed] using
        (Nested.cons (w := .name "for") rfl rfl hHead.wrapped).append (ihBody.statementWords body)
  | @forEach left right body overValues _ _ _ ihLeft ihRight ihBody =>
      have hHead : Nested (left.words ++ .name (if overValues then "of" else "in") :: right.words) :=
        ihLeft.append (.cons rfl rfl ihRight)
      simpa [words_forEach, Node.wrapped, Node.bracketed] using
        (Nested.cons (w := .name "for") rfl rfl hHead.wrapped).append (ihBody.statementWords body)
  | whileLoop _ _ ihTest ihBody =>
      exact .append (.cons rfl rfl ihTest.wrapped) (ihBody.statementWords _)
  | doWhile _ _ ihBody ihTest =>
      exact .append (.append (.cons rfl rfl (ihBody.statementWords _))
        (.cons rfl rfl ihTest.wrapped)) (.cons rfl rfl .nil)
  | returns _ ih =>
      rw [words_returns]
      exact .append (.cons rfl rfl (.elim ih)) (.cons rfl rfl .nil)
  | throws _ ih => exact .append (.cons rfl rfl ih) (.cons rfl rfl .nil)
  | tryCatch _ _ _ _ _ _ ihBody ihParam ihHandler ihFinalizer =>
      rw [words_tryCatch]
      exact .append (.append (.cons rfl rfl ihBody) (.elim fun n hn =>
        .append (.cons rfl rfl (.elim fun p hp => (ihParam p hp).wrapped)) (ihHandler n hn)))
        (.elim fun n hn => .cons rfl rfl (ihFinalizer n hn))
  | functionDeclaration _ _ _ ihId ihParams ihBody =>
      rw [words_function (show FunctionForm.declaration ≠ .arrow by decide)]
      exact .append (.append (.cons rfl rfl ihId) (Nested.listWords ihParams).wrapped) ihBody
  | function _ _ _ ihId ihParams ihBody =>
      rw [words_function (show FunctionForm.expression ≠ .arrow by decide)]
      exact .append (.append (.cons rfl rfl (.elim ihId)) (Nested.listWords ihParams).wrapped) ihBody
  | classDeclaration _ _ _ ihId ihSuperclass ihMembers =>
      rw [words_classDef, wordsAll_eq_map]
      exact .append (.append (.cons rfl rfl ihId) (.elim fun n hn =>
        .cons rfl rfl ((ihSuperclass n hn).operandWords n))) (.bracketed rfl rfl (.flatten (.map ihMembers)))
  | classExpression _ _ _ ihId ihSuperclass ihMembers =>
      rw [words_classDef, wordsAll_eq_map]
      exact .append (.append (.cons rfl rfl (.elim ihId)) (.elim fun n hn =>
        .cons rfl rfl ((ihSuperclass n hn).operandWords n))) (.bracketed rfl rfl (.flatten (.map ihMembers)))
  | declaration _ _ ih => exact .cons rfl rfl (.listWords ih)
  | declarator _ _ ihId ihInit =>
      rw [words_declarator]
      exact ihId.append (.elim fun n hn => .cons rfl rfl ((ihInit n hn).itemWords n))
  | withDefault _ _ ihLeft ihRight => exact ihLeft.append (.cons rfl rfl (ihRight.itemWords _))
  | restParameter _ ih | spread _ ih | spreadProperty _ ih => exact .cons rfl rfl (ih.itemWords _)
  | array _ ih =>
      exact .bracketed rfl rfl (.append (.listWords ih) (.ite (.cons rfl rfl .nil) .nil))
  | object _ ih =>
      rw [words_object]
      exact .bracketed rfl rfl (.commas (.map ih))
  | arrow _ _ ihParams ihBody =>
      exact .append (Nested.listWords ihParams).wrapped (.cons rfl rfl (.ite ihBody.wrapped ihBody))
  | call _ _ ihCallee ihArguments =>
      exact .append (.ite ihCallee.wrapped (ihCallee.operandWords _))
        (Nested.listWords ihArguments).wrapped
  | construct _ _ ihCallee ihArguments =>
      exact .append (.cons rfl rfl (ihCallee.operandWords _)) (Nested.listWords ihArguments).wrapped
  | member _ _ ihOwner =>
      exact .append (.ite ihOwner.wrapped (ihOwner.operandWords _)) (.cons rfl rfl (.cons rfl rfl .nil))
  | computedMember _ _ ihOwner ihKey =>
      exact .append (ihOwner.operandWords _) (.bracketed rfl rfl ihKey)
  | assign _ _ _ ihLeft ihRight => exact ihLeft.append (.cons rfl rfl ihRight)
  | @update _ _ before _ _ _ ih =>
      cases before with
      | true => exact .cons rfl rfl (ih.operandWords _)
      | false => exact .append (ih.operandWords _) (.cons rfl rfl .nil)
  | binary _ _ ihLeft ihRight =>
      exact .append (ihLeft.operandWords _) (.binary _ (ihRight.operandWords _))
  | logical _ _ ihLeft ihRight =>
      exact .append (ihLeft.operandWords _) (.cons rfl rfl (ihRight.operandWords _))
  | unary _ ih => exact .unary _ (.ite ih.wrapped (ih.operandWords _))
  | conditional _ _ _ ihTest ihConsequent ihAlternate =>
      exact .append (.append (ihTest.operandWords _) (.cons rfl rfl (ihConsequent.itemWords _)))
        (.cons rfl rfl (ihAlternate.itemWords _))
  | sequence _ _ ih =>
      rw [words_sequence]
      exact .commas (.map ih)
  | property _ _ ihKey ihValue =>
      rw [words_property]
      exact .append (.ite (.bracketed rfl rfl ihKey) ihKey) (.cons rfl rfl (ihValue.itemWords _))
  | @methodProperty _ _ kind _ _ _ _ _ ihKey ihParams ihBody =>
      rw [words_methodProperty]
      have hWord : Nested (propertyWords kind) := by
        cases kind <;> exact fun _ => rfl
      exact .append (hWord.append (.ite (.bracketed rfl rfl ihKey) ihKey))
        ((Nested.listWords ihParams).wrapped.append ihBody)
  | @method _ _ kind _ _ _ _ _ _ _ ihKey ihParams ihBody =>
      have hWord : Nested (methodWords kind) := by
        cases kind <;> exact fun _ => rfl
      exact .append (((Nested.ite (.cons rfl rfl .nil) .nil).append hWord).append ihKey)
        ((Nested.listWords ihParams).wrapped.append ihBody)

end Formed

namespace Lexeme

/-- A word that an operand without operators starts with. Only what is `free` may start with
`await`. -/
def startsOperand (free : Bool) : Lexeme → Bool
  | .name text =>
    !keywords.contains text && (free || text != "await") ||
      ["this", "true", "false", "null", "function", "class", "new"].contains text
  | .number _ _ | .string _ _ | .template _ _ => true
  | .punct p => [Punct.openParen, .openBracket, .openBrace].contains p

/-- A word that an expression starts with. -/
def startsExpression (free : Bool) (w : Lexeme) : Bool :=
  w.startsOperand free || (Grammar.unaryOperator? w).isSome || (Grammar.updateOperator? w).isSome

/-- What starts an operand starts an expression. -/
theorem startsExpression_of_startsOperand {free : Bool} {w : Lexeme}
    (h : w.startsOperand free = true) : w.startsExpression free = true := by
  rw [startsExpression, h, Bool.true_or, Bool.true_or]

/-- What starts an operand starts one also where `await` is free. -/
theorem startsOperand_free {free : Bool} {w : Lexeme} (h : w.startsOperand false = true) :
    w.startsOperand free = true := by
  cases w with
  | name text =>
      simp only [startsOperand, Bool.or_eq_true, Bool.and_eq_true, Bool.false_or] at h ⊢
      exact h.imp_left fun h => ⟨h.1, .inr h.2⟩
  | _ => exact h

/-- What starts an expression starts one also where `await` is free. -/
theorem startsExpression_free {free : Bool} {w : Lexeme} (h : w.startsExpression false = true) :
    w.startsExpression free = true := by
  simp only [startsExpression, Bool.or_eq_true] at h ⊢
  exact h.imp_left fun h => h.imp_left startsOperand_free

end Lexeme

section Starts

variable {free : Bool} {f g : Lexeme → Bool} {us vs : List Lexeme}

/-- What goes after a text does not change how it starts. -/
theorem head?_append (h : us.head?.any f = true) : (us ++ vs).head?.any f = true := by
  cases us with
  | nil => cases h
  | cons => exact h

theorem head?_mono (h : us.head?.any f = true) (hg : ∀ w, f w = true → g w = true) :
    us.head?.any g = true := by
  cases us with
  | nil => cases h
  | cons w => exact hg w h

/-- An operand in parentheses, or as by itself. -/
theorem head?_fenced {n : Node} (fence : Bool) (hf : f (.punct .openParen) = true)
    (h : n.isOperation = false → us.head?.any f = true) :
    (if fence then wrapped us else n.operandWords us).head?.any f = true := by
  split
  · exact hf
  · rw [operandWords]
    split
    · exact hf
    · next hOperation => exact h (by simpa using hOperation)

/-- A list that is not empty starts as its first item does. -/
theorem head?_commas {wss : List (List Lexeme)} (hNonempty : wss ≠ [])
    (h : ∀ ws ∈ wss, ws.head?.any f = true) : (commas wss).head?.any f = true := by
  cases wss with
  | nil => contradiction
  | cons ws wss =>
      have hFirst := h ws List.mem_cons_self
      cases wss with
      | nil => simpa using hFirst
      | cons =>
          rw [commas_cons_cons]
          exact head?_append hFirst

end Starts

namespace Formed

/-- An operand starts with a word for operands. -/
theorem startsOperand {free : Bool} {n : Node} (h : Formed (.expression free) n) {noIn : Bool}
    (hFaithful : n.faithful noIn = true) (hOperation : n.isOperation = false)
    (hUpdate : n.isUpdate = false) : n.words.head?.any (Lexeme.startsOperand free) = true := by
  generalize hPlace : Place.expression free = place at h
  induction h generalizing noIn with
  | @ident _ text h hFree =>
      cases hPlace
      have hAwait : (free || text != "await") = true := by
        rw [Bool.or_eq_true, bne_iff_ne]
        exact Decidable.or_iff_not_imp_right.2 fun h => hFree (by simpa using h)
      change (!keywords.contains text && (free || text != "await") || _) = true
      rw [h.notKeyword, hAwait]
      rfl
  | bool b => cases b <;> rfl
  | this | null | number | string | template | array | object => rfl
  | function =>
      rw [words_function (show FunctionForm.expression ≠ .arrow by decide)]
      rfl
  | classExpression =>
      rw [words_classDef]
      rfl
  | construct => rfl
  | call _ _ ih _ =>
      simp only [faithful_call, Bool.and_eq_true, Bool.not_eq_true'] at hFaithful
      exact head?_append (head?_fenced _ rfl fun ho => ih hFaithful.1.2 ho hFaithful.1.1.1 hPlace)
  | member _ _ ih =>
      simp only [faithful_member, Bool.and_eq_true, Bool.not_eq_true'] at hFaithful
      exact head?_append (head?_fenced _ rfl fun ho => ih hFaithful.1.2 ho hFaithful.1.1 hPlace)
  | computedMember _ _ ih _ =>
      simp only [faithful_member, Bool.and_eq_true, Bool.not_eq_true'] at hFaithful
      exact head?_append (head?_fenced false rfl fun ho => ih hFaithful.1.2 ho hFaithful.1.1 hPlace)
  | arrow | assign | binary | logical | unary | conditional | sequence => cases hOperation
  | update => cases hUpdate
  | _ => cases hPlace

/-- An expression starts with a word for expressions. -/
theorem startsExpression {free : Bool} {n : Node} (h : Formed (.expression free) n) {noIn : Bool}
    (hFaithful : n.faithful noIn = true) :
    n.words.head?.any (Lexeme.startsExpression free) = true := by
  generalize hPlace : Place.expression free = place at h
  induction h generalizing noIn free with
  | assign hTarget hLeft _ ih _ =>
      simp only [faithful_assign, Bool.and_eq_true] at hFaithful
      exact head?_append (head?_mono (ih hFaithful.1.1 rfl) fun _ => startsExpression_free)
  | @update _ _ before argument _ _ ih =>
      cases before with
      | true => rfl
      | false =>
          refine head?_append (head?_fenced false rfl fun _ => ?_)
          exact head?_mono (ih hFaithful rfl) fun _ => startsExpression_free
  | binary _ _ ih _ =>
      simp only [faithful_binary, Bool.and_eq_true] at hFaithful
      refine head?_append (head?_fenced false rfl fun _ => ?_)
      exact head?_mono (ih hFaithful.1.2 rfl) fun _ => startsExpression_free
  | logical _ _ ih _ =>
      simp only [faithful_logical, Bool.and_eq_true] at hFaithful
      refine head?_append (head?_fenced false rfl fun _ => ?_)
      exact head?_mono (ih hFaithful.1 rfl) fun _ => startsExpression_free
  | conditional _ _ _ ih _ _ =>
      simp only [faithful_conditional, Bool.and_eq_true] at hFaithful
      refine head?_append (head?_append (head?_fenced false rfl fun _ => ?_))
      exact head?_mono (ih hFaithful.1.1 rfl) fun _ => startsExpression_free
  | @unary _ op => cases op <;> rfl
  | arrow => rfl
  | @sequence _ items hLength _ ih =>
      simp only [faithful_sequence, Bool.and_eq_true, faithfulAll_eq_true] at hFaithful
      rw [words_sequence]
      refine head?_commas (by rintro hNil; simp [List.map_eq_nil_iff.1 hNil] at hLength) ?_
      simp only [List.mem_map, forall_exists_index, and_imp, forall_apply_eq_imp_iff₂]
      exact fun n hn => head?_mono (ih n hn (hFaithful.2 n hn) rfl) fun _ => startsExpression_free
  | ident h hFree =>
      cases hPlace
      exact head?_mono ((Formed.ident h hFree).startsOperand hFaithful rfl rfl) fun _ =>
        startsExpression_of_startsOperand
  | bool b => cases b <;> rfl
  | this | null | number | string | template | array | object | construct => rfl
  | function =>
      rw [words_function (show FunctionForm.expression ≠ .arrow by decide)]
      rfl
  | classExpression =>
      rw [words_classDef]
      rfl
  | call _ _ ih _ | member _ _ ih =>
      simp only [faithful_call, faithful_member, Bool.and_eq_true] at hFaithful
      exact head?_append (head?_fenced _ rfl fun _ => ih hFaithful.1.2 hPlace)
  | computedMember _ _ ih _ =>
      simp only [faithful_member, Bool.and_eq_true] at hFaithful
      exact head?_append (head?_fenced false rfl fun _ => ih hFaithful.1.2 hPlace)
  | _ => cases hPlace

end Formed

/-- The second word makes neither a label nor a function of the first, nor does it call `async`. -/
def Lexeme.calm (w v : Lexeme) : Bool :=
  !(w.isWord && (v.isSign .arrow || v.isSign .colon)) &&
    !(w.isName "async" && (v.isName "function" || v.isSign .openParen))

/-- The first two words are nothing that the grammar looks ahead for. -/
def Calm : List Lexeme → Prop
  | w :: v :: _ => w.calm v = true
  | _ => True

namespace Calm

variable {u v : List Lexeme}

/-- Words that start with a sign are calm. -/
theorem of_sign {w : Lexeme} (hw : w.isWord = false) : Calm (w :: u) := by
  cases u with
  | nil => trivial
  | cons w' u =>
      cases w with
      | name => cases hw
      | _ => rfl

/-- A keyword that no look ahead goes for, before what starts with no sign of theirs. -/
theorem of_keyword {w : Lexeme} {f : Lexeme → Bool} (hw : w.isName "async" = false)
    (hArrow : f (.punct .arrow) = false) (hColon : f (.punct .colon) = false)
    (h : u.head?.any f = true) : Calm (w :: u) := by
  have hNotArrow := not_sign hArrow h none
  have hNotColon := not_sign hColon h none
  cases u with
  | nil => trivial
  | cons w' u =>
      change w.calm w' = true
      simp only [List.head?_cons, Option.some_or, Option.any_some] at hNotArrow hNotColon
      simp [calm, hw, hNotArrow, hNotColon]

/-- Calm words stay so before a word that does not make an arrow, a label or a call of the last of
them. -/
theorem append (h : Calm u) (hNonempty : u ≠ [])
    (hNext : ∀ w, u = [w] → ∀ w' ∈ v.head?, w.calm w' = true) : Calm (u ++ v) := by
  match u, v with
  | [], _ => exact absurd rfl hNonempty
  | [w], [] => trivial
  | [w], w' :: _ => exact hNext w rfl w' rfl
  | _ :: _ :: _, _ => exact h

/-- A word that is calm after any other. -/
theorem append_calm {w' : Lexeme} (h : Calm u) (hNonempty : u ≠ [])
    (hNext : ∀ w : Lexeme, w.calm w' = true) : Calm (u ++ w' :: v) :=
  h.append hNonempty fun w _ _ hw => Option.some.inj hw ▸ hNext w

end Calm

/-- Other signs than the arrow, the colon and the parenthesis leave any word calm. -/
theorem Lexeme.calm_sign {p : Punct} (h : (p == .arrow || p == .colon || p == .openParen) = false)
    (w : Lexeme) : w.calm (.punct p) = true := by
  simp only [Bool.or_eq_false_iff] at h
  simp [calm, isSign, isName, h]

theorem Lexeme.eq_of_isName {name : String} {w : Lexeme} (h : w.isName name = true) :
    w = .name name := by
  cases w with
  | name text => rw [beq_iff_eq.1 h]
  | _ => cases h

/-- Every binary operator leaves any word calm. -/
theorem Lexeme.calm_binary (op : BinaryOp) (w : Lexeme) : w.calm op.word = true := by
  cases op <;> first | exact calm_sign rfl w | simp [calm, BinaryOp.word, isSign, isName]

/-- Words are calm in parentheses too. -/
theorem Calm.fenced {n : Node} (fence : Bool) (h : Calm n.words) :
    Calm (if fence then wrapped n.words else n.operandWords n.words) := by
  split
  · exact .of_sign rfl
  · rw [operandWords]
    split
    · exact .of_sign rfl
    · exact h

namespace Formed

variable {n : Node} {free : Bool}

/-- Only the function `async` is an operand that is written as that word. -/
theorem ident_of_words (h : Formed (.expression free) n) (hWords : n.words = [.name "async"])
    (hOperation : n.isOperation = false) (hUpdate : n.isUpdate = false) :
    n.ident? = some "async" := by
  have hSign : ∀ p : Punct, .punct p ∉ n.words := by simp [hWords]
  have hHead : n.words.head?.any (Lexeme.isName "async") = true := by rw [hWords]; rfl
  cases h with
  | ident =>
      have hName : [Lexeme.name _] = [.name "async"] := hWords
      simpa [ident?] using hName
  | bool b => cases b <;> exact absurd hHead (by decide)
  | this | null => exact absurd hHead (by decide)
  | number | string | template => cases hHead
  | arrow | assign | binary | logical | unary | conditional | sequence => cases hOperation
  | update => cases hUpdate
  | array => exact absurd List.mem_cons_self (hSign .openBracket)
  | object => exact absurd List.mem_cons_self (hSign .openBrace)
  | function =>
      rw [words_function (show FunctionForm.expression ≠ .arrow by decide)] at hWords
      simp at hWords
  | classExpression => simp [words_classDef] at hWords
  | call => exact absurd (List.mem_append_right _ List.mem_cons_self) (hSign .openParen)
  | construct => exact absurd (List.mem_append_right _ List.mem_cons_self) (hSign .openParen)
  | member => exact absurd (List.mem_append_right _ List.mem_cons_self) (hSign .dot)
  | computedMember =>
      exact absurd (List.mem_append_right _ List.mem_cons_self) (hSign .openBracket)

/-- An operand with a word after it. -/
theorem calm_fenced (h : Formed (.expression free) n) {noIn : Bool}
    (hFaithful : n.faithful noIn = true) (ih : Calm n.words) (fence : Bool) {v : Lexeme}
    {vs : List Lexeme} (hv : ∀ w : Lexeme, w.calm v = true) :
    Calm ((if fence then wrapped n.words else n.operandWords n.words) ++ v :: vs) :=
  (ih.fenced fence).append_calm
    (ne_nil_of_starts (head?_fenced fence rfl fun _ => h.startsExpression hFaithful)) hv

/-- The first two words of an expression are nothing that the grammar looks ahead for. -/
theorem calm (h : Formed (.expression free) n) {noIn : Bool} (hFaithful : n.faithful noIn = true) :
    Calm n.words := by
  generalize hPlace : Place.expression free = place at h
  induction h generalizing noIn free with
  | ident | this | bool | null | number | string | template => trivial
  | array | object | arrow => exact .of_sign rfl
  | @function _ id _ _ hId _ _ =>
      rw [words_function (show FunctionForm.expression ≠ .arrow by decide)]
      refine .of_keyword (u := _ ++ _) (f := fun w => w.isWord || w.isSign .openParen) rfl rfl rfl ?_
      cases id with
      | none => rfl
      | some n => cases hId n rfl with | binding => rfl
  | @classExpression _ id superclass _ hId _ _ =>
      rw [words_classDef]
      refine .of_keyword (u := _ ++ _) (f := fun w => w.isWord || w.isSign .openBrace) rfl rfl rfl ?_
      cases id with
      | none => cases superclass <;> rfl
      | some n => cases hId n rfl with | binding => rfl
  | @call _ callee _ hCallee _ ih _ =>
      simp only [faithful_call, Bool.and_eq_true, Bool.not_eq_true', bne_iff_ne] at hFaithful
      obtain ⟨⟨⟨hUpdate, hAsync⟩, hCalleeFaithful⟩, -⟩ := hFaithful
      refine ((ih hCalleeFaithful hPlace).fenced _).append (ne_nil_of_starts
        (head?_fenced _ rfl fun _ => hCallee.startsExpression hCalleeFaithful)) ?_
      rintro w hWord v ⟨⟩
      -- the callee would be the name `async` itself, and then the call is not faithful
      have hName : w.isName "async" = false := by
        refine Bool.eq_false_iff.2 fun hName => ?_
        cases eq_of_isName hName
        have hBare : callee.isOperation = false ∧ callee.words = [.name "async"] := by
          cases hFunction : callee.isFunction <;> cases hOperation : callee.isOperation <;>
            simp_all [operandWords, wrapped, bracketed]
        cases hPlace
        exact hAsync (hCallee.ident_of_words hBare.2 hBare.1 hUpdate)
      simp [Lexeme.calm, hName, isSign]
  | @construct _ callee _ hCallee _ =>
      simp only [faithful_construct, Bool.and_eq_true] at hFaithful
      have hUpdate : callee.isUpdate = false := by
        cases callee <;> first | rfl | cases hFaithful.1.1
      exact .of_keyword (u := _ ++ _) rfl rfl rfl (head?_append (head?_fenced false rfl fun h =>
        hCallee.startsOperand hFaithful.1.2 h hUpdate))
  | member hOwner _ ih =>
      simp only [faithful_member, Bool.and_eq_true] at hFaithful
      cases hPlace
      exact hOwner.calm_fenced hFaithful.1.2 (ih hFaithful.1.2 rfl) _ (calm_sign rfl)
  | computedMember hOwner _ ih =>
      simp only [faithful_member, Bool.and_eq_true] at hFaithful
      cases hPlace
      exact hOwner.calm_fenced hFaithful.1.2 (ih hFaithful.1.2 rfl) false
        (calm_sign rfl)
  | assign _ hLeft _ ih _ =>
      simp only [faithful_assign, Bool.and_eq_true] at hFaithful
      exact (ih hFaithful.1.1 rfl).append_calm
        (ne_nil_of_starts (hLeft.startsExpression hFaithful.1.1)) (calm_sign rfl)
  | @update _ _ before argument _ hArgument ih =>
      cases before with
      | true => exact .of_sign rfl
      | false =>
          exact hArgument.calm_fenced hFaithful (ih hFaithful rfl) false
            (calm_sign rfl)
  | binary hLeft _ ih =>
      simp only [faithful_binary, Bool.and_eq_true] at hFaithful
      exact hLeft.calm_fenced hFaithful.1.2 (ih hFaithful.1.2 rfl) false (calm_binary _)
  | logical hLeft _ ih =>
      simp only [faithful_logical, Bool.and_eq_true] at hFaithful
      exact hLeft.calm_fenced hFaithful.1 (ih hFaithful.1 rfl) false (calm_sign rfl)
  | conditional hTest _ _ ih =>
      simp only [faithful_conditional, Bool.and_eq_true] at hFaithful
      rw [words_conditional, List.append_assoc]
      exact hTest.calm_fenced hFaithful.1.1 (ih hFaithful.1.1 rfl) false
        (calm_sign rfl)
  | @unary _ op argument hArgument ih =>
      rw [words_unary]
      exact .of_keyword (by cases op <;> rfl) rfl rfl
        (head?_fenced _ rfl fun _ => hArgument.startsExpression hFaithful)
  | @sequence _ items hLength hItems ih =>
      rw [words_sequence]
      obtain ⟨n, n', items, rfl⟩ : ∃ n n' ns, items = n :: n' :: ns := by
        cases items with
        | nil => cases hLength
        | cons n items =>
            cases items with
            | nil => exact absurd hLength (Nat.lt_irrefl 1)
            | cons n' items => exact ⟨n, n', items, rfl⟩
      simp only [faithful_sequence, Bool.and_eq_true, faithfulAll_eq_true] at hFaithful
      have hFirst := hFaithful.2 n List.mem_cons_self
      simp only [List.map_cons, commas_cons_cons]
      exact (ih n List.mem_cons_self hFirst rfl).append_calm (ne_nil_of_starts
        ((hItems n List.mem_cons_self).startsExpression hFirst)) (calm_sign rfl)
  | _ => cases hPlace

end Formed
end CodeShape
