import CodeShape.Proofs.Advancing
import CodeShape.Proofs.Phrases
import CodeShape.Proofs.Simulation
import Mathlib.Logic.Function.Iterate

/-!
The whole grammar goes forward. Every rule takes a word before it comes back to a rule, so rules
that are built over two grammars run alike on streams that are heavier by one word than those on
which the two run alike. On streams below a given weight, then, it makes no difference what so many
levels of rules are built on.
-/
namespace CodeShape

open CodeShape.Parser

namespace Grammar

/-- The rules of two grammars run alike on streams that are lighter than the limit, and take a
word. -/
structure Linked (limit : Nat) (g g' : Grammar) : Prop where
  statement (noIn : Bool) : Takes limit (g.statement noIn) (g'.statement noIn)
  assignment (noIn : Bool) : Takes limit (g.assignment noIn) (g'.assignment noIn)
  binary (noIn : Bool) (power : Nat) : Takes limit (g.binary noIn power) (g'.binary noIn power)
  unary : Takes limit g.unary g'.unary
  call : Takes limit g.call g'.call
  constructed : Takes limit g.constructed g'.constructed

/-- A statement of a block, as a list of one. -/
def statementItem (g : Grammar) (noIn : Bool) : Parser (List Node) := do
  if ← atEnd then expected Punct.closeBrace.text else return [← g.statement noIn]

/-- A member of a class, or a semicolon in place of one. -/
def memberItem (g : Grammar) : Parser (List Node) := do
  if ← eat .semicolon then return [] else return [← g.method]

/-- A member access that goes on with what is constructed. -/
def accessStep (g : Grammar) (e : Node) : Parser (Option Node) := do
  if ← seesAny [.dot, .openBracket] then return some (← g.memberAccess e) else return none

section Words

variable {β : Type} {limit : Nat} {m full : Bool}

/-- Expressions put together with commas take a word if the first of them does. -/
theorem takes_expressionOf {p q : Parser Node} (h : Takes limit p q) :
    Takes limit (expressionOf p) (expressionOf q) := by
  refine .bind (.commaSeparated h) fun items => ?_
  split <;> exact .pure fun _ => rfl

/-- The dots of a spread are a word, and what comes without them takes one. -/
theorem takes_spreadable {p q : Parser Node} (h : Takes limit p q) :
    Takes limit (spreadable p) (spreadable q) :=
  .eat (.done h.anywhere) h

/-- A modifier that is seen is there to be taken. -/
theorem takes_eatModifier {word : String} {f f' : Bool → Parser β}
    (hf : ∀ b, Takes limit (f b) (f' b)) :
    Takes limit (eatModifier word >>= f) (eatModifier word >>= f') := by
  unfold eatModifier
  rw [bind_assoc, bind_assoc]
  intro start s hLight hLeaves hWords
  change (seesModifier word s >>= _) = (seesModifier word s >>= _) ∧
    ∀ b rest, (seesModifier word s >>= _) = .ok (b, rest) → _
  rw [watches_seesModifier]
  cases hName : (s.words[0]?.map Located.word).any (Lexeme.isName word) with
  | false =>
      simp only [hName, Bool.false_and]
      exact hf false start s hLight hLeaves hWords
  | true =>
      have hFull : s.words ≠ [] := by
        intro hNil
        simp [hNil] at hName
      have hTaken : Advances limit false true (advance >>= fun _ => f true)
          (advance >>= fun _ => f' true) fun _ => true :=
        .bind .advance fun _ => (hf true).anywhere
      simp only [hName, Bool.true_and]
      generalize (s.words[1]?.map Located.word).any _ = ends
      cases ends with
      | true => exact hf false start s hLight hLeaves hWords
      | false => exact hTaken start s hLight hLeaves fun _ => hFull

/-- The modifier that tells a kind may be missing, so the key has to take a word. -/
theorem takes_memberKind {κ : Type} {get set other : κ} {f f' : κ → Parser β}
    (hf : ∀ k, Takes limit (f k) (f' k)) :
    Takes limit (memberKind get set other >>= f) (memberKind get set other >>= f') := by
  unfold memberKind
  rw [bind_assoc, bind_assoc]
  refine takes_eatModifier fun isGet => ?_
  cases isGet with
  | true => exact hf get
  | false =>
      rw [if_neg nofun, bind_assoc, bind_assoc]
      refine takes_eatModifier fun isSet => ?_
      cases isSet with
      | true => exact hf set
      | false => exact hf other

/-- What is chosen by the next word is chosen only where there is one. -/
theorem isSome_of_bind {γ : Type} {w : Option Lexeme} {test : Lexeme → Option γ} {c : γ}
    (h : w.bind test = some c) : w.isSome = true :=
  Option.isSome_of_isSome_bind (Option.isSome_of_eq_some h)

/-- An update after an operand may be missing, and then nothing is taken. -/
theorem advances_updateAfter (e : Node) :
    Advances limit true full (updateAfter e) (updateAfter e) fun _ => true := by
  refine .next fun w _ => ?_
  split
  · exact .pure fun _ => rfl
  · next op hOp =>
      rw [isSome_of_bind hOp]
      refine .watch watches_onNewLine fun _ => .ite (fun _ => .pure fun _ => rfl) fun _ => ?_
      refine .ite (fun _ => (fails_fail _).advances) fun _ => ?_
      exact .bind .advance fun _ => .pure fun _ => rfl

/-- A statement may end without a semicolon, and then nothing is taken. -/
theorem advances_statementEnd :
    Advances limit true full statementEnd statementEnd fun _ => true := by
  refine .eat (.pure fun _ => rfl) (.watch watches_mayEnd fun _ => ?_)
  exact .ite (fun _ => .pure fun _ => rfl) fun _ => (fails_expected _).advances

/-- The parameter of a handler may be missing, and then nothing is taken. -/
theorem advances_handlerParam :
    Advances limit true full handlerParam handlerParam fun _ => true := by
  refine .eat ?_ (.pure fun _ => rfl)
  refine .seesAny (fails_unsupported _).advances (.bind Advances.identifier.anywhere fun _ => ?_)
  exact .bind .expect fun _ => .pure fun _ => rfl

/-- The keyword of a jump has been seen, so it is taken. -/
theorem advances_jump (n : Node) :
    Advances limit m true (jump n) (jump n) fun _ => true := by
  refine .bind .advance fun _ => .watch seesWord_run fun _ => .watch watches_onNewLine fun _ => ?_
  refine .ite (fun _ => (fails_unsupported _).advances) fun _ => ?_
  exact .bind advances_statementEnd fun _ => .pure fun _ => rfl

end Words

namespace Linked

variable {limit : Nat} {g g' : Grammar} (h : g.Linked limit g')

include h

/-- A statement in a block is read by a rule of the level below. -/
theorem statementItem (noIn : Bool) : Takes limit (g.statementItem noIn) (g'.statementItem noIn) :=
  .atEnd (fails_expected _).advances (.done (h.statement noIn).anywhere)

/-- A block takes its brace before it reads statements. -/
theorem block (noIn : Bool) : Takes (limit + 1) (g.block noIn) (g'.block noIn) := by
  refine .bind .expect fun _ => .bind (.enclosed ?_) fun _ => .pure fun _ => rfl
  exact (h.statementItem noIn).deeper

/-- Arguments take their parenthesis before they read expressions. -/
theorem arguments : Takes (limit + 1) g.arguments g'.arguments :=
  .bind .expect fun _ => .listed (takes_spreadable (h.assignment false)).deeper

/-- A parameter takes its name before it reads a default. -/
theorem parameter : Takes (limit + 1) g.parameter g'.parameter := by
  refine .seesAny (fails_unsupported _).advances ?_
  refine .eat (.done Advances.identifier.anywhere) (.bind .identifier fun name => ?_)
  exact .eat (.done (h.assignment false).deeper) (.pure fun _ => rfl)

theorem parameters : Takes (limit + 1) g.parameters g'.parameters :=
  .bind .expect fun _ => .listed h.parameter.anywhere

/-- The parameters of a function take their parenthesis before its body is read. -/
theorem functionRest (form : FunctionForm) (id : Option String) :
    Takes (limit + 1) (g.functionRest form id) (g'.functionRest form id) :=
  .bind h.parameters fun _ => .done (h.block false).anywhere

/-- A function takes its keyword first. -/
theorem function (form : FunctionForm) :
    Takes (limit + 1) (g.function form) (g'.function form) := by
  unfold Grammar.function
  refine .eatName ?_ (fails_expected _).advances_bind
  refine .sees (fails_unsupported _).advances_bind ?_
  refine .watch seesWord_run fun named => .ite (fun _ => ?_) fun _ => ?_
  · exact .mapped Advances.identifier.anywhere fun name => (h.functionRest form _).anywhere
  · exact .given (h.functionRest form _).anywhere

/-- A computed key takes its bracket before it reads an expression; any other is a word. -/
theorem memberKey : Takes (limit + 1) g.memberKey g'.memberKey := by
  refine .next fun w _ => ?_
  split
  · refine .bind .advance fun _ => .bind (h.assignment false).deeper fun _ => ?_
    exact .bind .expect fun _ => .pure fun _ => rfl
  · exact .bind .advance fun _ => .pure fun _ => rfl
  · exact .bind .advance fun _ => .pure fun _ => rfl
  · exact .done Advances.propertyName.anywhere
  · exact (fails_expected _).advances

/-- A property takes its dots or its key before it reads a value. -/
theorem property : Takes (limit + 1) g.property g'.property := by
  unfold Grammar.property
  refine .eat (.done (h.assignment false).deeper) (takes_memberKind fun kind => ?_)
  refine .bind h.memberKey fun ⟨key, computed⟩ => ?_
  refine .sees (.done (h.functionRest .expression none).anywhere) ?_
  refine .ite nofun fun _ => .ite (fun _ => (fails_expected _).advances) fun _ => ?_
  refine .eat (.done (h.assignment false).deeper) ?_
  refine .ite nofun fun _ => .ite (fun _ => ?_) fun _ => (fails_expected _).advances
  exact .sees (fails_unsupported _).advances_bind (.pure fun _ => rfl)

theorem object : Takes (limit + 1) g.object g'.object :=
  .bind .expect fun _ => .bind (.listed h.property.anywhere) fun _ => .pure fun _ => rfl

/-- An element of an array that is left out is a comma. -/
theorem element : Takes limit g.element g'.element := by
  refine .eat (.pure fun _ => rfl) (.bind (takes_spreadable (h.assignment false)) fun _ => ?_)
  exact .sees (.pure fun _ => rfl) (.bind .expect fun _ => .pure fun _ => rfl)

/-- An array takes its bracket before it reads elements. -/
theorem array : Takes (limit + 1) g.array g'.array := by
  rw [array_eq, array_eq]
  exact .bind .expect fun _ => .bind (.enclosed h.element.deeper) fun _ => .pure fun _ => rfl

/-- A member takes its key before it reads its function. -/
theorem method : Takes (limit + 1) g.method g'.method := by
  unfold Grammar.method
  refine takes_eatModifier fun isStatic => takes_memberKind fun kind => ?_
  refine .sees (fails_unsupported _).advances_bind (.bind h.memberKey fun ⟨key, computed⟩ => ?_)
  refine .sees ?_ (fails_unsupported _).advances_bind
  exact .done (h.functionRest .expression none).anywhere

/-- A semicolon in place of a member is taken. -/
theorem memberItem : Takes (limit + 1) g.memberItem g'.memberItem :=
  .eat (.pure fun _ => rfl) (.done h.method)

theorem classRest (expression : Bool) (id : Option String) :
    Takes (limit + 1) (g.classRest expression id) (g'.classRest expression id) := by
  have hBody : ∀ {m} (superclass : Option Node), Advances (limit + 1) m false
      (do
        expect .openBrace
        let members ← enclosed .closeBrace g.memberItem
        return Node.classDef (id.map .ident) superclass members expression)
      (do
        expect .openBrace
        let members ← enclosed .closeBrace g'.memberItem
        return Node.classDef (id.map .ident) superclass members expression) fun _ => true := by
    intro m superclass
    refine .bind .expect fun _ => .bind (.enclosed ?_) fun _ => .pure fun _ => rfl
    exact h.memberItem.anywhere
  unfold Grammar.classRest
  refine .eatName ?_ (.given (hBody none))
  exact .mapped h.call.deeper fun superclass => hBody (some superclass)

/-- A class takes its keyword before it reads its superclass. -/
theorem classDef (expression : Bool) :
    Takes (limit + 1) (g.classDef expression) (g'.classDef expression) := by
  unfold Grammar.classDef
  refine .eatName ?_ (fails_expected _).advances_bind
  refine .watch seesWord_run fun isWord => .watch (watches_seesName _) fun isExtends => ?_
  refine .ite (fun _ => ?_) fun _ => .ite (fun _ => ?_) fun _ => (fails_expected _).advances_bind
  · exact .mapped Advances.identifier.anywhere fun name => (h.classRest expression _).anywhere
  · exact .given (h.classRest expression none).anywhere

/-- The word has been seen, and every way that does not fail takes it. -/
theorem wordOperand (text : String) :
    Advances (limit + 1) false true (g.wordOperand text) (g'.wordOperand text) fun _ => true := by
  unfold Grammar.wordOperand
  split
  · exact .bind .advance fun _ => .pure fun _ => rfl
  · exact .bind .advance fun _ => .pure fun _ => rfl
  · exact .bind .advance fun _ => .pure fun _ => rfl
  · exact .bind .advance fun _ => .pure fun _ => rfl
  · exact (h.function .expression).anywhere
  · exact (h.classDef true).anywhere
  · exact (fails_unsupported _).advances
  · exact (fails_unsupported _).advances
  · exact .done Advances.identifier.anywhere

/-- Each kind of operand takes the word it is chosen by before it reads expressions. -/
theorem primary : Takes (limit + 1) g.primary g'.primary := by
  have hExpression := takes_expressionOf (h.assignment false)
  refine .next fun w hw => ?_
  split
  · exact .bind .advance fun _ => .pure fun _ => rfl
  · exact .bind .advance fun _ => .pure fun _ => rfl
  · next quasis parts =>
      refine .bind .advance fun _ => .bind (.mapM_inside hExpression ?_) fun _ => .pure fun _ => rfl
      intro part hPart
      have hTemplate : (Lexeme.template quasis parts).weight < limit + 1 := hw _ rfl
      have hLighter : _ < (Lexeme.template quasis parts).weight :=
        Lexeme.wordsWeight_lt_of_mem hPart
      rw [TokenStream.weight]
      omega
  · refine .bind .advance fun _ => .bind hExpression.deeper fun _ => ?_
    exact .bind .expect fun _ => .pure fun _ => rfl
  · exact h.array.anywhere
  · exact h.object.anywhere
  · exact (fails_unsupported _).advances
  · exact (fails_unsupported _).advances
  · exact h.wordOperand _
  · exact (fails_expected _).advances

/-- A member access takes its dot or its bracket first. -/
theorem memberAccess (owner : Node) :
    Takes (limit + 1) (g.memberAccess owner) (g'.memberAccess owner) := by
  refine .eat (.done Advances.propertyName.anywhere) (.bind .expect fun _ => ?_)
  refine .bind (takes_expressionOf (h.assignment false)).deeper fun _ => ?_
  exact .bind .expect fun _ => .pure fun _ => rfl

/-- A construction takes its keyword before it reads what is constructed. -/
theorem constructOrPrimary : Takes (limit + 1) g.constructOrPrimary g'.constructOrPrimary := by
  refine .eatName (.bind h.constructed.deeper fun callee => ?_) h.primary
  exact .sees (.done h.arguments.anywhere) (.pure fun _ => rfl)

/-- A further access takes its sign; otherwise the chain stops. -/
theorem accessStep {m : Bool} (e : Node) :
    Advances (limit + 1) m false (g.accessStep e) (g'.accessStep e) fun o => m || o.isSome :=
  .seesAny (.done (h.memberAccess e).anywhere) (.pure (by simp))

/-- The operand at the start takes a word, so the chain after it may stop at once. -/
theorem constructedRule : Takes (limit + 1) g.constructedRule g'.constructedRule :=
  .bind h.constructOrPrimary fun start => .grow h.accessStep start

/-- A further call or access takes its sign; otherwise the chain stops. -/
theorem operandStep {m : Bool} (e : Node) :
    Advances (limit + 1) m false (g.operandStep e) (g'.operandStep e) fun o => m || o.isSome := by
  refine .next fun w _ => ?_
  split
  · exact .done h.arguments.anywhere
  · exact .done (h.memberAccess e).anywhere
  · exact .done (h.memberAccess e).anywhere
  · exact (fails_unsupported _).advances
  · exact .pure (by simp)

/-- The operand at the start takes a word, so the chain after it may stop at once. -/
theorem callRule : Takes (limit + 1) g.callRule g'.callRule := by
  rw [callRule_eq, callRule_eq]
  exact .bind h.constructOrPrimary fun start => .grow h.operandStep start

/-- An operator is taken before its operand is read by the level below. -/
theorem unaryRule : Takes (limit + 1) g.unaryRule g'.unaryRule := by
  unfold Grammar.unaryRule
  refine .watch watches_place fun start => .next fun w _ => ?_
  refine .seesName (fails_unsupported _).advances_bind ?_
  split
  · next op hOp =>
      rw [isSome_of_bind hOp]
      exact .bind .advance fun _ => .done h.unary.deeper
  · next op hOp =>
      rw [isSome_of_bind hOp]
      refine .bind .advance fun _ => .bind h.unary.deeper fun e => ?_
      exact .ite (fun _ => .pure fun _ => rfl) fun _ => (fails_throw _).advances
  · exact .bind h.callRule.anywhere advances_updateAfter

/-- An operator is taken before its right side is read by the level below. -/
theorem operatorStep {m : Bool} (noIn : Bool) (power : Nat) (left : Node) :
    Advances (limit + 1) m false (g.operatorStep noIn power left) (g'.operatorStep noIn power left)
      fun o => m || o.isSome := by
  refine .next fun w _ => ?_
  split
  · exact .pure (by simp)
  · next p make hOp =>
      rw [isSome_of_bind hOp]
      refine .ite (fun _ => .pure (by simp)) fun _ => ?_
      exact .bind .advance fun _ => .done (h.binary noIn _).deeper

/-- The operand at the start takes a word, so the climb after it may stop at once. -/
theorem binaryRule (noIn : Bool) (power : Nat) :
    Takes (limit + 1) (g.binaryRule noIn power) (g'.binaryRule noIn power) := by
  rw [binaryRule_eq, binaryRule_eq]
  exact .bind h.unaryRule fun first => .grow (h.operatorStep noIn power) first

/-- The two branches are read after a sign each has been taken. -/
theorem conditional (noIn : Bool) :
    Takes (limit + 1) (g.conditional noIn) (g'.conditional noIn) := by
  refine .bind (h.binaryRule noIn 1) fun test => .eat ?_ (.pure fun _ => rfl)
  refine .bind (h.assignment false).deeper fun consequent => ?_
  exact .bind .expect fun _ => .done (h.assignment noIn).deeper

/-- An arrow has parameters, which take a word, before its body is read. -/
theorem arrow (noIn : Bool) : Takes (limit + 1) (g.arrow noIn) (g'.arrow noIn) := by
  have hBody : ∀ params : List Node, Advances (limit + 1) true false
      (do
        expect .arrow
        let body ← if ← sees .openBrace then g.block noIn else g.assignment false
        return Node.function .arrow none params body)
      (do
        expect .arrow
        let body ← if ← sees .openBrace then g'.block noIn else g'.assignment false
        return Node.function .arrow none params body) fun _ => true := by
    intro params
    refine .bind .expect fun _ => ?_
    exact .sees (.done (h.block noIn).anywhere) (.done (h.assignment false).deeper)
  unfold Grammar.arrow
  exact .sees (.bind h.parameters.anywhere hBody) (.bind .identifier fun name => .given (hBody _))

/-- The right side is read after the left side and the operator have been taken. -/
theorem assignmentRule (noIn : Bool) :
    Takes (limit + 1) (g.assignmentRule noIn) (g'.assignmentRule noIn) := by
  unfold Grammar.assignmentRule
  refine .watch watches_seesArrow fun _ => .ite (fun _ => h.arrow noIn) fun _ => ?_
  refine .watch (watches_seesName _) fun _ => .watch (nameAhead_run 1 _) fun _ => ?_
  refine .watch (signAhead_run 1 _) fun _ => ?_
  refine .ite (fun _ => (fails_unsupported _).advances) fun _ => ?_
  refine .seesName (fails_unsupported _).advances (.watch watches_place fun start => ?_)
  refine .bind (h.conditional noIn) fun left => .next fun w _ => ?_
  split
  · exact .pure fun _ => rfl
  · next op hOp =>
      rw [isSome_of_bind hOp]
      refine .ite (fun _ => (fails_unsupported _).advances) fun _ => ?_
      refine .ite (fun _ => (fails_throw _).advances) fun _ => ?_
      exact .bind .advance fun _ => .done (h.assignment noIn).deeper

/-- The name of a declarator is taken before its initializer is read. -/
theorem declarator (noIn : Bool) :
    Takes (limit + 1) (g.declarator noIn) (g'.declarator noIn) := by
  unfold Grammar.declarator
  refine .seesAny (fails_unsupported _).advances (.bind .identifier fun name => ?_)
  refine .eat ?_ (.pure fun _ => rfl)
  exact .mapped (h.assignment noIn).deeper fun _ => .pure fun _ => rfl

/-- The keyword has been seen, so a declaration takes it before its declarators. -/
theorem declaration {m : Bool} (noIn : Bool) (kind : DeclarationKind) :
    Advances (limit + 1) m true (g.declaration noIn kind) (g'.declaration noIn kind)
      fun _ => true :=
  .bind .advance fun _ => .done (Advances.commaSeparated (h.declarator noIn)).anywhere

/-- An expression is read by rules of the level below, so it has their limit and no more. -/
theorem expression (noIn : Bool) : Takes limit (g.expression noIn) (g'.expression noIn) :=
  takes_expressionOf (h.assignment noIn)

theorem condition : Takes (limit + 1) g.condition g'.condition := by
  refine .bind .expect fun _ => .bind (h.expression false).deeper fun _ => ?_
  exact .bind .expect fun _ => .pure fun _ => rfl

/-- The keyword has been seen and is taken before the condition is read. -/
theorem ifElse (noIn : Bool) :
    Advances (limit + 1) false true (g.ifElse noIn) (g'.ifElse noIn) fun _ => true := by
  unfold Grammar.ifElse
  refine .bind .advance fun _ => .bind h.condition.anywhere fun test => ?_
  refine .bind (h.statement noIn).deeper fun consequent => .eatName ?_ (.pure fun _ => rfl)
  exact .mapped (h.statement noIn).deeper fun _ => .pure fun _ => rfl

/-- The start of a loop may be missing, and then nothing is taken. -/
theorem loopStart : Advances (limit + 1) true false g.loopStart g'.loopStart fun _ => true := by
  refine .next fun w _ => ?_
  split
  · exact .pure fun _ => rfl
  · split
    · next kind hKind =>
        rw [isSome_of_bind hKind]
        exact .map (h.declaration true kind) fun _ h => h
    · exact .map (h.expression true).deeper fun _ h => h

/-- The word between the two sides is taken before the right one is read. -/
theorem forEachRest (noIn : Bool) (left : Node) (overValues : Bool) :
    Advances (limit + 1) true true (g.forEachRest noIn left overValues)
      (g'.forEachRest noIn left overValues) fun _ => true := by
  have hBody : ∀ right : Node, Advances (limit + 1) true false
      (do
        expect .closeParen
        let body ← g.statement noIn
        return Node.forEach left right body overValues)
      (do
        expect .closeParen
        let body ← g'.statement noIn
        return Node.forEach left right body overValues) fun _ => true :=
    fun right => .bind .expect fun _ => .done (h.statement noIn).deeper
  unfold Grammar.forEachRest
  refine .bind .advance fun _ => .ite (fun _ => ?_) fun _ => ?_
  · exact .bind (h.assignment noIn).deeper hBody
  · exact .bind (h.expression noIn).deeper hBody

/-- A part of a loop head that may be left out. -/
theorem loopPart {f f' : Option Node → Parser Node} {noIn : Bool} {stop : Punct}
    (hf : ∀ part, Advances (limit + 1) true false (f part) (f' part) fun _ => true) :
    Advances (limit + 1) true false (do
      let part ← if ← sees stop then pure none else some <$> g.expression noIn
      f part) (do
      let part ← if ← sees stop then pure none else some <$> g'.expression noIn
      f' part) fun _ => true := by
  refine .sees ?_ (.mapped (h.expression noIn).deeper fun part => hf (some part))
  exact (hf none).mono id nofun fun _ => id

/-- The first semicolon is taken before anything is read. -/
theorem forLoopRest (noIn : Bool) (init : Option Node) :
    Takes (limit + 1) (g.forLoopRest noIn init) (g'.forLoopRest noIn init) := by
  unfold Grammar.forLoopRest
  refine .bind .expect fun _ => h.loopPart fun test => ?_
  refine .bind .expect fun _ => h.loopPart fun step => ?_
  exact .bind .expect fun _ => .done (h.statement noIn).deeper

/-- The keyword has been seen and is taken before the head is read. -/
theorem loop (noIn : Bool) :
    Advances (limit + 1) false true (g.loop noIn) (g'.loop noIn) fun _ => true := by
  unfold Grammar.loop
  refine .bind .advance fun _ => .seesName (fails_unsupported _).advances_bind ?_
  refine .bind .expect fun _ => .bind h.loopStart fun init => ?_
  cases init with
  | none => exact .watch (watches_seesName _) fun _ => (h.forLoopRest noIn none).anywhere
  | some left =>
      refine .seesName (.watch (watches_seesName _) fun _ => h.forEachRest noIn left true) ?_
      exact .seesName (h.forEachRest noIn left false) (h.forLoopRest noIn _).anywhere

/-- Handler and finalizer may be missing; each takes its keyword before its block. -/
theorem tryRest (noIn : Bool) (body : Node) (param handler : Option Node) :
    Advances (limit + 1) true false (g.tryRest noIn body param handler)
      (g'.tryRest noIn body param handler) fun _ => true := by
  unfold Grammar.tryRest
  refine .eatName (.mapped (h.block noIn).anywhere fun finalizer => ?_) (.given ?_)
  · exact .ite (fun _ => (fails_expected _).advances) fun _ => .pure fun _ => rfl
  · exact .ite (fun _ => (fails_expected _).advances) fun _ => .pure fun _ => rfl

/-- The keyword has been seen and is taken before the block is read. -/
theorem tryCatch (noIn : Bool) :
    Advances (limit + 1) false true (g.tryCatch noIn) (g'.tryCatch noIn) fun _ => true := by
  unfold Grammar.tryCatch
  refine .bind .advance fun _ => .bind (h.block noIn).anywhere fun body => .eatName ?_ ?_
  · refine .bind advances_handlerParam fun param => .bind (h.block noIn).anywhere fun handler => ?_
    exact h.tryRest noIn body param (some handler)
  · exact h.tryRest noIn body none none

/-- The one statement read at its own level: its first rule takes a word. -/
theorem expressionStatement (noIn : Bool) :
    Takes (limit + 1) (g.expressionStatement noIn) (g'.expressionStatement noIn) :=
  .bind (takes_expressionOf (h.assignmentRule noIn)) fun _ =>
    .bind advances_statementEnd fun _ => .pure fun _ => rfl

/-- The word has been seen, and every way that does not fail takes it. -/
theorem wordStatement (noIn : Bool) (word : String) :
    Advances (limit + 1) false true (g.wordStatement noIn word) (g'.wordStatement noIn word)
      fun _ => true := by
  unfold Grammar.wordStatement
  split
  · exact (h.function .declaration).anywhere
  · exact (h.classDef false).anywhere
  · exact h.ifElse noIn
  · exact h.loop noIn
  · refine .bind .advance fun _ => .bind h.condition.anywhere fun _ => ?_
    exact .done (h.statement noIn).deeper
  · refine .bind .advance fun _ => .bind (h.statement noIn).deeper fun body => ?_
    refine .eatName ?_ (fails_expected _).advances_bind
    refine .bind h.condition.anywhere fun test => ?_
    exact .mapped Advances.eats fun _ => .pure fun _ => rfl
  · have hReturn : ∀ argument, Advances (limit + 1) true false
        (do statementEnd; return Node.returns argument)
        (do statementEnd; return Node.returns argument) fun _ => true :=
      fun argument => .bind advances_statementEnd fun _ => .pure fun _ => rfl
    refine .bind .advance fun _ => .watch (watches_sees _) fun _ => ?_
    refine .watch watches_mayEnd fun _ => ?_
    refine .ite (fun _ => .given (hReturn none)) fun _ => ?_
    exact .mapped (h.expression noIn).deeper fun e => hReturn (some e)
  · exact advances_jump _
  · exact advances_jump _
  · refine .bind .advance fun _ => .bind (h.expression noIn).deeper fun _ => ?_
    exact .bind advances_statementEnd fun _ => .pure fun _ => rfl
  · exact h.tryCatch noIn
  · exact (fails_unsupported _).advances
  · exact (fails_unsupported _).advances
  · exact (fails_unsupported _).advances
  · exact (fails_unsupported _).advances
  · exact (fails_unsupported _).advances
  · refine .watch (signAhead_run 1 _) fun _ => .ite (fun _ => (fails_unsupported _).advances) ?_
    exact fun _ => (h.expressionStatement noIn).anywhere

/-- Every way to read a statement takes the word that it is chosen by. -/
theorem statementRule (noIn : Bool) :
    Takes (limit + 1) (g.statementRule noIn) (g'.statementRule noIn) := by
  unfold Grammar.statementRule
  refine .next fun w _ => ?_
  split
  · exact (h.block noIn).anywhere
  · exact .bind .advance fun _ => .pure fun _ => rfl
  · split
    · refine .bind (h.declaration noIn _) fun _ => ?_
      exact .bind advances_statementEnd fun _ => .pure fun _ => rfl
    · exact h.wordStatement noIn _
  · exact (h.expressionStatement noIn).anywhere

/-- A level more is good for one word more. -/
theorem lifted : g.lifted.Linked (limit + 1) g'.lifted where
  statement := h.statementRule
  assignment := h.assignmentRule
  binary := h.binaryRule
  unary := h.unaryRule
  call := h.callRule
  constructed := h.constructedRule

end Linked

/-- No stream is lighter than nothing. -/
theorem linked_zero (g g' : Grammar) : g.Linked 0 g' where
  statement _ := fun _ _ hLight => absurd hLight (Nat.not_lt_zero _)
  assignment _ := fun _ _ hLight => absurd hLight (Nat.not_lt_zero _)
  binary _ _ := fun _ _ hLight => absurd hLight (Nat.not_lt_zero _)
  unary := fun _ _ hLight => absurd hLight (Nat.not_lt_zero _)
  call := fun _ _ hLight => absurd hLight (Nat.not_lt_zero _)
  constructed := fun _ _ hLight => absurd hLight (Nat.not_lt_zero _)

/-- So many levels of rules hide what they are built on from lighter streams. -/
theorem linked_iterate (g g' : Grammar) (n : Nat) :
    (Grammar.lifted^[n] g).Linked n (Grammar.lifted^[n] g') := by
  induction n with
  | zero => exact linked_zero g g'
  | succ n ih =>
      rw [Function.iterate_succ_apply', Function.iterate_succ_apply']
      exact ih.lifted

end Grammar

end CodeShape
