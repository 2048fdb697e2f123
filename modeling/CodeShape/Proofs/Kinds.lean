import CodeShape.Proofs.Folding
import CodeShape.Proofs.Forming
import CodeShape.Proofs.Wording

/-!
What stands in which slot. The kind of a node says which places it may stand in; a node is fitted if
all its slots hold nodes of kinds that the grammar has there. Programs are fitted throughout, and so
they are after their constants are folded.
-/
namespace CodeShape

namespace Node

def isStatement : Node → Bool
  | block _ | expr _ | empty | ifElse _ _ _ | forLoop _ _ _ _ | forEach _ _ _ _ | whileLoop _ _
  | doWhile _ _ | returns _ | breaks | continues | throws _ | tryCatch _ _ _ _ | declaration _ _
  | function .declaration _ _ _ | classDef _ _ _ false => true
  | _ => false

/-- The kinds of expressions. What stands in lists only is not among them: neither elements that are
spread nor elements that are left out. -/
def isExpression : Node → Bool
  | function .expression _ _ _ | function .arrow _ _ _ | classDef _ _ _ true | assign _ _ _
  | update _ _ _ | binary _ _ _ | logical _ _ _ | unary _ _ | conditional _ _ _ | call _ _
  | construct _ _ | member _ _ _ | sequence _ | array _ | object _ | template _ _ | literal _
  | ident _ | this => true
  | _ => false

/-- A function expression without a name, as methods have. -/
def isAnonymous : Node → Bool
  | function .expression none _ _ => true
  | _ => false

end Node

/-- The place takes nodes of this kind. -/
def Place.takes : Place → Node → Bool
  | statement, n => n.isStatement
  | block, n => n.isBlock
  | declaration, n => n.isDeclaration
  | declarator, .declarator _ _ => true
  | binding, .ident _ => true
  | start, n => n.isDeclaration || n.isExpression
  | parameter, .ident _ | parameter, .withDefault (.ident _) _
  | parameter, .spread (.ident _) => true
  | expression _, n => n.isExpression
  | arrowBody, n => n.isBlock || n.isExpression
  | argument, .spread _ => true
  | argument, n => n.isExpression
  | element, .spread _ | element, .hole => true
  | element, n => n.isExpression
  | key true, n => n.isExpression
  | key false, n => n.namesMethod
  | property, .property _ _ _ _ _ _ | property, .spread _ => true
  | method, .method _ _ _ _ => true
  | _, _ => false

namespace Node

/-- Every slot of the node holds what its place takes, and there are as many children as there have
to be. Nothing takes a wildcard, and a wildcard is not fitted by itself. -/
def fitted : Node → Bool
  | program body | block body => body.all Place.statement.takes
  | expr e => e.isExpression
  | ifElse test consequent alternate =>
    test.isExpression && consequent.isStatement && alternate.all isStatement
  | forLoop init test step body =>
    init.all Place.start.takes && test.all isExpression && step.all isExpression &&
      body.isStatement
  | forEach left right body _ =>
    Place.start.takes left && right.isExpression && body.isStatement
  | whileLoop test body | doWhile body test => test.isExpression && body.isStatement
  | returns argument => argument.all isExpression
  | throws argument => argument.isExpression
  | tryCatch body param handler finalizer =>
    body.isBlock && param.all Place.binding.takes && handler.all isBlock &&
      finalizer.all isBlock && (handler.isSome || finalizer.isSome) &&
      (param.isNone || handler.isSome)
  | declaration _ declarators => !declarators.isEmpty && declarators.all Place.declarator.takes
  | declarator id init => Place.binding.takes id && init.all isExpression
  | function form id params body =>
    id.all Place.binding.takes && (form != .declaration || id.isSome) &&
      (form != .arrow || id.isNone) && params.all Place.parameter.takes &&
      (body.isBlock || (form == .arrow && body.isExpression))
  | classDef id superclass members expression =>
    id.all Place.binding.takes && (expression || id.isSome) && superclass.all isExpression &&
      members.all Place.method.takes
  | method key value _ _ => key.isExpression && value.isAnonymous
  | assign _ left right => Grammar.isTarget left && right.isExpression
  | update _ _ argument => Grammar.isTarget argument
  | binary _ left right | logical _ left right => left.isExpression && right.isExpression
  | unary _ argument | spread argument => argument.isExpression
  | conditional test consequent alternate =>
    test.isExpression && consequent.isExpression && alternate.isExpression
  | call callee arguments | construct callee arguments =>
    callee.isExpression && arguments.all Place.argument.takes
  | member owner key computed =>
    owner.isExpression && key.isExpression && (computed || key.ident?.isSome)
  | sequence items => decide (2 ≤ items.length) && items.all isExpression
  | array elements => elements.all Place.element.takes
  | object members => members.all Place.property.takes
  | property key value kind computed shorthand isMethod =>
    (Place.key computed).takes key && value.isExpression &&
      (!shorthand || (key.ident?.isSome && value.ident? == key.ident?)) &&
      ((kind == .init && !isMethod) || value.isAnonymous)
  | template quasis expressions =>
    quasis.length == expressions.length + 1 && expressions.all isExpression
  | withDefault left right => Place.binding.takes left && right.isExpression
  | empty | breaks | continues | literal _ | ident _ | this | hole => true
  | wildcard _ => false

/-- A program that is fitted throughout. -/
structure IsProgram (t : Node) : Prop where
  exists_body : ∃ body, t = .program body
  fitted_of_mem : ∀ n ∈ t.descendants, n.fitted = true

end Node

namespace Place

/-- Any expression may stand in a list. -/
theorem argument_takes {n : Node} (h : n.isExpression = true) : argument.takes n = true := by
  cases n with
  | spread => rfl
  | _ => exact h

theorem element_takes {n : Node} (h : argument.takes n = true) : element.takes n = true := by
  cases n with
  | hole => rfl
  | _ => exact h

/-- The name of a member is an expression, computed or not. -/
theorem isExpression_of_key {computed : Bool} {n : Node} (h : (key computed).takes n = true) :
    n.isExpression = true := by
  cases computed with
  | true => exact h
  | false =>
      cases n with
      | ident | literal => rfl
      | _ => cases h

end Place

/-- All nodes in the slot are formed for its place. -/
def FormedSlot (slot : Field Node) : Prop := ∃ place, ∀ c ∈ slot.toList, Formed place c

namespace FormedSlot

variable {place : Place} {n : Node} {n? : Option Node}

theorem seq {pairing : Pairing} {ns : List Node} (h : ∀ n ∈ ns, Formed place n) :
    FormedSlot (.seq pairing ns) := ⟨place, h⟩

theorem one (h : Formed place n) : FormedSlot (.one n) := ⟨place, List.forall_mem_singleton.2 h⟩

theorem body (h : Formed place n) : FormedSlot (.stmt (some n)) :=
  ⟨place, List.forall_mem_singleton.2 h⟩

theorem given (h : Formed place n) : FormedSlot (.opt (some n)) :=
  ⟨place, List.forall_mem_singleton.2 h⟩

theorem opt (h : ∀ n ∈ n?, Formed place n) : FormedSlot (.opt n?) :=
  ⟨place, fun c hc => h c (Option.mem_toList.1 hc)⟩

theorem stmt (h : ∀ n ∈ n?, Formed place n) : FormedSlot (.stmt n?) :=
  ⟨place, fun c hc => h c (Option.mem_toList.1 hc)⟩

theorem pair {f g : Field Node} (hf : FormedSlot f) (hg : FormedSlot g) :
    ∀ slot ∈ [f, g], FormedSlot slot :=
  List.forall_mem_cons.2 ⟨hf, List.forall_mem_singleton.2 hg⟩

end FormedSlot

namespace Formed

variable {place : Place} {n : Node}

/-- What is formed for a place is of a kind that the place takes. -/
theorem takes (h : Formed place n) : place.takes n = true := by
  induction h with
  | blockStatement h ih => cases h; rfl
  | declarationStatement h ih => cases h; rfl
  | startDeclaration _ ih => exact Bool.or_eq_true_iff.2 (.inl ih)
  | startExpression _ ih => exact Bool.or_eq_true_iff.2 (.inr ih)
  | arrowBlock _ ih => exact Bool.or_eq_true_iff.2 (.inl ih)
  | arrowExpression _ ih => exact Bool.or_eq_true_iff.2 (.inr ih)
  | parameter h ih => cases h; rfl
  | withDefault h => cases h; rfl
  | restParameter h => cases h; rfl
  | argument _ ih => exact Place.argument_takes ih
  | element _ ih => exact Place.element_takes ih
  | computedKey _ ih => exact ih
  | _ => rfl

theorem all_takes {ns : List Node} (h : ∀ n ∈ ns, Formed place n) : ns.all place.takes = true :=
  List.all_eq_true.2 fun n hn => (h n hn).takes

theorem optional_takes {n? : Option Node} (h : ∀ n ∈ n?, Formed place n) :
    n?.all place.takes = true := by
  cases n? with
  | none => rfl
  | some n => exact (h n rfl).takes

/-- The function of a method fits wherever methods are. -/
theorem anonymous {params : List Node} {body : Node} (hParams : ∀ n ∈ params, Formed .parameter n)
    (hBody : Formed .block body) :
    Formed (.expression false) (.function .expression none params body) :=
  .function nofun hParams hBody

/-- The slots of a formed node hold what they should. -/
theorem fitted (h : Formed place n) : n.fitted = true := by
  induction h with
  | block hBody => exact all_takes hBody
  | expr h => exact h.takes
  | ifElse hTest hConsequent hAlternate =>
      simp only [Node.fitted, Bool.and_eq_true]
      exact ⟨⟨hTest.takes, hConsequent.takes⟩, optional_takes hAlternate⟩
  | forLoop hInit hTest hStep hBody =>
      simp only [Node.fitted, Bool.and_eq_true]
      exact ⟨⟨⟨optional_takes hInit, optional_takes hTest⟩, optional_takes hStep⟩, hBody.takes⟩
  | forEach hLeft hRight hBody =>
      simp only [Node.fitted, Bool.and_eq_true]
      exact ⟨⟨hLeft.takes, hRight.takes⟩, hBody.takes⟩
  | whileLoop hTest hBody | doWhile hBody hTest =>
      simp only [Node.fitted, Bool.and_eq_true]
      exact ⟨hTest.takes, hBody.takes⟩
  | returns h => exact optional_takes h
  | throws h | spread h | spreadProperty h | unary h => exact h.takes
  | restParameter h => cases h; rfl
  | @tryCatch body param handler finalizer hBody hParam hHandler hFinalizer hCatch hSome =>
      simp only [Node.fitted, Bool.and_eq_true]
      refine ⟨⟨⟨⟨⟨hBody.takes, optional_takes hParam⟩, optional_takes hHandler⟩,
        optional_takes hFinalizer⟩, Bool.or_eq_true_iff.2 hSome⟩, ?_⟩
      cases handler with
      | none => rw [hCatch rfl]; rfl
      | some => exact Bool.or_true _
  | functionDeclaration hId hParams hBody =>
      simp only [Node.fitted, Bool.and_eq_true]
      exact ⟨⟨⟨⟨hId.takes, rfl⟩, rfl⟩, all_takes hParams⟩, Bool.or_eq_true_iff.2 (.inl hBody.takes)⟩
  | function hId hParams hBody =>
      simp only [Node.fitted, Bool.and_eq_true]
      exact ⟨⟨⟨⟨optional_takes hId, rfl⟩, rfl⟩, all_takes hParams⟩,
        Bool.or_eq_true_iff.2 (.inl hBody.takes)⟩
  | arrow hParams hBody =>
      simp only [Node.fitted, Bool.and_eq_true]
      exact ⟨⟨⟨⟨rfl, rfl⟩, rfl⟩, all_takes hParams⟩, hBody.takes⟩
  | classDeclaration hId hSuperclass hMembers =>
      simp only [Node.fitted, Bool.and_eq_true]
      exact ⟨⟨⟨hId.takes, rfl⟩, optional_takes hSuperclass⟩, all_takes hMembers⟩
  | classExpression hId hSuperclass hMembers =>
      simp only [Node.fitted, Bool.and_eq_true]
      exact ⟨⟨⟨optional_takes hId, rfl⟩, optional_takes hSuperclass⟩, all_takes hMembers⟩
  | declaration hNonempty hDeclarators =>
      simp only [Node.fitted, Bool.and_eq_true]
      exact ⟨by simpa using hNonempty, all_takes hDeclarators⟩
  | declarator hId hInit =>
      simp only [Node.fitted, Bool.and_eq_true]
      exact ⟨hId.takes, optional_takes hInit⟩
  | withDefault hLeft hRight =>
      simp only [Node.fitted, Bool.and_eq_true]
      exact ⟨hLeft.takes, hRight.takes⟩
  | template hLength _ hExpressions =>
      simp only [Node.fitted, Bool.and_eq_true]
      exact ⟨beq_iff_eq.2 hLength, all_takes hExpressions⟩
  | array h | object h => exact all_takes h
  | call hCallee hArguments | construct hCallee hArguments =>
      simp only [Node.fitted, Bool.and_eq_true]
      exact ⟨hCallee.takes, all_takes hArguments⟩
  | member hOwner =>
      simp only [Node.fitted, Bool.and_eq_true]
      exact ⟨⟨hOwner.takes, rfl⟩, rfl⟩
  | computedMember hOwner hKey =>
      simp only [Node.fitted, Bool.and_eq_true]
      exact ⟨⟨hOwner.takes, hKey.takes⟩, rfl⟩
  | assign hTarget _ hRight =>
      simp only [Node.fitted, Bool.and_eq_true]
      exact ⟨hTarget, hRight.takes⟩
  | update hTarget => exact hTarget
  | binary hLeft hRight | logical hLeft hRight =>
      simp only [Node.fitted, Bool.and_eq_true]
      exact ⟨hLeft.takes, hRight.takes⟩
  | conditional hTest hConsequent hAlternate =>
      simp only [Node.fitted, Bool.and_eq_true]
      exact ⟨⟨hTest.takes, hConsequent.takes⟩, hAlternate.takes⟩
  | sequence hLength hItems =>
      simp only [Node.fitted, Bool.and_eq_true]
      exact ⟨decide_eq_true hLength, all_takes hItems⟩
  | shorthand => simp [Node.fitted, Place.takes, Node.isExpression, Node.namesMethod, Node.ident?]
  | property hKey hValue =>
      simp only [Node.fitted, Bool.and_eq_true]
      exact ⟨⟨⟨hKey.takes, hValue.takes⟩, rfl⟩, rfl⟩
  | methodProperty hKey =>
      simp only [Node.fitted, Bool.and_eq_true]
      exact ⟨⟨⟨hKey.takes, rfl⟩, rfl⟩, Bool.or_true _⟩
  | method hKey =>
      simp only [Node.fitted, Bool.and_eq_true]
      exact ⟨Place.isExpression_of_key hKey.takes, rfl⟩
  | blockStatement _ ih | declarationStatement _ ih | startDeclaration _ ih | startExpression _ ih
  | parameter _ ih | arrowBlock _ ih | arrowExpression _ ih | argument _ ih | element _ ih
  | computedKey _ ih => exact ih
  | _ => rfl

/-- The slots of a formed node hold formed nodes. -/
theorem slots (h : Formed place n) : ∀ slot ∈ n.fields, FormedSlot slot := by
  induction h with
  | blockStatement _ ih | declarationStatement _ ih | startDeclaration _ ih | startExpression _ ih
  | parameter _ ih | arrowBlock _ ih | arrowExpression _ ih | argument _ ih | element _ ih
  | computedKey _ ih => exact ih
  | empty | breaks | continues | binding | ident | this | number | string | bool | null | hole
  | nameKey | numberKey | stringKey => exact nofun
  | block hs | declaration _ hs | array hs | object hs | template _ _ hs | sequence _ hs =>
      exact List.forall_mem_singleton.2 (.seq hs)
  | expr h | throws h | spread h | restParameter h | spreadProperty h | update _ h | unary h =>
      exact List.forall_mem_singleton.2 (.one h)
  | returns h => exact List.forall_mem_singleton.2 (.opt h)
  | binary h₁ h₂ | logical h₁ h₂ | assign _ h₁ h₂ | withDefault h₁ h₂ | computedMember h₁ h₂
  | property h₁ h₂ =>
      exact FormedSlot.pair (.one h₁) (.one h₂)
  | member h₁ hName => exact FormedSlot.pair (.one h₁) (.one (.nameKey hName))
  | shorthand hName => exact FormedSlot.pair (.one (.nameKey hName)) (.one (.nameKey hName))
  | methodProperty h hParams hBody | method h hParams hBody =>
      exact FormedSlot.pair (.one h) (.one (anonymous hParams hBody))
  | whileLoop h₁ h₂ => exact FormedSlot.pair (.one h₁) (.body h₂)
  | doWhile h₁ h₂ => exact FormedSlot.pair (.body h₁) (.one h₂)
  | declarator h₁ h₂ => exact FormedSlot.pair (.one h₁) (.opt h₂)
  | call h hs | construct h hs => exact FormedSlot.pair (.one h) (.seq hs)
  | conditional h₁ h₂ h₃ =>
      exact List.forall_mem_cons.2 ⟨.one h₁, FormedSlot.pair (.one h₂) (.one h₃)⟩
  | forEach h₁ h₂ h₃ =>
      exact List.forall_mem_cons.2 ⟨.one h₁, FormedSlot.pair (.one h₂) (.body h₃)⟩
  | ifElse h₁ h₂ h₃ =>
      exact List.forall_mem_cons.2 ⟨.one h₁, FormedSlot.pair (.body h₂) (.stmt h₃)⟩
  | forLoop h₁ h₂ h₃ h₄ =>
      exact List.forall_mem_cons.2 ⟨.opt h₁, List.forall_mem_cons.2 ⟨.opt h₂,
        FormedSlot.pair (.opt h₃) (.body h₄)⟩⟩
  | tryCatch h₁ h₂ h₃ h₄ =>
      exact List.forall_mem_cons.2 ⟨.one h₁, List.forall_mem_cons.2 ⟨.opt h₂,
        FormedSlot.pair (.opt h₃) (.opt h₄)⟩⟩
  | functionDeclaration h₁ h₂ h₃ =>
      exact List.forall_mem_cons.2 ⟨.given h₁, FormedSlot.pair (.seq h₂) (.one h₃)⟩
  | function h₁ h₂ h₃ =>
      exact List.forall_mem_cons.2 ⟨.opt h₁, FormedSlot.pair (.seq h₂) (.one h₃)⟩
  | arrow h₂ h₃ =>
      exact List.forall_mem_cons.2 ⟨⟨.binding, nofun⟩, FormedSlot.pair (.seq h₂) (.one h₃)⟩
  | classDeclaration h₁ h₂ h₃ =>
      exact List.forall_mem_cons.2 ⟨.given h₁, FormedSlot.pair (.opt h₂) (.seq h₃)⟩
  | classExpression h₁ h₂ h₃ =>
      exact List.forall_mem_cons.2 ⟨.opt h₁, FormedSlot.pair (.opt h₂) (.seq h₃)⟩

/-- All nodes of a formed tree are fitted. -/
theorem fitted_of_mem_descendants (h : Formed place n) : ∀ m ∈ n.descendants, m.fitted = true := by
  induction hSize : sizeOf n using Nat.strongRecOn generalizing place n with
  | ind size ih =>
      intro m hm
      obtain rfl | ⟨c, hc, hm⟩ := Node.mem_descendants_iff.1 hm
      · exact h.fitted
      · obtain ⟨slot, hSlot, hChild⟩ := List.mem_flatMap.1 hc
        obtain ⟨place, hFormed⟩ := h.slots slot hSlot
        exact ih _ (hSize ▸ Node.sizeOf_lt_of_mem_children hc) (hFormed c hChild) rfl m hm

end Formed

namespace Node

/-- The node with its own slots kept and what is in them folded. -/
def foldedBelow (n : Node) : Node := n.label.build (n.fields.map (Field.map foldConstants))

/-- What collapses is a literal. -/
theorem isLiteral_of_collapsed? {n m : Node} (h : n.collapsed? = some m) : ∃ l, m = .literal l := by
  have hSign : ∀ {argument : Node} {sign : Node → Node},
      (∀ value raw, ∃ l, sign (.literal ⟨.number value, raw⟩) = .literal l) →
      (if argument.number?.isSome then some (sign argument) else none) = some m →
      ∃ l, m = .literal l := by
    intro argument sign hLiteral h
    split at h
    · next hNumber =>
        cases h
        unfold number? at hNumber
        split at hNumber
        · exact hLiteral _ _
        · cases hNumber
    · cases h
  unfold collapsed? at h
  split at h
  · exact hSign (fun _ _ => ⟨_, rfl⟩) h
  · exact hSign (fun _ _ => ⟨_, rfl⟩) h
  · obtain ⟨x, -, h⟩ := Option.bind_eq_some_iff.1 h
    obtain ⟨y, -, h⟩ := Option.bind_eq_some_iff.1 h
    obtain ⟨value, -, h⟩ := Option.bind_eq_some_iff.1 h
    cases h
    exact ⟨_, rfl⟩
  · cases h

/-- Folding makes a literal of an operation, or keeps the node and goes on below it. -/
theorem foldConstants_cases (n : Node) :
    (n.label.isOperation = true ∧ ∃ l, n.foldConstants = .literal l) ∨
      n.foldConstants = n.foldedBelow := by
  rw [foldConstants_eq]
  cases hCollapsed : n.collapsed? with
  | none => exact .inr rfl
  | some m =>
      refine .inl ⟨?_, isLiteral_of_collapsed? hCollapsed⟩
      by_contra hNot
      rw [collapsed?_of_not_operation (by simpa using hNot)] at hCollapsed
      cases hCollapsed

theorem foldConstants_ident (name : String) : (ident name).foldConstants = ident name := by
  rw [foldConstants_eq]
  rfl

/-- Folding below a node leaves it a statement or none. -/
theorem isStatement_foldedBelow (n : Node) : n.foldedBelow.isStatement = n.isStatement := by
  cases n with
  | function form => cases form <;> rfl
  | classDef _ _ _ expression => cases expression <;> rfl
  | _ => rfl

theorem isExpression_foldedBelow (n : Node) : n.foldedBelow.isExpression = n.isExpression := by
  cases n with
  | function form => cases form <;> rfl
  | classDef _ _ _ expression => cases expression <;> rfl
  | _ => rfl

end Node

namespace Place

/-- Whether a place takes a node does not depend on what is below the node, parameters apart. -/
theorem takes_foldedBelow {place : Place} (hPlace : place ≠ .parameter) (n : Node) :
    place.takes n.foldedBelow = place.takes n := by
  have hExpression := n.isExpression_foldedBelow
  cases place with
  | parameter => contradiction
  | statement => exact n.isStatement_foldedBelow
  | expression => exact hExpression
  | start | arrowBody | argument | element =>
      cases n with
      | function | classDef => exact hExpression
      | _ => rfl
  | key computed =>
      cases computed with
      | true => exact hExpression
      | false => cases n <;> rfl
  | _ => cases n <;> rfl

/-- Places that take operations take literals. -/
theorem takes_literal {place : Place} {n : Node} (hOperation : n.label.isOperation = true)
    (h : place.takes n = true) (l : Literal) : place.takes (.literal l) = true := by
  cases n with
  | unary | binary =>
      cases place with
      | key computed =>
          cases computed with
          | true => rfl
          | false => cases h
      | _ => first | rfl | cases h
  | _ => cases hOperation

theorem parameter_takes_foldedBelow {n : Node} (h : parameter.takes n = true) :
    parameter.takes n.foldedBelow = true := by
  have hIdent := Node.foldConstants_ident
  cases n with
  | ident => rfl
  | withDefault left right =>
      cases left with
      | ident name =>
          change parameter.takes (.withDefault (Node.ident name).foldConstants _) = true
          rw [hIdent]
          rfl
      | _ => cases h
  | spread argument =>
      cases argument with
      | ident name =>
          change parameter.takes (.spread (Node.ident name).foldConstants) = true
          rw [hIdent]
          rfl
      | _ => cases h
  | _ => cases h

/-- A place takes a node still after the node's constants are folded. -/
theorem takes_foldConstants (place : Place) {n : Node} (h : place.takes n = true) :
    place.takes n.foldConstants = true := by
  obtain ⟨hOperation, l, hEq⟩ | hEq := n.foldConstants_cases
  · rw [hEq]
    exact takes_literal hOperation h l
  · rw [hEq]
    by_cases hPlace : place = .parameter
    · subst hPlace
      exact parameter_takes_foldedBelow h
    · rw [takes_foldedBelow hPlace, h]

theorem all_takes_foldConstants (place : Place) {ns : List Node} (h : ns.all place.takes = true) :
    (ns.map Node.foldConstants).all place.takes = true := by
  rw [List.all_map]
  exact List.all_eq_true.2 fun n hn => place.takes_foldConstants (List.all_eq_true.1 h n hn)

theorem optional_takes_foldConstants (place : Place) {n? : Option Node}
    (h : n?.all place.takes = true) : (n?.map Node.foldConstants).all place.takes = true := by
  cases n? with
  | none => rfl
  | some n => exact place.takes_foldConstants h

end Place

namespace Node

/-- A target stays one when it is folded. -/
theorem isTarget_foldConstants {n : Node} (h : Grammar.isTarget n = true) :
    Grammar.isTarget n.foldConstants = true := by
  cases n with
  | ident | member =>
      rw [foldConstants_eq]
      rfl
  | _ => cases h

theorem isAnonymous_foldConstants {n : Node} (h : n.isAnonymous = true) :
    n.foldConstants.isAnonymous = true := by
  cases n with
  | function form id =>
      rw [foldConstants_eq]
      cases form <;> cases id <;> first | rfl | cases h
  | _ => cases h

/-- Identifiers are not changed. -/
theorem foldConstants_of_ident? {n : Node} {name : String} (h : n.ident? = some name) :
    n.foldConstants = n := by
  cases n with
  | ident => exact foldConstants_ident _
  | _ => cases h

theorem and_of_and {a a' b b' : Bool} (ha : a = true → a' = true) (hb : b = true → b' = true)
    (h : (a && b) = true) : (a' && b') = true := by
  rw [Bool.and_eq_true] at h ⊢
  exact ⟨ha h.1, hb h.2⟩

theorem or_of_or {a a' b b' : Bool} (ha : a = true → a' = true) (hb : b = true → b' = true)
    (h : (a || b) = true) : (a' || b') = true := by
  rw [Bool.or_eq_true] at h ⊢
  exact h.imp ha hb

/-- Folding below a node does not change how many children it has, nor whether their kinds fit. -/
theorem fitted_foldedBelow {n : Node} (h : n.fitted = true) : n.foldedBelow.fitted = true := by
  have hExpression : ∀ {n : Node}, n.isExpression = true → n.foldConstants.isExpression = true :=
    Place.takes_foldConstants (.expression false)
  have hStatement : ∀ {n : Node}, n.isStatement = true → n.foldConstants.isStatement = true :=
    Place.takes_foldConstants .statement
  have hBlock : ∀ {n : Node}, n.isBlock = true → n.foldConstants.isBlock = true :=
    Place.takes_foldConstants .block
  have hOptional : ∀ {n? : Option Node}, n?.all isExpression = true →
      (n?.map foldConstants).all isExpression = true :=
    Place.optional_takes_foldConstants (.expression false)
  have hSome : ∀ {n? : Option Node}, n?.isSome = true → (n?.map foldConstants).isSome = true :=
    fun h => by rwa [Option.isSome_map]
  have hNone : ∀ {n? : Option Node}, n?.isNone = true → (n?.map foldConstants).isNone = true :=
    fun h => by rwa [Option.isNone_map]
  -- folding keeps what a place takes: of one node, of an optional one and of a list
  have hOne := @Place.takes_foldConstants
  have hOpt := @Place.optional_takes_foldConstants
  have hSeq := @Place.all_takes_foldConstants
  cases n with
  | program | block | array | object => exact hSeq _ h
  | expr | throws | unary | spread => exact hExpression h
  | ifElse => exact and_of_and (and_of_and hExpression hStatement) (hOpt .statement) h
  | forLoop =>
      exact and_of_and (and_of_and (and_of_and (hOpt _) hOptional) hOptional) hStatement h
  | forEach => exact and_of_and (and_of_and (hOne _) hExpression) hStatement h
  | whileLoop | doWhile => exact and_of_and hExpression hStatement h
  | returns => exact hOptional h
  | tryCatch =>
      refine and_of_and (and_of_and (and_of_and ?_ (hOpt .block)) (or_of_or hSome hSome))
        (or_of_or hNone hSome) h
      exact and_of_and (and_of_and hBlock (hOpt _)) (hOpt .block)
  | declaration kind declarators =>
      refine and_of_and (fun hNonempty => ?_) (hSeq _) h
      simpa using hNonempty
  | declarator => exact and_of_and (hOne _) hOptional h
  | function =>
      refine and_of_and (and_of_and (and_of_and ?_ (or_of_or id hNone)) (hSeq _))
        (or_of_or hBlock (and_of_and id hExpression)) h
      exact and_of_and (hOpt _) (or_of_or id hSome)
  | classDef =>
      refine and_of_and (and_of_and ?_ hOptional) (hSeq _) h
      exact and_of_and (hOpt _) (or_of_or id hSome)
  | method => exact and_of_and hExpression isAnonymous_foldConstants h
  | assign => exact and_of_and isTarget_foldConstants hExpression h
  | update => exact isTarget_foldConstants h
  | binary | logical => exact and_of_and hExpression hExpression h
  | conditional => exact and_of_and (and_of_and hExpression hExpression) hExpression h
  | call | construct => exact and_of_and hExpression (hSeq _) h
  | member owner key computed =>
      refine and_of_and (and_of_and hExpression hExpression) (or_of_or id fun hName => ?_) h
      obtain ⟨name, hName⟩ := Option.isSome_iff_exists.1 hName
      rw [foldConstants_of_ident? hName, hName]
      rfl
  | sequence items =>
      refine and_of_and (fun hLength => ?_) (hSeq (.expression false)) h
      simpa using hLength
  | property key value =>
      refine and_of_and (and_of_and (and_of_and (hOne _) hExpression) (or_of_or id fun hSame => ?_))
        (or_of_or id isAnonymous_foldConstants) h
      rw [Bool.and_eq_true, beq_iff_eq] at hSame
      obtain ⟨name, hName⟩ := Option.isSome_iff_exists.1 hSame.1
      rw [foldConstants_of_ident? hName, foldConstants_of_ident? (hSame.2.trans hName), hSame.2,
        hName]
      simp
  | template quasis expressions =>
      refine and_of_and (fun hLength => ?_) (hSeq (.expression false)) h
      simpa using hLength
  | withDefault => exact and_of_and (hOne _) hExpression h
  | _ => exact h

/-- Every node of a folded tree stands where its kind may. -/
theorem fitted_foldConstants {n : Node} (h : n.fitted = true) : n.foldConstants.fitted = true := by
  obtain ⟨-, l, hEq⟩ | hEq := n.foldConstants_cases
  · rw [hEq]
    rfl
  · rw [hEq]
    exact fitted_foldedBelow h

/-- The children that are left after folding are the folded children. -/
theorem exists_of_mem_children_foldConstants {n c : Node} (h : c ∈ n.foldConstants.children) :
    ∃ d ∈ n.children, c = d.foldConstants := by
  cases hCollapsed : n.collapsed? with
  | some m =>
      obtain ⟨l, rfl⟩ := isLiteral_of_collapsed? hCollapsed
      rw [foldConstants_eq, hCollapsed] at h
      cases h
  | none =>
      obtain ⟨slot, hSlot, hc⟩ := List.mem_flatMap.1 h
      rw [(view_foldConstants hCollapsed).2] at hSlot
      obtain ⟨slot', hSlot', rfl⟩ := List.mem_map.1 hSlot
      rw [Field.toList_map] at hc
      obtain ⟨d, hd, rfl⟩ := List.mem_map.1 hc
      exact ⟨d, List.mem_flatMap.2 ⟨slot', hSlot', hd⟩, rfl⟩

/-- A tree that is fitted throughout is so after its constants are folded. -/
theorem fitted_of_mem_descendants_foldConstants {t : Node}
    (h : ∀ n ∈ t.descendants, n.fitted = true) :
    ∀ n ∈ t.foldConstants.descendants, n.fitted = true := by
  induction hSize : sizeOf t using Nat.strongRecOn generalizing t with
  | ind size ih =>
      intro n hn
      obtain rfl | ⟨c, hc, hn⟩ := mem_descendants_iff.1 hn
      · exact fitted_foldConstants (h t (mem_descendants_self t))
      · obtain ⟨d, hd, rfl⟩ := exists_of_mem_children_foldConstants hc
        refine ih _ (hSize ▸ sizeOf_lt_of_mem_children hd) (fun m hm => ?_) rfl n hn
        exact h m (mem_descendants_of_child hd hm)

/-- A program stays one when it is folded. -/
theorem IsProgram.foldConstants {t : Node} (h : t.IsProgram) : t.foldConstants.IsProgram where
  exists_body := by
    obtain ⟨body, rfl⟩ := h.exists_body
    exact ⟨_, foldConstants_eq _⟩
  fitted_of_mem := fitted_of_mem_descendants_foldConstants h.fitted_of_mem

/-- What is parsed is a program that is fitted throughout, and stays one when its constants are
folded. -/
theorem isProgram_of_parseProgram {text : String} {t : Node} (h : parseProgram text = .ok t) :
    t.IsProgram ∧ t.foldConstants.IsProgram := by
  obtain ⟨body, rfl, hBody⟩ := formed_of_parseProgram h
  have hProgram : (Node.program body).IsProgram := by
    refine ⟨⟨body, rfl⟩, fun n hn => ?_⟩
    obtain rfl | ⟨c, hc, hn⟩ := mem_descendants_iff.1 hn
    · exact Formed.all_takes hBody
    · have hc : c ∈ body := by simpa [children, fields, Field.toList] using hc
      exact (hBody c hc).fitted_of_mem_descendants n hn
  exact ⟨hProgram, hProgram.foldConstants⟩

/-- A loop over an object with a getter, around a call of an arrow with constants. -/
theorem isProgram_of_parseProgram_getter :
    ∃ text t, text = "for (k in \x7ba, get [-1]() \x7b\x7d\x7d) (x => [, ...x])(-2 * 3)" ∧
      parseProgram text = .ok t ∧ t.IsProgram ∧ t.foldConstants.IsProgram := by
  generalize hText : "for (k in \x7ba, get [-1]() \x7b\x7d\x7d) (x => [, ...x])(-2 * 3)" = text
  have hOk : (parseProgram text).toOption.isSome = true := by
    rw [← hText]
    decide +kernel
  cases hParse : parseProgram text with
  | error fault => simp [hParse, Except.toOption] at hOk
  | ok t => exact ⟨text, t, rfl, hParse, isProgram_of_parseProgram hParse⟩

end Node

end CodeShape
