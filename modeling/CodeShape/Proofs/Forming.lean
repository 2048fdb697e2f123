import CodeShape.Proofs.Ensuring
import CodeShape.Proofs.Formation

/-! What the grammar makes of valid words is formed: every rule gives trees for its place. -/
namespace CodeShape

open Unread CodeShape.Parser

namespace Parser

/-- The identifier that is taken is the next word. -/
theorem ensures_identifier {P : TokenStream → Prop} :
    Ensures P identifier fun name _ =>
      IsIdentifier name ∧ ∃ s, P s ∧ s.next? = some (.name name) := by
  refine .next fun w hw => ?_
  split
  · next name =>
      refine .ite (fun _ => (fails_expected _).ensures) fun hKeyword => ?_
      intro stream a rest hValid hNext hRun
      cases hRun
      refine ⟨fun t ht => hValid t (List.mem_of_mem_tail ht), ⟨?_, by simpa using hKeyword⟩,
        stream, hNext⟩
      cases hw _ rfl with
      | name h => exact h
  · exact (fails_expected _).ensures

/-- What is read as a name is one, and no keyword. -/
theorem gives_identifier : Gives identifier IsIdentifier :=
  (ensures_identifier (P := fun _ => True)).mono (fun _ h => h) fun _ _ h => h.1

/-- What is read as the name of a property is a name. -/
theorem gives_propertyName : Gives propertyName IsName := by
  refine .next fun w hw => ?_
  split
  · refine .skip keeps_advance fun _ => .pure ?_
    cases hw _ rfl with
    | name h => exact h
  · exact (fails_expected _).ensures

end Parser

/-- A statement with what follows it: no `else` that it would have taken. -/
def Settled (n : Node) (s : TokenStream) : Prop :=
  Formed .statement n ∧ (n.dangles = true → s.next? ≠ some (.name "else"))

/-- A function of the form, whose parts are formed. -/
inductive FormedFunction (form : FunctionForm) : (id : Option String) → Node → Prop where
  | mk {id : Option String} {params : List Node} {body : Node}
      (hParams : ∀ n ∈ params, Formed .parameter n) (hBody : Formed .block body) :
      FormedFunction form id (.function form (id.map .ident) params body)

/-- A class whose parts are formed. -/
inductive FormedClass (expression : Bool) : (id : Option String) → Node → Prop where
  | mk {id : Option String} {superclass : Option Node} {members : List Node}
      (hSuperclass : ∀ n ∈ superclass, Formed (.expression true) n)
      (hMembers : ∀ n ∈ members, Formed .method n) :
      FormedClass expression id (.classDef (id.map .ident) superclass members expression)

namespace Grammar

/-- The rules give formed trees. -/
structure Forms (g : Grammar) : Prop where
  statement (noIn : Bool) : Ensures (fun _ => True) (g.statement noIn) Settled
  assignment (noIn : Bool) : Gives (g.assignment noIn) (Formed (.expression false))
  binary (noIn : Bool) (power : Nat) : Gives (g.binary noIn power) (Formed (.expression false))
  unary : Gives g.unary (Formed (.expression false))
  call : Gives g.call (Formed (.expression true))
  constructed : Gives g.constructed (Formed (.expression true))

/-- One expression stands for itself; several make a sequence of items that are none. -/
theorem gives_expressionOf {assignment : Parser Node}
    (h : Gives assignment (Formed (.expression false))) :
    Gives (expressionOf assignment) (Formed (.expression false)) := by
  refine .bind (gives_commaSeparated h) fun items ⟨hNonempty, hItems⟩ => ?_
  split
  · exact .pure (hItems _ List.mem_cons_self)
  · next hNot =>
      refine .pure (.sequence ?_ hItems)
      match items, hNonempty, hNot with
      | [e], _, hNot => exact absurd rfl (hNot e)
      | _ :: _ :: _, _, _ => exact Nat.le_add_left 2 _

/-- A spread stands only where an argument does. -/
theorem gives_spreadable {assignment : Parser Node}
    (h : Gives assignment (Formed (.expression false))) :
    Gives (spreadable assignment) (Formed .argument) :=
  .skip (keeps_eat _) fun _ =>
    .ite (fun _ => .bind h fun _ he => .pure (.spread he)) fun _ => h.mono fun _ => .argument

namespace Forms

variable {g : Grammar} (h : g.Forms)

include h

/-- A block holds statements. -/
theorem block (noIn : Bool) : Gives (g.block noIn) (Formed .block) := by
  refine .skip (keeps_expect _) fun _ => .bind (gives_enclosed (P := Formed .statement) ?_)
    fun body hBody => .pure (.block hBody)
  refine .watch watches_atEnd fun _ => .ite (fun _ => (fails_expected _).ensures) fun _ => ?_
  refine .bind (Q := Formed .statement) ?_ fun n hn => .pure (by simpa using hn)
  exact (h.statement noIn).mono (fun _ hs => hs) fun _ _ hn => hn.1

theorem arguments : Gives g.arguments fun args => ∀ n ∈ args, Formed .argument n :=
  .skip (keeps_expect _) fun _ => gives_listed (gives_spreadable (h.assignment false))

/-- A parameter is a name, a name with a default or a spread name. -/
theorem parameter : Gives g.parameter (Formed .parameter) := by
  refine .watch (seesAny_run _) fun _ => .ite (fun _ => (fails_unsupported _).ensures) fun _ => ?_
  refine .skip (keeps_eat _) fun _ => .ite (fun _ => ?_) fun _ => ?_
  · exact .bind gives_identifier fun _ hName => .pure (.restParameter (.binding hName))
  · refine .bind gives_identifier fun _ hName => .skip (keeps_eat _) fun _ => ?_
    refine .ite (fun _ => ?_) fun _ => .pure (.parameter (.binding hName))
    exact .bind (h.assignment false) fun _ hValue => .pure (.withDefault (.binding hName) hValue)

theorem parameters : Gives g.parameters fun params => ∀ n ∈ params, Formed .parameter n :=
  .skip (keeps_expect _) fun _ => gives_listed h.parameter

/-- A function has parameters and a block for a body. -/
theorem functionRest (form : FunctionForm) (id : Option String) :
    Gives (g.functionRest form id) (FormedFunction form id) :=
  .bind h.parameters fun _ hParams => .bind (h.block false) fun _ hBody => .pure ⟨hParams, hBody⟩

/-- A function with its keyword has a name that is no keyword, and a declaration does have one. -/
theorem function (form : FunctionForm) :
    Gives (g.function form) fun n => ∃ id, FormedFunction form id n ∧
      (∀ name ∈ id, IsIdentifier name) ∧ (form = .declaration → id.isSome = true) := by
  unfold Grammar.function
  refine .skip (keeps_eatName _) fun _ => ?_
  dsimp only
  refine .ite (fun _ => ?_) fun _ => (fails_expected _).bind.ensures
  refine .watch (watches_sees _) fun _ => ?_
  refine .ite (fun _ => (fails_unsupported _).bind.ensures) fun _ => ?_
  refine .watch seesWord_run fun named => .ite (fun _ => ?_) fun hNot => ?_
  · refine .mapped gives_identifier fun name hName => ?_
    exact (h.functionRest form _).mono fun n hn =>
      ⟨some name, hn, by rintro _ ⟨⟩; exact hName, fun _ => rfl⟩
  · refine .given ((h.functionRest form _).mono fun n hn => ⟨none, hn, nofun, fun hForm => ?_⟩)
    simp [hForm] at hNot

/-- A key is a name or a literal, or any expression in brackets. -/
theorem memberKey : Gives g.memberKey fun r => Formed (.key r.2) r.1 := by
  refine .next fun w hw => ?_
  split
  · refine .skip keeps_advance fun _ => .bind (h.assignment false) fun key hKey => ?_
    exact .skip (keeps_expect _) fun _ => .pure (.computedKey hKey)
  · refine .skip keeps_advance fun _ => .pure ?_
    cases hw _ rfl with
    | number hNumber => exact .numberKey hNumber
  · refine .skip keeps_advance fun _ => .pure ?_
    cases hw _ rfl with
    | string hString => exact .stringKey hString
  · exact .bind gives_propertyName fun _ hName => .pure (.nameKey hName)
  · exact (fails_expected _).ensures

omit h in
theorem keeps_eatModifier (word : String) : Gives (eatModifier word) fun _ => True := by
  refine .skip ?_ fun _ => .ite (fun _ => .skip keeps_advance fun _ => .pure trivial) fun _ =>
    .pure trivial
  unfold seesModifier
  refine .watch (p := ahead? 1) (fun _ => rfl) fun w => ?_
  dsimp only
  split
  · exact .skip (.pure trivial) fun _ => .watch (watches_seesName _) fun _ => .pure trivial
  · exact .skip (.pure trivial) fun _ => .watch (watches_seesName _) fun _ => .pure trivial

omit h in
/-- The kind is one of the three that are asked for. -/
theorem memberKind {κ : Type} (get set other : κ) :
    Gives (Grammar.memberKind get set other) fun k => k = get ∨ k = set ∨ k = other := by
  refine .skip (keeps_eatModifier _) fun _ => .ite (fun _ => .pure (.inl rfl)) fun _ => ?_
  refine .skip (keeps_eatModifier _) fun _ => .ite (fun _ => .pure (.inr (.inl rfl))) fun _ => ?_
  exact .pure (.inr (.inr rfl))

/-- A member of an object is a spread, a property, a shorthand or a method. -/
theorem property : Gives g.property (Formed .property) := by
  unfold Grammar.property
  refine .skip (keeps_eat _) fun _ => .ite (fun _ => ?_) fun _ => ?_
  · exact .bind (h.assignment false) fun _ he => .pure (.spreadProperty he)
  · refine .skip ((memberKind _ _ _).mono fun _ _ => trivial) fun kind => ?_
    refine .bind h.memberKey fun ⟨key, computed⟩ hKey => ?_
    refine .watch (watches_sees _) fun _ => .ite (fun _ => ?_) fun _ => ?_
    · refine .bind (h.functionRest .expression none) ?_
      rintro _ ⟨hParams, hBody⟩
      exact .pure (.methodProperty hKey hParams hBody)
    · refine .ite (fun _ => (fails_expected _).ensures) fun hKind => ?_
      obtain rfl : kind = .init := by simpa using hKind
      refine .skip (keeps_eat _) fun _ => .ite (fun _ => ?_) fun _ => ?_
      · exact .bind (h.assignment false) fun _ hValue => .pure (.property hKey hValue)
      · refine .ite (fun hShort => ?_) fun _ => (fails_expected _).ensures
        refine .watch (watches_sees _) fun _ => ?_
        dsimp only
        refine .ite (fun _ => (fails_unsupported _).bind.ensures) fun _ => .pure ?_
        rw [Bool.and_eq_true, Bool.not_eq_true'] at hShort
        obtain ⟨hIdent, rfl⟩ := hShort
        cases hKey with
        | nameKey hName => exact .shorthand hName
        | numberKey => cases hIdent
        | stringKey => cases hIdent

/-- An object has properties for members. -/
theorem object : Gives g.object fun n => ∃ members, n = .object members ∧
    ∀ m ∈ members, Formed .property m :=
  .skip (keeps_expect _) fun _ => .bind (gives_listed h.property) fun members hMembers =>
    .pure ⟨members, rfl, hMembers⟩

/-- An array has elements, some of them left out. -/
theorem array : Gives g.array fun n => ∃ elements, n = .array elements ∧
    ∀ m ∈ elements, Formed .element m := by
  unfold Grammar.array
  refine .skip (keeps_expect _) fun _ => .bind (gives_enclosed (P := Formed .element) ?_)
    fun elements hElements => .pure ⟨elements, rfl, hElements⟩
  refine .skip (keeps_eat _) fun _ => .ite (fun _ => .pure (by simpa using .hole)) fun _ => ?_
  refine .bind (gives_spreadable (h.assignment false)) fun n hn => ?_
  have hDone : Gives (pure [n] : Parser (List Node)) fun as => ∀ m ∈ as, Formed .element m :=
    .pure (by simpa using .element hn)
  refine .watch (watches_sees _) fun _ => ?_
  exact .ite (fun _ => hDone) fun _ => .skip (keeps_expect _) fun _ => hDone

/-- A member of a class is a method, and the constructor by its name where it is neither static nor
an accessor. -/
theorem method : Gives g.method (Formed .method) := by
  unfold Grammar.method
  refine .skip (keeps_eatModifier _) fun isStatic => ?_
  refine .bind (memberKind MethodKind.get .set .method) fun kind hKind => ?_
  refine .watch (watches_sees _) fun _ => ?_
  dsimp only
  refine .ite (fun _ => (fails_unsupported _).bind.ensures) fun _ => ?_
  refine .bind h.memberKey fun ⟨key, computed⟩ hKey => ?_
  refine .watch (watches_sees _) fun _ => ?_
  refine .ite (fun _ => ?_) fun _ => (fails_unsupported _).bind.ensures
  refine .bind (h.functionRest .expression none) ?_
  rintro _ ⟨hParams, hBody⟩
  refine .pure (.method hKey hParams hBody ?_)
  rcases hKind with rfl | rfl | rfl
  · exact .inl (by simp)
  · exact .inr (.inl (by simp))
  · exact .inr (.inr (by simp))

/-- A class has an operand for a superclass and methods for members. -/
theorem classRest (id : Option String) (expression : Bool) {superclass : Option Node}
    (hSuperclass : ∀ n ∈ superclass, Formed (.expression true) n) :
    Gives (do
      expect .openBrace
      let members ← enclosed .closeBrace do
        if ← eat .semicolon then return [] else return [← g.method]
      return .classDef (id.map .ident) superclass members expression)
      (FormedClass expression id) := by
  refine .skip (keeps_expect _) fun _ => .bind (gives_enclosed (P := Formed .method) ?_)
    fun members hMembers => .pure ⟨hSuperclass, hMembers⟩
  refine .skip (keeps_eat _) fun _ => .ite (fun _ => .pure nofun) fun _ => ?_
  exact .bind h.method fun _ hm => .pure (by simpa using hm)

/-- A class with its keyword has a name that is no keyword, and a declaration does have one. -/
theorem classDef (expression : Bool) :
    Gives (g.classDef expression) fun n => ∃ id, FormedClass expression id n ∧
      (∀ name ∈ id, IsIdentifier name) ∧ (expression = false → id.isSome = true) := by
  have hRest : ∀ id : Option String, (∀ name ∈ id, IsIdentifier name) →
      (expression = false → id.isSome = true) → Gives (do
        let superclass ← if ← eatName "extends" then some <$> g.call else pure none
        expect .openBrace
        let members ← enclosed .closeBrace do
          if ← eat .semicolon then return [] else return [← g.method]
        return .classDef (id.map .ident) superclass members expression) fun n =>
        ∃ id, FormedClass expression id n ∧
          (∀ name ∈ id, IsIdentifier name) ∧ (expression = false → id.isSome = true) := by
    intro id hId hSome
    refine .skip (keeps_eatName _) fun _ => ?_
    dsimp only
    refine .ite (fun _ => ?_) fun _ => ?_
    · refine .mapped h.call fun n hn => ?_
      exact (h.classRest id expression (by rintro _ ⟨⟩; exact hn)).mono fun n hn =>
        ⟨id, hn, hId, hSome⟩
    · refine .given ((h.classRest id expression ?_).mono fun n hn => ⟨id, hn, hId, hSome⟩)
      exact nofun
  unfold Grammar.classDef
  refine .skip (keeps_eatName _) fun _ => ?_
  dsimp only
  refine .ite (fun _ => ?_) fun _ => (fails_expected _).bind.ensures
  refine .watch seesWord_run fun _ => .watch (watches_seesName _) fun _ => ?_
  refine .ite (fun _ => ?_) fun _ => .ite (fun hExpression => ?_) fun _ =>
    (fails_expected _).bind.ensures
  · refine .mapped gives_identifier fun name hName => ?_
    exact hRest (some name) (by rintro _ ⟨⟩; exact hName) fun _ => rfl
  · exact .given (hRest none nofun fun hNot => by rw [hExpression] at hNot; cases hNot)

omit h in
/-- An identifier as an expression. Only where more is allowed it may be `await`. -/
theorem identifierExpression {free : Bool} {P : TokenStream → Prop}
    (hP : ∀ s, P s → free = true ∨ s.next? ≠ some (.name "await")) :
    Ensures P (do return .ident (← identifier)) fun n _ => Formed (.expression free) n := by
  refine .bind ensures_identifier fun name => .pure fun _ ⟨hName, s, hs, hNext⟩ => ?_
  refine .ident hName ?_
  rintro rfl
  exact (hP s hs).resolve_right fun hNot => hNot hNext

/-- A word that starts an operand makes a literal, `this`, a function, a class or a name, which is
`await` only where that is free. -/
theorem wordOperand {free : Bool} {P : TokenStream → Prop}
    (hP : ∀ s, P s → free = true ∨ s.next? ≠ some (.name "await")) (text : String) :
    Ensures P (g.wordOperand text) fun n _ => Formed (.expression free) n := by
  unfold Grammar.wordOperand
  split
  · exact Gives.ensures (.skip keeps_advance fun _ => .pure .this)
  · exact Gives.ensures (.skip keeps_advance fun _ => .pure (.bool true))
  · exact Gives.ensures (.skip keeps_advance fun _ => .pure (.bool false))
  · exact Gives.ensures (.skip keeps_advance fun _ => .pure .null)
  · refine ((h.function .expression).mono ?_).ensures
    rintro _ ⟨id, ⟨hParams, hBody⟩, hId, -⟩
    refine .function ?_ hParams hBody
    intro n hn
    obtain ⟨name, hName, rfl⟩ := Option.map_eq_some_iff.1 hn
    exact .binding (hId name hName)
  · refine ((h.classDef true).mono ?_).ensures
    rintro _ ⟨id, ⟨hSuperclass, hMembers⟩, hId, -⟩
    refine .classExpression ?_ hSuperclass hMembers
    intro n hn
    obtain ⟨name, hName, rfl⟩ := Option.map_eq_some_iff.1 hn
    exact .binding (hId name hName)
  · exact (fails_unsupported _).ensures
  · exact (fails_unsupported _).ensures
  · exact identifierExpression hP

/-- An operand without anything after it, `await` among them only where that is free. -/
theorem primary {free : Bool} {P : TokenStream → Prop}
    (hP : ∀ s, P s → free = true ∨ s.next? ≠ some (.name "await")) :
    Ensures P g.primary fun n _ => Formed (.expression free) n := by
  refine .next fun w hw => ?_
  split
  · refine Gives.ensures (.skip keeps_advance fun _ => .pure ?_)
    cases hw _ rfl with
    | number hNumber => exact .number hNumber
  · refine Gives.ensures (.skip keeps_advance fun _ => .pure ?_)
    cases hw _ rfl with
    | string hString => exact .string hString
  · next quasis parts =>
      cases hw _ rfl with
      | template hLength hQuasis hParts =>
          refine Gives.ensures (.skip keeps_advance fun _ => .bind (gives_mapM
            (P := Formed (.expression false)) fun part hPart => ?_) fun es ⟨hSame, hes⟩ => .pure ?_)
          · exact gives_inside (gives_expressionOf (h.assignment false)) (hParts part hPart)
          · exact .template (by rw [hLength, hSame]) hQuasis hes
  · refine Gives.ensures (.skip keeps_advance fun _ => ?_)
    refine .bind (gives_expressionOf (h.assignment false)) fun e he => ?_
    exact .skip (keeps_expect _) fun _ => .pure he.free
  · refine (h.array.mono ?_).ensures
    rintro _ ⟨elements, rfl, hElements⟩
    exact .array hElements
  · refine (h.object.mono ?_).ensures
    rintro _ ⟨members, rfl, hMembers⟩
    exact .object hMembers
  · exact (fails_unsupported _).ensures
  · exact (fails_unsupported _).ensures
  · exact h.wordOperand (fun s hs => hP s hs.1) _
  · exact (fails_expected _).ensures

/-- A member access on a formed object is formed, its key by the dot or by the brackets. -/
theorem memberAccess {free : Bool} {owner : Node} (hOwner : Formed (.expression free) owner) :
    Gives (g.memberAccess owner) (Formed (.expression free)) := by
  refine .skip (keeps_eat _) fun _ => .ite (fun _ => ?_) fun _ => ?_
  · exact .bind gives_propertyName fun _ hName => .pure (.member hOwner hName)
  · refine .skip (keeps_expect _) fun _ => ?_
    refine .bind (gives_expressionOf (h.assignment false)) fun key hKey => ?_
    exact .skip (keeps_expect _) fun _ => .pure (.computedMember hOwner hKey)

/-- A construction or an operand. -/
theorem constructOrPrimary {free : Bool} {P : TokenStream → Prop}
    (hP : ∀ s, P s → free = true ∨ s.next? ≠ some (.name "await")) :
    Ensures P g.constructOrPrimary fun n _ => Formed (.expression free) n := by
  refine .bind (ensures_eatName "new") fun taken => .ite (fun _ => ?_) fun hNot => ?_
  · refine Gives.ensures (.bind h.constructed fun callee hCallee => ?_)
    refine .watch (watches_sees _) fun _ => ?_
    dsimp only
    refine .ite (fun _ => ?_) fun _ => ?_
    · exact .bind h.arguments fun args hArgs => .pure (.construct hCallee hArgs)
    · exact .given (.pure (.construct hCallee nofun))
  · exact (h.primary hP).mono (fun s hs => (hs.2 (by simpa using hNot)).1) fun _ _ hn => hn

/-- What is constructed may be called `await`, as the keyword has been read before it. -/
theorem constructedRule : Gives g.constructedRule (Formed (.expression true)) := by
  refine .bind (h.constructOrPrimary fun _ _ => .inl rfl) fun start hStart => ?_
  refine gives_grow (fun e he => ?_) hStart
  refine .watch (seesAny_run _) fun _ => .ite (fun _ => ?_) fun _ => .pure nofun
  exact .bind (h.memberAccess he) fun _ hn => .pure (by rintro _ ⟨⟩; exact hn)

/-- A chain of calls on a formed operand is formed. The invariant of the chain is that its value so
far is. -/
theorem callRule {free : Bool} {P : TokenStream → Prop}
    (hP : ∀ s, P s → free = true ∨ s.next? ≠ some (.name "await")) :
    Ensures P g.callRule fun n _ => Formed (.expression free) n := by
  refine .andThen (h.constructOrPrimary hP) fun start hStart => ?_
  refine gives_grow (fun e he => .next fun w _ => ?_) hStart
  split
  · exact .bind h.arguments fun _ hArgs => .pure (by rintro _ ⟨⟩; exact .call he hArgs)
  · exact .bind (h.memberAccess he) fun _ hn => .pure (by rintro _ ⟨⟩; exact hn)
  · exact .bind (h.memberAccess he) fun _ hn => .pure (by rintro _ ⟨⟩; exact hn)
  · exact (fails_unsupported _).ensures
  · exact .pure nofun

omit h in
/-- An update is formed on a target only, which is what the rule checks. -/
theorem updateAfter {e : Node} (he : Formed (.expression false) e) :
    Gives (Grammar.updateAfter e) (Formed (.expression false)) := by
  refine .next fun w _ => ?_
  split
  · exact .pure he
  · refine .watch watches_onNewLine fun _ => .ite (fun _ => .pure he) fun _ => ?_
    refine .ite (fun _ => (fails_fail _).ensures) fun hTarget => ?_
    exact .skip keeps_advance fun _ => .pure (.update (by simpa using hTarget) he)

/-- The rule refuses the word `await` before it reads an operand. -/
theorem unaryRule : Gives g.unaryRule (Formed (.expression false)) := by
  unfold Grammar.unaryRule
  refine .watch watches_place fun start => Ensures.next fun w _ => ?_
  refine .watch (watches_seesName _) fun isAwait => ?_
  dsimp only
  refine .ite (fun _ => (fails_unsupported _).bind.ensures) fun hAwait => ?_
  split
  · exact Gives.ensures (.skip keeps_advance fun _ => .bind h.unary fun _ he => .pure (.unary he))
  · refine Gives.ensures (.skip keeps_advance fun _ => .bind h.unary fun e he => ?_)
    exact .ite (fun hTarget => .pure (.update hTarget he)) fun _ => (fails_throw _).ensures
  · refine .andThen (h.callRule fun s hs => .inr fun hNext => hAwait ?_) fun e he => updateAfter he
    exact hs.2.symm.trans (isName_next?.2 hNext)

omit h in
/-- The node that an operator makes of its operands. -/
theorem operator {noIn : Bool} {w : Lexeme} {p : Nat} {make : Node → Node → Node}
    (hw : operator? noIn w = some (p, make)) {left right : Node}
    (hLeft : Formed (.expression false) left) (hRight : Formed (.expression false) right) :
    Formed (.expression false) (make left right) := by
  unfold operator? at hw
  split at hw
  · cases hw
    exact .binary hLeft hRight
  · cases hw
    exact .logical hLeft hRight
  · cases hw
    exact .binary hLeft hRight
  · split at hw
    · cases hw
    · cases hw
      exact .binary hLeft hRight
  · cases hw

/-- Operands that are formed make formed operations. The invariant of the climb is that its left
side is formed. -/
theorem binaryRule (noIn : Bool) (power : Nat) :
    Gives (g.binaryRule noIn power) (Formed (.expression false)) := by
  refine .bind h.unaryRule fun first hFirst => ?_
  refine gives_grow (fun left hLeft => .next fun w _ => ?_) hFirst
  split
  · exact .pure nofun
  · next p make hMake =>
      obtain ⟨w, -, hw⟩ := Option.bind_eq_some_iff.1 hMake
      refine .ite (fun _ => .pure nofun) fun _ => .skip keeps_advance fun _ => ?_
      refine .bind (h.binary noIn _) fun right hRight => .pure ?_
      rintro _ ⟨⟩
      exact operator hw hLeft hRight

theorem conditional (noIn : Bool) :
    Gives (g.conditional noIn) (Formed (.expression false)) := by
  refine .bind (h.binaryRule noIn 1) fun test hTest => ?_
  refine .skip (keeps_eat _) fun _ => .ite (fun _ => ?_) fun _ => .pure hTest
  refine .bind (h.assignment false) fun consequent hConsequent => .skip (keeps_expect _) fun _ => ?_
  exact .bind (h.assignment noIn) fun alternate hAlternate =>
    .pure (.conditional hTest hConsequent hAlternate)

theorem arrow (noIn : Bool) : Gives (g.arrow noIn) (Formed (.expression false)) := by
  have hBody : ∀ params : List Node, (∀ n ∈ params, Formed .parameter n) → Gives (do
      expect .arrow
      let body ← if ← sees .openBrace then g.block noIn else g.assignment false
      return .function .arrow none params body) (Formed (.expression false)) := by
    intro params hParams
    refine .skip (keeps_expect _) fun _ => .watch (watches_sees _) fun _ => ?_
    dsimp only
    refine .ite (fun _ => ?_) fun _ => ?_
    · exact .bind (h.block noIn) fun body hBody => .pure (.arrow hParams (.arrowBlock hBody))
    · exact .bind (h.assignment false) fun body hBody =>
        .pure (.arrow hParams (.arrowExpression hBody))
  unfold Grammar.arrow
  refine .watch (watches_sees _) fun _ => ?_
  dsimp only
  refine .ite (fun _ => .bind h.parameters hBody) fun _ => ?_
  refine .bind gives_identifier fun name hName => .given (hBody _ ?_)
  simpa using .parameter (.binding hName)

/-- An assignment is formed on a target only, which is what the rule checks. -/
theorem assignmentRule (noIn : Bool) :
    Gives (g.assignmentRule noIn) (Formed (.expression false)) := by
  unfold Grammar.assignmentRule
  have hSees : Gives seesArrow fun _ => True := by
    refine .watch (watches_sees _) fun _ => .ite (fun _ => ?_) fun _ => ?_
    · exact .watch watches_get fun _ => .pure trivial
    · exact .watch seesWord_run fun _ => .watch (signAhead_run 1 _) fun _ => .pure trivial
  refine .skip hSees fun _ => .ite (fun _ => h.arrow noIn) fun _ => ?_
  refine .watch (watches_seesName _) fun _ => .watch (nameAhead_run 1 _) fun _ => ?_
  refine .watch (signAhead_run 1 _) fun _ => ?_
  refine .ite (fun _ => (fails_unsupported _).ensures) fun _ => ?_
  refine .watch (watches_seesName _) fun _ => ?_
  refine .ite (fun _ => (fails_unsupported _).ensures) fun _ => .watch watches_place fun _ => ?_
  refine .bind (h.conditional noIn) fun left hLeft => .next fun w _ => ?_
  split
  · exact .pure hLeft
  · refine .ite (fun _ => (fails_unsupported _).ensures) fun _ => ?_
    refine .ite (fun _ => (fails_throw _).ensures) fun hTarget => .skip keeps_advance fun _ => ?_
    exact .bind (h.assignment noIn) fun right hRight =>
      .pure (.assign (by simpa using hTarget) hLeft hRight)

omit h in
/-- A statement that takes no `else`. -/
theorem settled {p : Parser Node} {P : TokenStream → Prop}
    (hp : Gives p fun n => Formed .statement n ∧ n.dangles = false) : Ensures P p Settled :=
  hp.ensures.mono (fun _ hs => hs) fun n s hn => ⟨hn.1, fun h => by rw [hn.2] at h; cases h⟩

omit h in
theorem keeps_mayEnd : Gives mayEnd fun _ => True :=
  .watch (watches_sees _) fun _ => .watch watches_atEnd fun _ => .watch watches_onNewLine fun _ =>
    .pure trivial

omit h in
theorem statementEnd : Gives Grammar.statementEnd fun _ => True := by
  refine .skip (keeps_eat _) fun _ => .ite (fun _ => .pure trivial) fun _ => ?_
  refine .skip keeps_mayEnd fun _ => .ite (fun _ => .pure trivial) fun _ => ?_
  exact (fails_expected _).ensures

/-- A declarator has a name, and an expression if it is initialized. -/
theorem declarator (noIn : Bool) : Gives (g.declarator noIn) (Formed .declarator) := by
  unfold Grammar.declarator
  refine .watch (seesAny_run _) fun _ => .ite (fun _ => (fails_unsupported _).ensures) fun _ => ?_
  refine .bind gives_identifier fun name hName => .skip (keeps_eat _) fun _ => ?_
  dsimp only
  refine .ite (fun _ => .mapped (h.assignment noIn) fun e he => ?_) fun _ => ?_
  · exact .pure (.declarator (.binding hName) (by rintro _ ⟨⟩; exact he))
  · exact .given (.pure (.declarator (.binding hName) nofun))

/-- A declaration has declarators, one at least. -/
theorem declaration (noIn : Bool) (kind : DeclarationKind) :
    Gives (g.declaration noIn kind) (Formed .declaration) :=
  .skip keeps_advance fun _ => .bind (gives_commaSeparated (h.declarator noIn)) fun _ hns =>
    .pure (.declaration hns.1 hns.2)

theorem expression (noIn : Bool) : Gives (g.expression noIn) (Formed (.expression false)) :=
  gives_expressionOf (h.assignment noIn)

theorem condition : Gives g.condition (Formed (.expression false)) :=
  .skip (keeps_expect _) fun _ => .bind (h.expression false) fun _ he =>
    .skip (keeps_expect _) fun _ => .pure he

/-- A consequent that dangles has taken any `else` after it, so only the last branch may leave
one. -/
theorem ifElse (noIn : Bool) : Ensures (fun _ => True) (g.ifElse noIn) Settled := by
  unfold Grammar.ifElse
  refine .andThen keeps_advance fun _ _ => .andThen h.condition fun test hTest => ?_
  refine .bind (h.statement noIn) fun consequent => .bind (ensures_eatName "else") fun taken => ?_
  dsimp only
  refine .ite (fun hTaken => ?_) fun hTaken => ?_
  · refine .pull (F := Formed .statement consequent ∧ consequent.dangles = false) ?_
      fun hFirst => ?_
    · intro s hs
      obtain ⟨s', hSettled, hNext⟩ := hs.1 hTaken
      exact ⟨hSettled.1, by simpa using fun hDangles => hSettled.2 hDangles hNext⟩
    · refine .mapped ((h.statement noIn).mono (fun _ _ => trivial) fun _ _ hs => hs)
        fun alternate => ?_
      refine .pure fun s hs => ⟨.ifElse hTest hFirst.1 ?_ fun _ => hFirst.2, hs.2⟩
      rintro _ ⟨⟩
      exact hs.1
  · refine .pure fun s hs => ?_
    obtain ⟨hSettled, hNext⟩ := hs.2 (by simpa using hTaken)
    exact ⟨.ifElse hTest hSettled.1 nofun nofun, fun _ => hNext⟩

/-- The start of a loop is a declaration or an expression. -/
theorem loopStart : Gives g.loopStart fun init => ∀ n ∈ init, Formed .start n := by
  refine .next fun w _ => ?_
  split
  · exact .pure nofun
  · split
    · refine .map (h.declaration true _) fun n hn => ?_
      rintro _ ⟨⟩
      exact .startDeclaration hn
    · refine .map (h.expression true) fun n hn => ?_
      rintro _ ⟨⟩
      exact .startExpression hn

/-- A loop over keys or values dangles as its body does. -/
theorem forEachRest (noIn : Bool) {left : Node} (hLeft : Formed .start left) (overValues : Bool) :
    Ensures (fun _ => True) (g.forEachRest noIn left overValues) Settled := by
  have hRest : ∀ right : Node, Formed (.expression false) right → Ensures (fun _ => True) (do
      expect .closeParen
      let body ← g.statement noIn
      return .forEach left right body overValues) Settled := by
    intro right hRight
    refine .andThen (keeps_expect _) fun _ _ => .bind (h.statement noIn) fun body => ?_
    exact .pure fun s hs => ⟨.forEach hLeft hRight hs.1, hs.2⟩
  unfold Grammar.forEachRest
  refine .andThen keeps_advance fun _ _ => ?_
  dsimp only
  refine .ite (fun _ => .andThen (h.assignment noIn) hRest) fun _ => ?_
  exact .andThen (h.expression noIn) hRest

/-- A part of a loop head that may be left out. -/
theorem loopPart {P : TokenStream → Prop} {f : Option Node → Parser Node} {noIn : Bool}
    {stop : Punct} {R : Node → TokenStream → Prop} (hf : ∀ part : Option Node,
      (∀ n ∈ part, Formed (.expression false) n) → Ensures (fun _ => True) (f part) R) :
    Ensures P (do
      let part ← if ← sees stop then pure none else some <$> g.expression noIn
      f part) R := by
  refine .watch (watches_sees _) fun _ => ?_
  dsimp only
  refine .ite (fun _ => ?_) fun _ => ?_
  · exact (hf none nofun).mono (fun _ _ => trivial) fun _ _ hs => hs
  · refine .mapped (h.expression noIn).ensures fun e => .pull (fun _ he => he) fun he => ?_
    refine (hf (some e) ?_).mono (fun _ _ => trivial) fun _ _ hs => hs
    rintro _ ⟨⟩
    exact he

/-- A counting loop dangles as its body does. -/
theorem forLoopRest (noIn : Bool) {init : Option Node} (hInit : ∀ n ∈ init, Formed .start n) :
    Ensures (fun _ => True) (g.forLoopRest noIn init) Settled := by
  unfold Grammar.forLoopRest
  refine .andThen (keeps_expect _) fun _ _ => h.loopPart fun test hTest => ?_
  refine .andThen (keeps_expect _) fun _ _ => h.loopPart fun step hStep => ?_
  refine .andThen (keeps_expect _) fun _ _ => .bind (h.statement noIn) fun body => ?_
  exact .pure fun s hs => ⟨.forLoop hInit hTest hStep hs.1, hs.2⟩

theorem loop (noIn : Bool) : Ensures (fun _ => True) (g.loop noIn) Settled := by
  unfold Grammar.loop
  refine .andThen keeps_advance fun _ _ => .watch (watches_seesName _) fun _ => ?_
  dsimp only
  refine .ite (fun _ => (fails_unsupported _).bind.ensures) fun _ => ?_
  refine .andThen (keeps_expect _).ensures fun _ _ => .andThen h.loopStart fun init hInit => ?_
  refine .watch (watches_seesName _) fun _ => ?_
  split
  · next left =>
    refine .watch (watches_seesName _) fun _ => .ite (fun _ => ?_) fun _ => ?_
    · exact (h.forEachRest noIn (hInit left rfl) _).mono (fun _ _ => trivial) fun _ _ hs => hs
    · exact (h.forLoopRest noIn hInit).mono (fun _ _ => trivial) fun _ _ hs => hs
  · exact (h.forLoopRest noIn hInit).mono (fun _ _ => trivial) fun _ _ hs => hs

omit h in
theorem handlerParam : Gives Grammar.handlerParam fun param => ∀ n ∈ param, Formed .binding n := by
  refine .skip (keeps_eat _) fun _ => .ite (fun _ => ?_) fun _ => .pure nofun
  refine .watch (seesAny_run _) fun _ => .ite (fun _ => (fails_unsupported _).ensures) fun _ => ?_
  refine .bind gives_identifier fun name hName => .skip (keeps_expect _) fun _ => .pure ?_
  rintro _ ⟨⟩
  exact .binding hName

/-- A `try` ends with a block, so it does not dangle. -/
theorem tryCatch (noIn : Bool) :
    Gives (g.tryCatch noIn) fun n => Formed .statement n ∧ n.dangles = false := by
  unfold Grammar.tryCatch
  refine .skip keeps_advance fun _ => .bind (h.block noIn) fun body hBody => ?_
  have hRest : ∀ param handler : Option Node, (∀ n ∈ param, Formed .binding n) →
      (∀ n ∈ handler, Formed .block n) → (handler = none → param = none) → Gives (do
        let finalizer ← if ← eatName "finally" then some <$> g.block noIn else pure none
        if handler.isNone && finalizer.isNone then expected "catch or finally"
        else return .tryCatch body param handler finalizer) fun n =>
        Formed .statement n ∧ n.dangles = false := by
    intro param handler hParam hHandler hCatch
    refine .skip (keeps_eatName _) fun _ => ?_
    dsimp only
    refine .ite (fun _ => .mapped (h.block noIn) fun finalizer hFinalizer => ?_) fun _ => .given ?_
    · refine .ite (fun _ => (fails_expected _).ensures) fun _ => .pure ⟨?_, rfl⟩
      refine .tryCatch hBody hParam hHandler ?_ hCatch (.inr rfl)
      rintro _ ⟨⟩
      exact hFinalizer
    · refine .ite (fun _ => (fails_expected _).ensures) fun hSome => .pure ⟨?_, rfl⟩
      refine .tryCatch hBody hParam hHandler nofun hCatch (.inl ?_)
      simpa [Option.isSome_iff_ne_none] using hSome
  refine .skip (keeps_eatName _) fun _ => ?_
  dsimp only
  refine .ite (fun _ => ?_) fun _ => .given (hRest none none nofun nofun fun _ => rfl)
  refine .bind handlerParam fun param hParam => .bind (h.block noIn) fun handler hHandler => ?_
  refine .given (hRest param (some handler) hParam ?_ nofun)
  rintro _ ⟨⟩
  exact hHandler

omit h in
/-- A jump is a statement that does not dangle. -/
theorem jump {n : Node} (hn : Formed .statement n ∧ n.dangles = false) :
    Gives (Grammar.jump n) fun n => Formed .statement n ∧ n.dangles = false := by
  refine .skip keeps_advance fun _ => .watch seesWord_run fun _ => ?_
  refine .watch watches_onNewLine fun _ => ?_
  refine .ite (fun _ => (fails_unsupported _).ensures) fun _ => ?_
  exact .skip statementEnd fun _ => .pure hn

/-- An expression statement does not dangle. -/
theorem expressionStatement (noIn : Bool) :
    Gives (g.expressionStatement noIn) fun n => Formed .statement n ∧ n.dangles = false :=
  .bind (gives_expressionOf (h.assignmentRule noIn)) fun _ he => .skip statementEnd fun _ =>
    .pure ⟨.expr he, rfl⟩

/-- A statement that dangles is one whose last part does, and no `else` comes after it. -/
theorem wordStatement (noIn : Bool) (word : String) :
    Ensures (fun _ => True) (g.wordStatement noIn word) Settled := by
  unfold Grammar.wordStatement
  split
  · refine settled ((h.function .declaration).mono ?_)
    rintro _ ⟨id, ⟨hParams, hBody⟩, hId, hSome⟩
    obtain ⟨name, rfl⟩ := Option.isSome_iff_exists.1 (hSome rfl)
    exact ⟨.functionDeclaration (.binding (hId name rfl)) hParams hBody, rfl⟩
  · refine settled ((h.classDef false).mono ?_)
    rintro _ ⟨id, ⟨hSuperclass, hMembers⟩, hId, hSome⟩
    obtain ⟨name, rfl⟩ := Option.isSome_iff_exists.1 (hSome rfl)
    exact ⟨.classDeclaration (.binding (hId name rfl)) hSuperclass hMembers, rfl⟩
  · exact h.ifElse noIn
  · exact h.loop noIn
  · refine .andThen keeps_advance fun _ _ => .andThen h.condition fun test hTest => ?_
    refine .bind (h.statement noIn) fun body => .pure fun s hs => ?_
    exact ⟨.whileLoop hTest hs.1, hs.2⟩
  · refine settled (.skip keeps_advance fun _ => ?_)
    refine .bind (Q := Formed .statement) ((h.statement noIn).mono (fun _ _ => trivial)
      fun _ _ hs => hs.1) fun body hBody => .skip (keeps_eatName _) fun _ => ?_
    dsimp only
    refine .ite (fun _ => ?_) fun _ => (fails_expected _).bind.ensures
    refine .bind h.condition fun test hTest => ?_
    exact .skip (.map (keeps_eat _) fun _ _ => trivial) fun _ => .pure ⟨.doWhile hBody hTest, rfl⟩
  · refine settled (.skip keeps_advance fun _ => .watch (watches_sees _) fun _ => ?_)
    refine .skip keeps_mayEnd fun _ => ?_
    dsimp only
    refine .ite (fun _ => .given ?_) fun _ => .mapped (h.expression noIn) fun e he => ?_
    · exact .skip statementEnd fun _ => .pure ⟨.returns nofun, rfl⟩
    · exact .skip statementEnd fun _ => .pure ⟨.returns (by rintro _ ⟨⟩; exact he), rfl⟩
  · exact settled (jump ⟨.breaks, rfl⟩)
  · exact settled (jump ⟨.continues, rfl⟩)
  · refine settled (.skip keeps_advance fun _ => .bind (h.expression noIn) fun e he => ?_)
    exact .skip statementEnd fun _ => .pure ⟨.throws he, rfl⟩
  · exact settled (h.tryCatch noIn)
  · exact (fails_unsupported _).ensures
  · exact (fails_unsupported _).ensures
  · exact (fails_unsupported _).ensures
  · exact (fails_unsupported _).ensures
  · exact (fails_unsupported _).ensures
  · refine .watch (signAhead_run 1 _) fun _ => ?_
    refine .ite (fun _ => (fails_unsupported _).ensures) fun _ => ?_
    exact settled (h.expressionStatement noIn)

omit h in
/-- A block does not dangle, whatever is in it. -/
theorem dangles_of_block {n : Node} (hn : Formed .block n) : n.dangles = false := by
  cases hn
  rfl

omit h in
theorem dangles_of_declaration {n : Node} (hn : Formed .declaration n) : n.dangles = false := by
  cases hn
  rfl

/-- Every statement is formed, and no `else` comes after one that dangles. -/
theorem statementRule (noIn : Bool) :
    Ensures (fun _ => True) (g.statementRule noIn) Settled := by
  unfold Grammar.statementRule
  refine .next fun w _ => ?_
  split
  · exact settled ((h.block noIn).mono fun n hn => ⟨.blockStatement hn, dangles_of_block hn⟩)
  · exact settled (.skip keeps_advance fun _ => .pure ⟨.empty, rfl⟩)
  · split
    · refine settled (.bind (h.declaration noIn _) fun n hn => .skip statementEnd fun _ => .pure ?_)
      exact ⟨.declarationStatement hn, dangles_of_declaration hn⟩
    · exact (h.wordStatement noIn _).mono (fun _ _ => trivial) fun _ _ hs => hs
  · exact settled (h.expressionStatement noIn)

end Forms

/-- The lowest level forms nothing. -/
theorem forms_ground : ground.Forms where
  statement _ := (fails_expected _).ensures
  assignment _ := (fails_expected _).ensures
  binary _ _ := (fails_expected _).ensures
  unary := (fails_expected _).ensures
  call := (fails_expected _).ensures
  constructed := (fails_expected _).ensures

/-- Rules built over rules that form nodes do so too. -/
theorem Forms.lifted {g : Grammar} (h : g.Forms) : g.lifted.Forms where
  statement := h.statementRule
  assignment := h.assignmentRule
  binary := h.binaryRule
  unary := h.unaryRule
  call := h.callRule fun _ _ => .inl rfl
  constructed := h.constructedRule

/-- Every level gives formed trees. -/
theorem forms_level (n : Nat) : (level n).Forms := by
  induction n with
  | zero => exact forms_ground
  | succ n ih => exact ih.lifted

end Grammar

/-- The statements of a program are formed. -/
theorem Node.formed_of_parseProgram {text : String} {t : Node} (h : parseProgram text = .ok t) :
    ∃ body, t = .program body ∧ ∀ n ∈ body, Formed .statement n := by
  obtain ⟨stream, hStream, hRest⟩ := exists_of_bind_eq_ok h
  obtain ⟨⟨body, rest⟩, hRun, hTree⟩ := exists_of_bind_eq_ok hRest
  cases hTree
  refine ⟨body, rfl, ?_⟩
  refine (gives_many (P := Formed .statement) ?_ stream body rest
    (TokenStream.valid_of_ofText hStream) trivial hRun).2
  refine .watch watches_atEnd fun _ => .ite (fun _ => .pure nofun) fun _ => ?_
  refine .bind (Q := Formed .statement) (((Grammar.forms_level _).statement false).mono
    (fun _ hs => hs) fun _ _ hs => hs.1) fun n hn => .pure ?_
  rintro _ ⟨⟩
  exact hn

end CodeShape
