import CodeShape.Proofs.Carrying

/-!
The whole grammar on two related streams. Every rule of a level carries its successful runs over to
the same rule of that level or a higher one.
-/
namespace CodeShape

open CodeShape.Parser

namespace Grammar

/-- Successful runs of the rules are carried over to those of the other grammar. -/
structure Simulates (g g' : Grammar) : Prop where
  statement (noIn : Bool) : Moves (g.statement noIn) (g'.statement noIn)
  assignment (noIn : Bool) : Moves (g.assignment noIn) (g'.assignment noIn)
  binary (noIn : Bool) (power : Nat) : Moves (g.binary noIn power) (g'.binary noIn power)
  unary : Moves g.unary g'.unary
  call : Moves g.call g'.call
  constructed : Moves g.constructed g'.constructed

section Words

variable {β : Type} {m full : Bool} {f f' : Bool → Parser β} {after : β → Bool}

/-- Items put together with commas are carried over as the items are. -/
theorem carries_expressionOf {p q : Parser Node} (h : Moves p q) :
    Moves (expressionOf p) (expressionOf q) := by
  refine .bind (.commaSeparated h) fun items => ?_
  split <;> exact .pure fun _ => rfl

theorem carries_spreadable {p q : Parser Node} (h : Moves p q) :
    Moves (spreadable p) (spreadable q) :=
  .eat nofun (.done h) h

/-- The last word of the first stream may look like a modifier there and like a name before the
brace. The first run fails then. -/
theorem carries_seesModifier {word : String} (hEnd : ∀ t stop r, f true ⟨[t], stop⟩ ≠ .ok r)
    (hTrue : Carries m true (f true) (f' true) after)
    (hFalse : Carries m full (f false) (f' false) after) :
    Carries m full (seesModifier word >>= f) (seesModifier word >>= f') after := by
  rintro closed bound ⟨words, stop⟩ ⟨words', stop'⟩ b r hNear hRun
  change (seesModifier word ⟨words, stop⟩ >>= fun r => f r.1 r.2) = _ at hRun
  change ∃ r', (seesModifier word ⟨words', stop'⟩ >>= fun r => f' r.1 r.2) = _ ∧ _
  rw [watches_seesModifier] at hRun ⊢
  cases hName : (words[0]?.map Located.word).any (Lexeme.isName word) with
  | false =>
      have hName' : (words'[0]?.map Located.word).any (Lexeme.isName word) = false :=
        (hNear.echoes.test_eq _ (Lexeme.plain_test _ fun _ _ _ _ => rfl) (.inl rfl)).symm.trans hName
      simp only [hName, hName', Bool.false_and] at hRun ⊢
      exact hFalse closed bound _ _ b r hNear hRun
  | true =>
      have hName' : (words'[0]?.map Located.word).any (Lexeme.isName word) = true :=
        (hNear.echoes.test_eq _ (Lexeme.plain_test _ fun _ _ _ _ => rfl) (.inl rfl)).symm.trans hName
      obtain ⟨hEchoes, hLength, -⟩ := id hNear
      cases hEchoes with
      | nil => cases hName
      | close span => cases hName
      | @cons _ _ t t' ts ts' hPlain hLine h =>
          have hFull : Near closed m true bound ⟨t :: ts, stop⟩ ⟨t' :: ts', stop'⟩ :=
            ⟨hNear.echoes, hLength, fun _ => nofun⟩
          by_cases hLast : ts = []
          · subst hLast
            simp only [hName, Bool.true_and] at hRun
            exact absurd hRun (hEnd _ _ _)
          · have hSame := h.test_eq (n := 0) (Lexeme.isOneOf
              [.openParen, .colon, .comma, .closeBrace, .assign .plain, .semicolon])
              (Lexeme.plain_test _ fun _ _ _ _ => rfl) (.inr ⟨rfl, hLast⟩)
            simp only [hName, hName', Bool.true_and, List.getElem?_cons_succ, ← hSame] at hRun ⊢
            generalize (ts[0]?.map Located.word).any _ = ends at hRun ⊢
            cases ends with
            | true => exact hFalse closed bound _ _ b r hNear hRun
            | false => exact hTrue closed bound _ _ b r hFull hRun

/-- A modifier is carried over unless it is the last word, where nothing can follow it. -/
theorem carries_eatModifier {word : String} (hEnd : Barren (f true))
    (hf : ∀ b, Moves (f b) (f' b)) :
    Carries m full (eatModifier word >>= f) (eatModifier word >>= f') fun _ => true := by
  unfold eatModifier
  rw [bind_assoc, bind_assoc]
  refine carries_seesModifier (fun _ stop r hRun => hEnd stop r hRun) ?_ (hf false).anywhere
  rw [if_pos rfl, bind_assoc, bind_assoc]
  exact .bind .advance fun _ => (hf true).anywhere

/-- A member that is said to be a getter or a setter needs a name. -/
theorem carries_memberKind {κ : Type} {get set other : κ} {f f' : κ → Parser β}
    (hGet : Barren (f get)) (hSet : Barren (f set)) (hf : ∀ k, Moves (f k) (f' k)) :
    Moves (memberKind get set other >>= f) (memberKind get set other >>= f') := by
  unfold memberKind
  rw [bind_assoc, bind_assoc]
  refine carries_eatModifier hGet fun isGet => ?_
  cases isGet with
  | true => exact hf get
  | false =>
      rw [if_neg nofun, bind_assoc, bind_assoc]
      refine carries_eatModifier hSet fun isSet => ?_
      cases isSet with
      | true => exact hf set
      | false => exact hf other

/-- Whether an arrow follows is told by the first word. -/
theorem arrowNext_eq (ts : List Token) :
    (match ts with
      | ⟨.punct .arrow, _, _⟩ :: _ => true
      | _ => false) = (ts[0]?.map Located.word).any (Lexeme.isSign .arrow) := by
  cases ts with
  | nil => rfl
  | cons t ts =>
      obtain ⟨word, span, flag⟩ := t
      cases word with
      | punct sign => cases sign <;> rfl
      | _ => rfl

/-- One step of the search for an arrow, by the kind of bracket that the word is. -/
theorem arrowAfter_cons (depth : Nat) (t : Token) (ts : List Token) :
    arrowAfter depth (t :: ts) =
      match t.word with
      | .punct .openParen | .punct .openBracket | .punct .openBrace => arrowAfter (depth + 1) ts
      | .punct .closeParen | .punct .closeBracket | .punct .closeBrace =>
        if depth = 1 then (ts[0]?.map Located.word).any (Lexeme.isSign .arrow)
        else arrowAfter (depth - 1) ts
      | _ => arrowAfter depth ts := by
  rw [← arrowNext_eq ts]
  exact arrowAfter.eq_def _ _

/-- The brace at the end does not close what an arrow follows. -/
theorem arrowAfter_eq {closed moved : Bool} {ts ts' : List Token} (h : Echoes closed moved ts ts')
    (depth : Nat) : arrowAfter depth ts = arrowAfter depth ts' := by
  induction h generalizing depth with
  | nil => rfl
  | close span =>
      rw [arrowAfter_cons]
      simp [arrowAfter]
  | @cons closed moved t t' ts ts' hPlain hLine h ih =>
      have hArrow := h.test_eq (n := 0) (Lexeme.isSign .arrow)
        (Lexeme.plain_test _ fun _ _ _ _ => rfl) (.inl rfl)
      rw [arrowAfter_cons, arrowAfter_cons]
      rcases Lexeme.same_of_plain_eq hPlain with ⟨hSame, -⟩ | ⟨quasis, parts, parts', hw, hw', -⟩
      · simp only [hSame, hArrow, ih]
      · simp only [hw, hw', ih]

/-- The search for an arrow only looks ahead. -/
theorem watches_seesArrow :
    Watches seesArrow fun s =>
      if (s.words[0]?.map Located.word).any (Lexeme.isSign .openParen) then arrowAfter 0 s.words
      else (s.words[0]?.map Located.word).any Lexeme.isWord &&
        (s.words[1]?.map Located.word).any (Lexeme.isSign .arrow) := by
  intro s
  change (sees .openParen s >>= _) = _
  rw [watches_sees]
  dsimp only
  split
  · next hParen =>
      simp only [hParen]
      rfl
  · next hParen =>
      simp only [hParen]
      change (seesWord s >>= _) = _
      rw [seesWord_run]
      change (signAhead 1 .arrow s >>= _) = _
      rw [signAhead_run]
      rfl

/-- The search for an arrow comes out alike on both streams, since nothing follows the brace. -/
theorem carries_seesArrow (hf : ∀ b, Carries m full (f b) (f' b) after) :
    Carries m full (seesArrow >>= f) (seesArrow >>= f') after := by
  refine .watch watches_seesArrow watches_seesArrow (fun closed bound s s' hNear => ?_) hf
  have hParen := hNear.echoes.test_eq (n := 0) (Lexeme.isSign .openParen)
    (Lexeme.plain_test _ fun _ _ _ _ => rfl) (.inl rfl)
  have hWord := hNear.echoes.test_eq (n := 0) (Lexeme.isWord)
    (Lexeme.plain_test _ fun _ _ _ _ => rfl) (.inl rfl)
  have hArrow := hNear.echoes.test_eq (n := 1) (Lexeme.isSign .arrow)
    (Lexeme.plain_test _ fun _ _ _ _ => rfl) (.inl rfl)
  simp only [hParen, hWord, hArrow, arrowAfter_eq hNear.echoes]

end Words

namespace Simulates

variable {g g' : Grammar} (h : g.Simulates g')

include h

/-- A block is closed by its own brace, so what comes after the stream is not reached in it. -/
theorem block (noIn : Bool) : Moves (g.block noIn) (g'.block noIn) := by
  refine .bind (.expect nofun) fun _ => .bind (.enclosed ?_ ?_) fun _ => .pure fun _ => rfl
  · exact fun _ => fun _ _ hRun => by cases hRun
  · exact .atEnd (fails_expected _) (.done (h.statement noIn))

theorem arguments : Moves g.arguments g'.arguments :=
  .bind (.expect nofun) fun _ => .listed nofun (carries_spreadable (h.assignment false))

theorem parameter : Moves g.parameter g'.parameter := by
  refine .seesAny (by decide) (fails_unsupported _).carries ?_
  refine .eat nofun (.done .identifier) (.bind .identifier fun name => ?_)
  exact .eat nofun (.done (h.assignment false)) (.pure fun _ => rfl)

theorem parameters : Moves g.parameters g'.parameters :=
  .bind (.expect nofun) fun _ => .listed nofun h.parameter

/-- A function is closed by the brace of its body. -/
theorem functionRest (form : FunctionForm) (id : Option String) :
    Moves (g.functionRest form id) (g'.functionRest form id) :=
  .bind h.parameters fun _ => .done (h.block false)

theorem function (form : FunctionForm) : Moves (g.function form) (g'.function form) := by
  unfold Grammar.function
  refine .eatName ?_ (fails_expected _).bind.carries
  refine .sees nofun (fails_unsupported _).bind.carries ?_
  refine .seesWord fun named => .ite (fun _ => ?_) fun _ => ?_
  · exact .mapped Carries.identifier.anywhere fun name => (h.functionRest form _).anywhere
  · exact .given (h.functionRest form _).anywhere

theorem memberKey : Moves g.memberKey g'.memberKey := by
  refine .next (fun _ _ => (fails_expected _).carries) (fun w _ => ?_) fun _ _ _ _ =>
    (fails_expected _).carries
  split
  · refine .bind .advance fun _ => .bind (h.assignment false).anywhere fun _ => ?_
    exact .bind (.expect nofun) fun _ => .pure fun _ => rfl
  · exact .bind .advance fun _ => .pure fun _ => rfl
  · exact .bind .advance fun _ => .pure fun _ => rfl
  · exact .done .propertyName
  · exact (fails_expected _).carries

/-- A property is followed by a sign of its object, so it ends within the stream. -/
theorem property : Moves g.property g'.property := by
  unfold Grammar.property
  refine .eat nofun (.done (h.assignment false)) ?_
  refine carries_memberKind (fun _ _ hRun => by cases hRun) (fun _ _ hRun => by cases hRun)
    fun kind => ?_
  refine .bind h.memberKey fun ⟨key, computed⟩ => .sees nofun ?_ ?_
  · exact .done (h.functionRest .expression none)
  · refine .ite nofun fun _ => .ite (fun _ => (fails_expected _).carries) fun _ => ?_
    refine .eat nofun (.done (h.assignment false)) ?_
    refine .ite nofun fun _ => .ite (fun _ => ?_) fun _ => (fails_expected _).carries
    exact .sees nofun (fails_unsupported _).bind.carries (.pure fun _ => rfl)

theorem object : Moves g.object g'.object :=
  .bind (.expect nofun) fun _ => .bind
    (.listed (fun _ _ _ hRun => by cases hRun) h.property) fun _ => .pure fun _ => rfl

/-- An array is closed by its own bracket. -/
theorem array : Moves g.array g'.array := by
  unfold Grammar.array
  refine .bind (.expect nofun) fun _ => .bind (.enclosed nofun ?_) fun _ => .pure fun _ => rfl
  refine .eat nofun (.pure fun _ => rfl) ?_
  refine .bind (carries_spreadable (h.assignment false)) fun element => ?_
  refine .sees nofun (.pure fun _ => rfl) ?_
  exact .bind (.expect nofun) fun _ => .pure fun _ => rfl

/-- A method is closed by the brace of its body, and its modifiers are words before it. -/
theorem method : Moves g.method g'.method := by
  unfold Grammar.method
  refine carries_eatModifier (fun _ _ hRun => by cases hRun) fun isStatic => ?_
  refine carries_memberKind (fun _ _ hRun => by cases hRun) (fun _ _ hRun => by cases hRun)
    fun kind => ?_
  refine .sees nofun (fails_unsupported _).bind.carries ?_
  refine .bind h.memberKey fun ⟨key, computed⟩ => ?_
  exact .sees nofun (.done (h.functionRest .expression none)) (fails_unsupported _).bind.carries

theorem classRest (expression : Bool) (id : Option String) :
    Moves (g.classRest expression id) (g'.classRest expression id) := by
  have hMember : Moves (do if ← eat .semicolon then return [] else return [← g.method])
      (do if ← eat .semicolon then return [] else return [← g'.method]) :=
    .eat nofun (.pure fun _ => rfl) (.done h.method)
  unfold Grammar.classRest
  refine .eatName (.mapped h.call.anywhere fun superclass => ?_) (.given ?_)
  · refine .bind (.expect nofun) fun _ => .bind (.enclosed ?_ hMember) fun _ => .pure fun _ => rfl
    exact fun _ _ _ hRun => by cases hRun
  · refine .bind (.expect nofun) fun _ => .bind (.enclosed ?_ hMember) fun _ => .pure fun _ => rfl
    exact fun _ _ _ hRun => by cases hRun

/-- A class is closed by its own brace. -/
theorem classDef (expression : Bool) : Moves (g.classDef expression) (g'.classDef expression) := by
  unfold Grammar.classDef
  refine .eatName ?_ (fails_expected _).bind.carries
  refine .seesWord fun isWord => .peekName fun isExtends => .ite (fun _ => ?_) fun _ => ?_
  · exact .mapped Carries.identifier.anywhere fun name => (h.classRest expression _).anywhere
  · refine .ite (fun _ => ?_) fun _ => (fails_expected _).bind.carries
    exact .given (h.classRest expression none).anywhere

/-- The word has been seen in both streams, as it is there in the first. -/
theorem wordOperand (text : String) : Carries false true (g.wordOperand text) (g'.wordOperand text) fun _ => true := by
  unfold Grammar.wordOperand
  split
  · exact .bind .advance fun _ => .pure fun _ => rfl
  · exact .bind .advance fun _ => .pure fun _ => rfl
  · exact .bind .advance fun _ => .pure fun _ => rfl
  · exact .bind .advance fun _ => .pure fun _ => rfl
  · exact (h.function .expression).anywhere
  · exact (h.classDef true).anywhere
  · exact (fails_unsupported _).carries
  · exact (fails_unsupported _).carries
  · exact .done .identifier

/-- Every operand ends with a word or a bracket of its own. -/
theorem primary : Moves g.primary g'.primary := by
  refine .next (fun _ _ => (fails_expected _).carries) (fun w hw => ?_) fun quasis parts parts' hParts => ?_
  · split
    · exact .bind .advance fun _ => .pure fun _ => rfl
    · exact .bind .advance fun _ => .pure fun _ => rfl
    · next hTemplate =>
        cases hTemplate
        cases hw
    · refine .bind .advance fun _ => ?_
      refine .bind (carries_expressionOf (h.assignment false)).anywhere fun _ => ?_
      exact .bind (.expect nofun) fun _ => .pure fun _ => rfl
    · exact h.array.anywhere
    · exact h.object.anywhere
    · exact (fails_unsupported _).carries
    · exact (fails_unsupported _).carries
    · exact h.wordOperand _
    · exact (fails_expected _).carries
  · refine .bind .advance fun _ => .bind (.mapM_inside ?_ hParts) fun _ => .pure fun _ => rfl
    exact carries_expressionOf (h.assignment false)

/-- A member access ends with its name or its bracket. -/
theorem memberAccess (owner : Node) : Moves (g.memberAccess owner) (g'.memberAccess owner) := by
  refine .eat nofun (.done .propertyName) (.bind (.expect nofun) fun _ => ?_)
  refine .bind (carries_expressionOf (h.assignment false)).anywhere fun _ => ?_
  exact .bind (.expect nofun) fun _ => .pure fun _ => rfl

theorem constructOrPrimary : Moves g.constructOrPrimary g'.constructOrPrimary := by
  refine .eatName (.bind h.constructed.anywhere fun callee => ?_) h.primary
  exact .sees nofun (.done h.arguments) (.pure fun _ => rfl)

theorem constructedRule : Moves g.constructedRule g'.constructedRule := by
  refine .bind h.constructOrPrimary fun start => .grow (fun e m => ?_) start
  exact .seesAny (by decide) (.done (h.memberAccess e)) (.pure (by simp))

/-- A chain of calls stops at the end of the first stream, and at the brace of the second. -/
theorem callRule : Moves g.callRule g'.callRule := by
  refine .bind h.constructOrPrimary fun start => .grow (fun e m => ?_) start
  refine .next ?_ (fun w _ => ?_) fun _ _ _ _ => (fails_unsupported _).carries
  · rintro w (rfl | rfl) <;> exact .pure (by simp)
  · split
    · exact .done h.arguments
    · exact .done (h.memberAccess e)
    · exact .done (h.memberAccess e)
    · exact (fails_unsupported _).carries
    · exact .pure (by simp)

omit h in
/-- At the end no update comes, and at the brace none either. -/
theorem updateAfter (e : Node) :
    Carries true false (Grammar.updateAfter e) (Grammar.updateAfter e) fun _ => true := by
  refine .next ?_ (fun w _ => ?_) fun _ _ _ _ => .pure fun _ => rfl
  · rintro w (rfl | rfl) <;> exact .pure fun _ => rfl
  · split
    · exact .pure fun _ => rfl
    · refine .onNewLine fun _ => .ite (fun _ => .pure fun _ => rfl) fun _ => ?_
      refine .ite (fun _ => (fails_fail _).carries) fun _ => ?_
      exact .bind .advance fun _ => .pure fun _ => rfl

theorem unaryRule : Moves g.unaryRule g'.unaryRule := by
  unfold Grammar.unaryRule
  have hOperand : ∀ {full}, Carries false full (g.callRule >>= Grammar.updateAfter)
      (g'.callRule >>= Grammar.updateAfter) fun _ => true :=
    .bind h.callRule.anywhere updateAfter
  refine .place fun start start' => .next ?_ (fun w _ => ?_) fun _ _ _ _ => ?_
  · rintro w (rfl | rfl) <;> exact .seesName (fails_unsupported _).bind.carries hOperand
  · refine .seesName (fails_unsupported _).bind.carries ?_
    split
    · exact .bind .advance fun _ => .done h.unary
    · refine .bind .advance fun _ => .bind h.unary.anywhere fun e => ?_
      exact .ite (fun _ => .pure fun _ => rfl) fun _ => (fails_throw _).carries
    · exact hOperand
  · exact .seesName (fails_unsupported _).bind.carries hOperand

/-- A climb over operators stops at the end of the first stream, and at the brace of the second. -/
theorem binaryRule (noIn : Bool) (power : Nat) :
    Moves (g.binaryRule noIn power) (g'.binaryRule noIn power) := by
  refine .bind h.unaryRule fun first => .grow (fun left m => ?_) first
  refine .next ?_ (fun w _ => ?_) fun _ _ _ _ => .pure (by simp)
  · rintro w (rfl | rfl) <;> exact .pure (by simp)
  · split
    · exact .pure (by simp)
    · refine .ite (fun _ => .pure (by simp)) fun _ => ?_
      exact .bind .advance fun _ => .done (h.binary noIn _)

/-- At the end no question mark comes, and at the brace none either. -/
theorem conditional (noIn : Bool) : Moves (g.conditional noIn) (g'.conditional noIn) := by
  refine .bind (h.binaryRule noIn 1) fun test => .eat nofun ?_ (.pure fun _ => rfl)
  refine .bind (h.assignment false).anywhere fun consequent => ?_
  exact .bind (.expect nofun) fun _ => .done (h.assignment noIn)

/-- An arrow ends as its body does. -/
theorem arrow (noIn : Bool) : Moves (g.arrow noIn) (g'.arrow noIn) := by
  unfold Grammar.arrow
  refine .sees nofun (.bind h.parameters.anywhere fun params => .bind (.expect nofun) fun _ => ?_)
    (.bind .identifier fun name => .given (.bind (.expect nofun) fun _ => ?_))
  · exact .sees nofun (.done (h.block noIn)) (.done (h.assignment false))
  · exact .sees nofun (.done (h.block noIn)) (.done (h.assignment false))

/-- At the end no assignment sign comes, and at the brace none either. -/
theorem assignmentRule (noIn : Bool) : Moves (g.assignmentRule noIn) (g'.assignmentRule noIn) := by
  unfold Grammar.assignmentRule
  refine carries_seesArrow fun _ => .ite (fun _ => h.arrow noIn) fun _ => ?_
  refine .peekName fun _ => .nameAhead fun _ => .signAhead nofun fun _ => ?_
  refine .ite (fun _ => (fails_unsupported _).carries) fun _ => ?_
  refine .seesName (fails_unsupported _).carries ?_
  refine .place fun start start' => .bind (h.conditional noIn) fun left => ?_
  refine .next ?_ (fun w _ => ?_) fun _ _ _ _ => .pure fun _ => rfl
  · rintro w (rfl | rfl) <;> exact .pure fun _ => rfl
  · split
    · exact .pure fun _ => rfl
    · refine .ite (fun _ => (fails_unsupported _).carries) fun _ => ?_
      refine .ite (fun _ => (fails_throw _).carries) fun _ => ?_
      exact .bind .advance fun _ => .done (h.assignment noIn)

omit h in
/-- A statement may end at the end of the first stream, and at the brace of the second. -/
theorem mayEnd {β : Type} {f f' : Bool → Parser β} {full : Bool} {after : β → Bool}
    (hf : ∀ b, Carries true full (f b) (f' b) after) :
    Carries true full (Grammar.mayEnd >>= f) (Grammar.mayEnd >>= f') after := by
  refine .watch watches_mayEnd watches_mayEnd ?_ hf
  rintro closed bound ⟨words, stop⟩ ⟨words', stop'⟩ ⟨hEchoes, -, -⟩
  cases hEchoes with
  | nil => rfl
  | close span => rfl
  | cons hPlain hLine h =>
      have hBrace := (Echoes.cons hPlain hLine h).test_eq (n := 0) (Lexeme.isSign .closeBrace)
        (Lexeme.plain_test _ fun _ _ _ _ => rfl) (.inr ⟨rfl, List.cons_ne_nil _ _⟩)
      dsimp only
      rw [hBrace]
      simp [hLine rfl]

omit h in
/-- The end of a statement is carried over, since both ends allow it. -/
theorem statementEnd :
    Carries true false Grammar.statementEnd Grammar.statementEnd fun _ => true := by
  refine .eat nofun (.pure fun _ => rfl) (mayEnd fun _ => ?_)
  exact .ite (fun _ => .pure fun _ => rfl) fun _ => (fails_expected _).carries

theorem declarator (noIn : Bool) : Moves (g.declarator noIn) (g'.declarator noIn) := by
  unfold Grammar.declarator
  refine .seesAny (by decide) (fails_unsupported _).carries ?_
  refine .bind .identifier fun name => .eat nofun ?_ (.pure fun _ => rfl)
  exact .mapped (h.assignment noIn).anywhere fun _ => .pure fun _ => rfl

/-- A declaration ends as its last declarator does. -/
theorem declaration (noIn : Bool) (kind : DeclarationKind) :
    Carries false true (g.declaration noIn kind) (g'.declaration noIn kind) fun _ => true :=
  .bind .advance fun _ => .done (.commaSeparated (h.declarator noIn))

theorem expression (noIn : Bool) : Moves (g.expression noIn) (g'.expression noIn) :=
  carries_expressionOf (h.assignment noIn)

theorem condition : Moves g.condition g'.condition := by
  refine .bind (.expect nofun) fun _ => .bind (h.expression false).anywhere fun _ => ?_
  exact .bind (.expect nofun) fun _ => .pure fun _ => rfl

/-- At the end no `else` comes, and at the brace none either. -/
theorem ifElse (noIn : Bool) :
    Carries false true (g.ifElse noIn) (g'.ifElse noIn) fun _ => true := by
  unfold Grammar.ifElse
  refine .bind .advance fun _ => .bind h.condition.anywhere fun test => ?_
  refine .bind (h.statement noIn).anywhere fun consequent => .eatName ?_ (.pure fun _ => rfl)
  exact .mapped (h.statement noIn).anywhere fun _ => .pure fun _ => rfl

/-- What starts a loop is followed by a word of its head. -/
theorem loopStart : Carries true false g.loopStart g'.loopStart fun _ => true := by
  have hExpression : ∀ {full}, Carries true full (some <$> g.expression true)
      (some <$> g'.expression true) fun _ => true :=
    .map (h.expression true).anywhere fun _ h => h
  refine .next ?_ (fun w _ => ?_) fun _ _ _ _ => hExpression
  · rintro w (rfl | rfl) <;> exact hExpression
  · split
    · exact .pure fun _ => rfl
    · split
      · exact .map ((h.declaration true _).mono nofun id fun _ h => h) fun _ h => h
      · exact hExpression

/-- The body of a loop comes last and is carried over as a statement. -/
theorem forEachRest (noIn : Bool) (left : Node) (overValues : Bool) :
    Carries true true (g.forEachRest noIn left overValues) (g'.forEachRest noIn left overValues)
      fun _ => true := by
  unfold Grammar.forEachRest
  refine .bind .advance fun _ => .ite (fun _ => ?_) fun _ => ?_
  · refine .bind (h.assignment noIn).anywhere fun right => ?_
    exact .bind (.expect nofun) fun _ => .done (h.statement noIn)
  · refine .bind (h.expression noIn).anywhere fun right => ?_
    exact .bind (.expect nofun) fun _ => .done (h.statement noIn)

/-- A part of a loop head that may be left out. -/
theorem loopPart {f f' : Option Node → Parser Node} {noIn : Bool} {stop : Punct}
    (hStop : stop ≠ .closeBrace) (hf : ∀ part, Carries true false (f part) (f' part) fun _ => true) :
    Carries true false (do
      let part ← if ← sees stop then pure none else some <$> g.expression noIn
      f part) (do
      let part ← if ← sees stop then pure none else some <$> g'.expression noIn
      f' part) fun _ => true := by
  refine .sees (fun hBrace => absurd hBrace hStop) ?_ (.mapped (h.expression noIn).anywhere ?_)
  · exact (hf none).mono id nofun fun _ => id
  · exact fun part => hf (some part)

/-- The head of a loop is closed by its parenthesis, and the body is carried over as a statement. -/
theorem forLoopRest (noIn : Bool) (init : Option Node) :
    Moves (g.forLoopRest noIn init) (g'.forLoopRest noIn init) := by
  unfold Grammar.forLoopRest
  refine .bind (.expect nofun) fun _ => h.loopPart nofun fun test => ?_
  refine .bind (.expect nofun) fun _ => h.loopPart nofun fun step => ?_
  exact .bind (.expect nofun) fun _ => .done (h.statement noIn)

/-- Which loop it is depends on words that are in both streams. -/
theorem loop (noIn : Bool) : Carries false true (g.loop noIn) (g'.loop noIn) fun _ => true := by
  unfold Grammar.loop
  refine .bind .advance fun _ => .seesName (fails_unsupported _).bind.carries ?_
  refine .bind (.expect nofun) fun _ => .bind h.loopStart fun init => ?_
  cases init with
  | none => exact .peekName fun _ => (h.forLoopRest noIn none).anywhere
  | some left =>
      refine .seesName (.peekName fun _ => h.forEachRest noIn left true) ?_
      exact .seesName (h.forEachRest noIn left false) (h.forLoopRest noIn _).anywhere

omit h in
theorem handlerParam : Carries true false Grammar.handlerParam Grammar.handlerParam fun _ => true := by
  refine .eat nofun ?_ (.pure fun _ => rfl)
  refine .seesAny (by decide) (fails_unsupported _).carries ?_
  exact .bind Carries.identifier.anywhere fun _ => .bind (.expect nofun) fun _ => .pure fun _ => rfl

/-- At the end neither `catch` nor `finally` comes, and at the brace neither. -/
theorem tryRest (noIn : Bool) (body : Node) (param handler : Option Node) :
    Carries true false (g.tryRest noIn body param handler) (g'.tryRest noIn body param handler)
      fun _ => true := by
  unfold Grammar.tryRest
  refine .eatName (.mapped (h.block noIn).anywhere fun finalizer => ?_) (.given ?_)
  · exact .ite (fun _ => (fails_expected _).carries) fun _ => .pure fun _ => rfl
  · exact .ite (fun _ => (fails_expected _).carries) fun _ => .pure fun _ => rfl

theorem tryCatch (noIn : Bool) :
    Carries false true (g.tryCatch noIn) (g'.tryCatch noIn) fun _ => true := by
  unfold Grammar.tryCatch
  refine .bind .advance fun _ => .bind (h.block noIn).anywhere fun body => .eatName ?_ ?_
  · refine .bind handlerParam fun param => .bind (h.block noIn).anywhere fun handler => ?_
    exact h.tryRest noIn body param (some handler)
  · exact h.tryRest noIn body none none

omit h in
/-- A jump ends as statements end. -/
theorem jump (n : Node) : Carries false true (Grammar.jump n) (Grammar.jump n) fun _ => true := by
  refine .bind .advance fun _ => .seesWord fun _ => .onNewLine fun _ => ?_
  refine .ite (fun _ => (fails_unsupported _).carries) fun _ => ?_
  exact .bind statementEnd fun _ => .pure fun _ => rfl

/-- An expression statement ends as statements end. -/
theorem expressionStatement (noIn : Bool) :
    Moves (g.expressionStatement noIn) (g'.expressionStatement noIn) :=
  .bind (carries_expressionOf (h.assignmentRule noIn)) fun _ =>
    .bind statementEnd fun _ => .pure fun _ => rfl

/-- Every statement with a keyword is carried over; the word is in both streams. -/
theorem wordStatement (noIn : Bool) (word : String) :
    Carries false true (g.wordStatement noIn word) (g'.wordStatement noIn word) fun _ => true := by
  unfold Grammar.wordStatement
  split
  · exact (h.function .declaration).anywhere
  · exact (h.classDef false).anywhere
  · exact h.ifElse noIn
  · exact h.loop noIn
  · exact .bind .advance fun _ => .bind h.condition.anywhere fun _ => .done (h.statement noIn)
  · refine .bind .advance fun _ => .bind (h.statement noIn).anywhere fun body => ?_
    refine .eatName ?_ (fails_expected _).bind.carries
    refine .bind h.condition.anywhere fun test => ?_
    exact .mapped (Carries.eats nofun) fun _ => .pure fun _ => rfl
  · have hReturn : ∀ argument, Carries true false
        (do Grammar.statementEnd; return Node.returns argument)
        (do Grammar.statementEnd; return Node.returns argument) fun _ => true :=
      fun argument => .bind statementEnd fun _ => .pure fun _ => rfl
    refine .bind .advance fun _ => .sees nofun (mayEnd fun _ => ?_) (mayEnd fun _ => ?_)
    · exact (hReturn none).mono id nofun fun _ => id
    · refine .ite (fun _ => .given (hReturn none)) fun _ => ?_
      exact .mapped (h.expression noIn).anywhere fun e => hReturn (some e)
  · exact jump _
  · exact jump _
  · refine .bind .advance fun _ => .bind (h.expression noIn).anywhere fun _ => ?_
    exact .bind statementEnd fun _ => .pure fun _ => rfl
  · exact h.tryCatch noIn
  · exact (fails_unsupported _).carries
  · exact (fails_unsupported _).carries
  · exact (fails_unsupported _).carries
  · exact (fails_unsupported _).carries
  · exact (fails_unsupported _).carries
  · refine .signAhead nofun fun _ => .ite (fun _ => (fails_unsupported _).carries) fun _ => ?_
    exact (h.expressionStatement noIn).anywhere

/-- Every statement is carried over, chosen by the same word in both streams. -/
theorem statementRule (noIn : Bool) : Moves (g.statementRule noIn) (g'.statementRule noIn) := by
  unfold Grammar.statementRule
  refine .next ?_ (fun w _ => ?_) fun _ _ _ _ => (h.expressionStatement noIn).anywhere
  · rintro w (rfl | rfl) <;> exact h.expressionStatement noIn
  · split
    · exact (h.block noIn).anywhere
    · exact .bind .advance fun _ => .pure fun _ => rfl
    · split
      · exact .bind (h.declaration noIn _) fun _ => .bind statementEnd fun _ => .pure fun _ => rfl
      · exact h.wordStatement noIn _
    · exact (h.expressionStatement noIn).anywhere

end Simulates

/-- The lowest level has no successful run. -/
theorem simulates_ground (g : Grammar) : ground.Simulates g where
  statement _ := (fails_expected _).carries
  assignment _ := (fails_expected _).carries
  binary _ _ := (fails_expected _).carries
  unary := (fails_expected _).carries
  call := (fails_expected _).carries
  constructed := (fails_expected _).carries

/-- Rules built over rules that are carried over are carried over. -/
theorem Simulates.lifted {g g' : Grammar} (h : g.Simulates g') : g.lifted.Simulates g'.lifted where
  statement := h.statementRule
  assignment := h.assignmentRule
  binary := h.binaryRule
  unary := h.unaryRule
  call := h.callRule
  constructed := h.constructedRule

/-- Every level is simulated by those above it. -/
theorem simulates_level {n k : Nat} (h : n ≤ k) : (level n).Simulates (level k) := by
  induction n generalizing k with
  | zero => exact simulates_ground _
  | succ n ih =>
      obtain ⟨k, rfl⟩ := Nat.exists_eq_succ_of_ne_zero (by omega : k ≠ 0)
      exact (ih (by omega)).lifted

end Grammar

end CodeShape
