import CodeShape.Proofs.Ensuring

/-!
Where parsers point. A parser that fails points at the next word or, if there is none, at the end of
its stream; some rules point back at the word that they started with. The expressions of a template
are read from streams of their own. So a fault points to a place in the stream, or to one inside of
a template in it.
-/
namespace CodeShape

open CodeShape.Parser

/-- Every place inside the word, at whatever depth of templates, is one of the given ones. -/
inductive Lexeme.PlacedIn (S : Text.Span → Prop) : Lexeme → Prop where
  | name (text : String) : PlacedIn S (.name text)
  | number (value : Number) (raw : String) : PlacedIn S (.number value raw)
  | string (value raw : String) : PlacedIn S (.string value raw)
  | punct (sign : Punct) : PlacedIn S (.punct sign)
  | template {quasis : List String} {parts : List TokenStream}
      (hStops : ∀ part ∈ parts, S part.stop) (hSpans : ∀ part ∈ parts, ∀ t ∈ part.words, S t.span)
      (hWords : ∀ part ∈ parts, ∀ t ∈ part.words, PlacedIn S t.word) :
      PlacedIn S (.template quasis parts)

/-- Every place in the stream is one of the given ones. -/
structure TokenStream.PlacedIn (S : Text.Span → Prop) (stream : TokenStream) : Prop where
  stop : S stream.stop
  spans : ∀ t ∈ stream.words, S t.span
  words : ∀ t ∈ stream.words, t.word.PlacedIn S

namespace TokenStream.PlacedIn

variable {S : Text.Span → Prop} {stream : TokenStream}

/-- The next word can be taken and the places left are among the given ones. -/
theorem tail (h : stream.PlacedIn S) : PlacedIn S ⟨stream.words.tail, stream.stop⟩ :=
  ⟨h.stop, fun t ht => h.spans t (List.mem_of_mem_tail ht),
    fun t ht => h.words t (List.mem_of_mem_tail ht)⟩

/-- The place that a fault would point to now is one of the given ones. -/
theorem next (h : stream.PlacedIn S) :
    S ((stream.words.head?.map Located.span).getD stream.stop) := by
  cases hHead : stream.words.head? with
  | none => exact h.stop
  | some t => exact h.spans t (List.mem_of_mem_head? hHead)

end TokenStream.PlacedIn

namespace Parser

variable {α β : Type}

/-- On a stream with all its places among the given ones, a fault points to one of them, and the
stream that is left has no others. -/
def Points (S : Text.Span → Prop) (p : Parser α) : Prop :=
  ∀ stream, stream.PlacedIn S → match p stream with
    | .ok (_, rest) => rest.PlacedIn S
    | .error fault => S fault.span

namespace Points

variable {S : Text.Span → Prop} {p q : Parser α} {f : α → Parser β}

theorem pure (a : α) : Points S (Pure.pure a) := fun _ h => h

/-- What comes after a parser only has to be looked at where the parser ends well. -/
theorem andThen (hp : Points S p) (hf : ∀ stream r, p stream = .ok r → Points S (f r.1)) :
    Points S (p >>= f) := by
  intro stream hStream
  have hFirst := hp stream hStream
  change match p stream >>= fun r => f r.1 r.2 with
    | .ok (_, rest) => rest.PlacedIn S
    | .error fault => S fault.span
  cases hRun : p stream with
  | error fault =>
      rw [hRun] at hFirst
      exact hFirst
  | ok r =>
      rw [hRun] at hFirst
      exact hf stream r hRun r.2 hFirst

/-- Parsers in sequence point to given places if each does. -/
theorem bind (hp : Points S p) (hf : ∀ a, Points S (f a)) : Points S (p >>= f) :=
  hp.andThen fun _ r _ => hf r.1

/-- Nothing follows where the first part fails. -/
theorem stop (hp : Points S p) (hFails : Fails p) : Points S (p >>= f) :=
  hp.andThen fun stream r hRun => absurd hRun (hFails stream r)

theorem map {g : α → β} (hp : Points S p) : Points S (g <$> p) := hp.bind fun a => .pure (g a)

theorem ite {c : Prop} [Decidable c] (hp : Points S p) (hq : Points S q) :
    Points S (if c then p else q) := by
  split
  · exact hp
  · exact hq

/-- A value that is read in one of two ways. -/
theorem whichever {c : Prop} [Decidable c] (hp : Points S p) (hq : Points S q)
    (hf : ∀ a, Points S (f a)) : Points S (if c then p >>= f else q >>= f) :=
  .ite (.bind hp hf) (.bind hq hf)

/-- A parser that only looks ahead fails nowhere. -/
theorem watch {view : TokenStream → α} (hp : Watches p view) (hf : ∀ a, Points S (f a)) :
    Points S (p >>= f) := by
  refine .bind (fun stream hStream => ?_) hf
  rw [hp]
  exact hStream

/-- The places inside the next word are among the given ones. -/
theorem next {f : Option Lexeme → Parser β}
    (hf : ∀ w : Option Lexeme, (∀ x ∈ w, x.PlacedIn S) → Points S (f w)) :
    Points S (next? >>= f) := by
  intro stream hStream
  refine hf (stream.words[0]?.map Located.word) ?_ stream hStream
  intro x hx
  obtain ⟨t, ht, rfl⟩ := Option.map_eq_some_iff.1 hx
  exact hStream.words t (List.mem_of_getElem? ht)

/-- A fault made by hand has to point to a given place. -/
theorem throw {fault : Fault} (h : S fault.span) : Points S (throw fault : Parser α) :=
  fun _ _ => h

/-- The place of the next word is one of the given ones. -/
theorem place {f : Text.Span → Parser β} (hf : ∀ span, S span → Points S (f span)) :
    Points S (Parser.place >>= f) :=
  fun stream hStream => hf _ hStream.next stream hStream

/-- Failing at the next word points to it, or to the end of the stream. -/
theorem fail (cause : Cause) : Points S (Parser.fail cause : Parser α) :=
  .place fun _ hSpan => .throw hSpan

theorem expected (wanted : String) : Points S (Parser.expected wanted : Parser α) :=
  .next fun _ _ => .fail _

theorem unsupported (feature : Feature) : Points S (Parser.unsupported feature : Parser α) :=
  .fail _

/-- After a failure nothing runs, so it does not matter what comes next. -/
theorem expected_bind (wanted : String) : Points S (Parser.expected wanted >>= f) :=
  (Points.expected wanted).stop (fails_expected wanted)

theorem unsupported_bind (feature : Feature) : Points S (Parser.unsupported feature >>= f) :=
  (Points.unsupported feature).stop (fails_unsupported feature)

theorem advance : Points S Parser.advance := fun _ h => h.tail

/-- Taking a sign if it is next never fails. -/
theorem eat (sign : Punct) : Points S (eat sign) :=
  .watch (watches_sees sign) fun _ => .ite (.bind .advance fun _ => .pure _) (.pure _)

theorem eatName (name : String) : Points S (eatName name) :=
  .watch (watches_seesName name) fun _ => .ite (.bind .advance fun _ => .pure _) (.pure _)

/-- A sign that is missing is reported at the word in its place. -/
theorem expect (sign : Punct) : Points S (expect sign) :=
  .bind (.eat sign) fun _ => .ite (.pure _) (.expected _)

/-- A keyword in place of a name is reported where it stands. -/
theorem identifier : Points S identifier := by
  refine .next fun w _ => ?_
  split
  · exact .ite (.expected _) (.bind .advance fun _ => .pure _)
  · exact .expected _

/-- A word that is no name is reported where it stands. -/
theorem propertyName : Points S propertyName := by
  refine .next fun w _ => ?_
  split
  · exact .bind .advance fun _ => .pure _
  · exact .expected _

section Loops

/-- The repetition points where its steps do, within any limit. -/
theorem collect {step : Parser (Option α)} (h : Points S step) (limit : Nat) :
    Points S (collect step limit) := by
  induction limit with
  | zero => exact .pure _
  | succ limit ih =>
      refine .bind h fun o => ?_
      cases o with
      | none => exact .pure _
      | some a => exact .bind ih fun _ => .pure _

theorem many {step : Parser (Option α)} (h : Points S step) : Points S (many step) :=
  .watch watches_get fun _ => .collect h _

/-- Extending a value points where the steps do, within any limit. -/
theorem extend {step : α → Parser (Option α)} (h : ∀ a, Points S (step a)) (a : α) (limit : Nat) :
    Points S (extend step a limit) := by
  induction limit generalizing a with
  | zero => exact .pure _
  | succ limit ih =>
      refine .bind (h a) fun o => ?_
      cases o with
      | none => exact .pure _
      | some b => exact ih b

theorem grow {step : α → Parser (Option α)} (h : ∀ a, Points S (step a)) (a : α) :
    Points S (grow step a) :=
  .watch watches_get fun _ => .extend h a _

/-- A list in brackets points where its items do, and a missing bracket is reported at the next
word. -/
theorem enclosed {item : Parser (List α)} {close : Punct} (h : Points S item) :
    Points S (enclosed close item) :=
  .map (.many (.bind (.eat close) fun _ => .ite (.pure _) (.bind h fun _ => .pure _)))

/-- The comma after an item, unless the list ends there. -/
theorem comma (close : Punct) (a : α) :
    Points S (do unless ← sees close do Parser.expect .comma
                 return a) :=
  .watch (watches_sees close) fun _ => .ite (.pure _) (.bind (.expect _) fun _ => .pure _)

theorem listed {item : Parser α} {close : Punct} (h : Points S item) :
    Points S (listed close item) :=
  .enclosed (.bind h fun _ => .comma close _)

/-- A list without brackets points where its items do. -/
theorem commaSeparated {item : Parser α} (h : Points S item) : Points S (commaSeparated item) :=
  .bind h fun _ => .bind (.many (.bind (.eat _) fun _ => .ite (.bind h fun _ => .pure _) (.pure _)))
    fun _ => .pure _

/-- A row of parsers points to given places if each of them does. -/
theorem mapM {γ : Type} {f : γ → Parser α} {xs : List γ} (h : ∀ x ∈ xs, Points S (f x)) :
    Points S (xs.mapM f) := by
  induction xs with
  | nil =>
      rw [List.mapM_nil]
      exact .pure _
  | cons x xs ih =>
      rw [List.mapM_cons]
      refine .bind (h x List.mem_cons_self) fun _ => ?_
      exact .bind (ih fun y hy => h y (List.mem_cons_of_mem _ hy)) fun _ => .pure _

/-- A fault in an expression of a template points there. -/
theorem inside {part : TokenStream} {wanted : String} (h : Points S p) (hPart : part.PlacedIn S) :
    Points S (inside part p wanted) := by
  have hInner : Points S (do let a ← p; if ← atEnd then return a else Parser.expected wanted) :=
    .bind h fun _ => .watch watches_atEnd fun _ => .ite (.pure _) (.expected _)
  have hRead := hInner part hPart
  unfold Parser.inside
  dsimp only [StateT.run]
  split
  · exact .pure _
  · next fault hFault =>
      rw [hFault] at hRead
      exact .throw hRead

end Loops

end Points

end Parser

namespace Grammar

/-- The rules point to the given places. -/
structure Points (S : Text.Span → Prop) (g : Grammar) : Prop where
  statement (noIn : Bool) : Parser.Points S (g.statement noIn)
  assignment (noIn : Bool) : Parser.Points S (g.assignment noIn)
  binary (noIn : Bool) (power : Nat) : Parser.Points S (g.binary noIn power)
  unary : Parser.Points S g.unary
  call : Parser.Points S g.call
  constructed : Parser.Points S g.constructed

variable {S : Text.Span → Prop}

/-- Putting the items of a sequence together adds no fault. -/
theorem points_expressionOf {assignment : Parser Node} (h : Parser.Points S assignment) :
    Parser.Points S (expressionOf assignment) := by
  refine .bind (.commaSeparated h) fun items => ?_
  split
  · exact .pure _
  · exact .pure _

theorem points_spreadable {assignment : Parser Node} (h : Parser.Points S assignment) :
    Parser.Points S (spreadable assignment) :=
  .bind (.eat _) fun _ => .ite (.bind h fun _ => .pure _) h

/-- Looking two words ahead for a modifier adds no fault. -/
theorem points_eatModifier (word : String) : Parser.Points S (eatModifier word) := by
  refine .bind ?_ fun _ => .ite (.bind .advance fun _ => .pure _) (.pure _)
  refine .watch (p := ahead? 1) (fun _ => rfl) fun w => ?_
  split
  · exact .bind (.pure _) fun _ => .watch (watches_seesName _) fun _ => .pure _
  · exact .bind (.pure _) fun _ => .watch (watches_seesName _) fun _ => .pure _

/-- The word before a member's key is taken or left, and either way there is no fault. -/
theorem points_memberKind {κ : Type} (get set other : κ) :
    Parser.Points S (memberKind get set other) :=
  .bind (points_eatModifier _) fun _ => .ite (.pure _) <|
    .bind (points_eatModifier _) fun _ => .ite (.pure _) (.pure _)

theorem points_mayEnd : Parser.Points S mayEnd :=
  .watch (watches_sees _) fun _ => .watch watches_atEnd fun _ => .watch watches_onNewLine fun _ =>
    .pure _

/-- A missing semicolon is reported at the word that should have been on a new line. -/
theorem points_statementEnd : Parser.Points S statementEnd :=
  .bind (.eat _) fun _ => .ite (.pure _) <|
    .bind points_mayEnd fun _ => .ite (.pure _) (.expected _)

/-- An update of what is no target is reported at its sign. -/
theorem points_updateAfter (e : Node) : Parser.Points S (updateAfter e) := by
  refine .next fun w _ => ?_
  split
  · exact .pure _
  · refine .watch watches_onNewLine fun _ => .ite (.pure _) ?_
    exact .ite (.fail _) (.bind .advance fun _ => .pure _)

theorem points_seesArrow : Parser.Points S seesArrow :=
  .watch (watches_sees _) fun _ => .ite (.watch watches_get fun _ => .pure _) <|
    .watch seesWord_run fun _ => .watch (signAhead_run 1 _) fun _ => .pure _

/-- A parameter of a handler that is no name is reported at the word in its place. -/
theorem points_handlerParam : Parser.Points S handlerParam := by
  refine .bind (.eat _) fun _ => .ite ?_ (.pure _)
  refine .watch (seesAny_run _) fun _ => .ite (.unsupported _) ?_
  exact .bind .identifier fun _ => .bind (.expect _) fun _ => .pure _

theorem points_jump (n : Node) : Parser.Points S (jump n) := by
  refine .bind .advance fun _ => .watch seesWord_run fun _ => .watch watches_onNewLine fun _ => ?_
  exact .ite (.unsupported _) (.bind points_statementEnd fun _ => .pure _)

namespace Points

variable {g : Grammar} (h : g.Points S)

include h

/-- A block that is not closed is reported at the end of the stream. -/
theorem block (noIn : Bool) : Parser.Points S (g.block noIn) := by
  refine .bind (.expect _) fun _ => .bind (.enclosed ?_) fun _ => .pure _
  refine .watch watches_atEnd fun _ => .ite (.expected _) ?_
  exact .bind (h.statement noIn) fun _ => .pure _

theorem arguments : Parser.Points S g.arguments :=
  .bind (.expect _) fun _ => .listed (points_spreadable (h.assignment false))

theorem parameter : Parser.Points S g.parameter := by
  refine .watch (seesAny_run _) fun _ => .ite (.unsupported _) ?_
  refine .bind (.eat _) fun _ => .ite (.bind .identifier fun _ => .pure _) ?_
  refine .bind .identifier fun _ => .bind (.eat _) fun _ => .ite ?_ (.pure _)
  exact .bind (h.assignment false) fun _ => .pure _

theorem parameters : Parser.Points S g.parameters :=
  .bind (.expect _) fun _ => .listed h.parameter

theorem functionRest (form : FunctionForm) (id : Option String) :
    Parser.Points S (g.functionRest form id) :=
  .bind h.parameters fun _ => .bind (h.block false) fun _ => .pure _

/-- A declaration without a name is reported at the word in place of it. -/
theorem function (form : FunctionForm) : Parser.Points S (g.function form) := by
  refine .bind (.eatName _) fun _ => .ite ?_ (.expected_bind _)
  refine .watch (watches_sees _) fun _ => .ite (.unsupported_bind _) ?_
  exact .watch seesWord_run fun _ => .whichever (.map .identifier) (.pure _) (h.functionRest form)

/-- A key that is neither a name nor a literal nor in brackets is reported where it stands. -/
theorem memberKey : Parser.Points S g.memberKey := by
  refine .next fun w _ => ?_
  split
  · refine .bind .advance fun _ => .bind (h.assignment false) fun _ => ?_
    exact .bind (.expect _) fun _ => .pure _
  · exact .bind .advance fun _ => .pure _
  · exact .bind .advance fun _ => .pure _
  · exact .bind .propertyName fun _ => .pure _
  · exact .expected _

/-- What comes after a key decides how the property goes on, and is reported if nothing fits. -/
theorem property : Parser.Points S g.property := by
  refine .bind (.eat _) fun _ => .ite (.bind (h.assignment false) fun _ => .pure _) ?_
  refine .bind (points_memberKind _ _ _) fun kind => .bind h.memberKey fun key => ?_
  refine .watch (watches_sees _) fun _ => .ite ?_ (.ite (.expected _) ?_)
  · exact .bind (h.functionRest _ _) fun _ => .pure _
  · refine .bind (.eat _) fun _ => .ite (.bind (h.assignment false) fun _ => .pure _) ?_
    refine .ite ?_ (.expected _)
    exact .watch (watches_sees _) fun _ =>
      .ite (.unsupported_bind _) (.pure _)

theorem object : Parser.Points S g.object :=
  .bind (.expect _) fun _ => .bind (.listed h.property) fun _ => .pure _

theorem array : Parser.Points S g.array := by
  refine .bind (.expect _) fun _ => .bind (.enclosed ?_) fun _ => .pure _
  refine .bind (.eat _) fun _ => .ite (.pure _) ?_
  exact .bind (points_spreadable (h.assignment false)) fun _ => .comma _ _

/-- A member of a class points where its key and its function do. -/
theorem method : Parser.Points S g.method := by
  refine .bind (points_eatModifier _) fun _ => .bind (points_memberKind _ _ _) fun _ => ?_
  refine .watch (watches_sees _) fun _ => .ite (.unsupported_bind _) ?_
  refine .bind h.memberKey fun key => .watch (watches_sees _) fun _ => ?_
  refine .ite ?_ (.unsupported_bind _)
  exact .bind (h.functionRest _ _) fun _ => .pure _

/-- A class without a brace is reported at the word in place of it. -/
theorem classDef (expression : Bool) : Parser.Points S (g.classDef expression) := by
  refine .bind (.eatName _) fun _ => .ite ?_ (.expected_bind _)
  refine .watch seesWord_run fun _ => .watch (watches_seesName _) fun _ => ?_
  refine .ite (.bind (.map .identifier) ?rest) (.whichever (.pure _) (.expected _) ?rest)
  refine fun id => .bind (.eatName _) fun _ => .whichever (.map h.call) (.pure _) fun _ => ?_
  refine .bind (.expect _) fun _ => .bind (.enclosed ?_) fun _ => .pure _
  exact .bind (.eat _) fun _ => .ite (.pure _) (.bind h.method fun _ => .pure _)

/-- A word that is not supported is reported where it stands, since it has not been taken. -/
theorem wordOperand (text : String) : Parser.Points S (g.wordOperand text) := by
  unfold Grammar.wordOperand
  split
  · exact .bind .advance fun _ => .pure _
  · exact .bind .advance fun _ => .pure _
  · exact .bind .advance fun _ => .pure _
  · exact .bind .advance fun _ => .pure _
  · exact h.function _
  · exact h.classDef _
  · exact .unsupported _
  · exact .unsupported _
  · exact .bind .identifier fun _ => .pure _

/-- The one rule that reads templates: the streams inside of a template are placed as the stream
itself. -/
theorem primary : Parser.Points S g.primary := by
  have hExpression := points_expressionOf (h.assignment false)
  refine .next fun w hw => ?_
  split
  · exact .bind .advance fun _ => .pure _
  · exact .bind .advance fun _ => .pure _
  · -- the expressions are in streams of their own, which came with the word
    cases hw _ rfl with
    | template hStops hSpans hWords =>
        refine .bind .advance fun _ => .bind (.mapM fun part hPart => ?_) fun _ => .pure _
        exact .inside hExpression ⟨hStops part hPart, hSpans part hPart, hWords part hPart⟩
  · exact .bind .advance fun _ => .bind hExpression fun _ => .bind (.expect _) fun _ => .pure _
  · exact h.array
  · exact h.object
  · exact .unsupported _
  · exact .unsupported _
  · exact h.wordOperand _
  · exact .expected _

/-- What comes after a dot has to be a name. -/
theorem memberAccess (owner : Node) : Parser.Points S (g.memberAccess owner) := by
  refine .bind (.eat _) fun _ => .ite (.bind .propertyName fun _ => .pure _) ?_
  refine .bind (.expect _) fun _ => .bind (points_expressionOf (h.assignment false)) fun _ => ?_
  exact .bind (.expect _) fun _ => .pure _

theorem constructOrPrimary : Parser.Points S g.constructOrPrimary := by
  refine .bind (.eatName _) fun _ => .ite (.bind h.constructed fun _ => ?_) h.primary
  exact .watch (watches_sees _) fun _ => .whichever h.arguments (.pure _) fun _ => .pure _

theorem constructedRule : Parser.Points S g.constructedRule := by
  refine .bind h.constructOrPrimary fun start => .grow (fun e => ?_) start
  refine .watch (seesAny_run _) fun _ => .ite ?_ (.pure _)
  exact .bind (h.memberAccess e) fun _ => .pure _

theorem callRule : Parser.Points S g.callRule := by
  refine .bind h.constructOrPrimary fun start => .grow (fun e => .next fun w _ => ?_) start
  split
  · exact .bind h.arguments fun _ => .pure _
  · exact .bind (h.memberAccess e) fun _ => .pure _
  · exact .bind (h.memberAccess e) fun _ => .pure _
  · exact .unsupported _
  · exact .pure _

/-- An update before what is no target is reported at the word it starts with, which has been taken
by then. -/
theorem unaryRule : Parser.Points S g.unaryRule := by
  -- an update is refused only after its operand was read, so the place is taken along
  refine .place fun start hStart => .next fun w _ => .watch (watches_seesName _) fun _ => ?_
  refine .ite (.unsupported_bind _) ?_
  split
  · exact .bind .advance fun _ => .bind h.unary fun _ => .pure _
  · exact .bind .advance fun _ => .bind h.unary fun _ => .ite (.pure _) (.throw hStart)
  · exact .bind h.callRule points_updateAfter

/-- Climbing over operators adds no fault of its own. -/
theorem binaryRule (noIn : Bool) (power : Nat) : Parser.Points S (g.binaryRule noIn power) := by
  refine .bind h.unaryRule fun first => .grow (fun left => .next fun w _ => ?_) first
  split
  · exact .pure _
  · refine .ite (.pure _) (.bind .advance fun _ => ?_)
    exact .bind (h.binary noIn _) fun _ => .pure _

/-- A missing colon is reported at the word in its place. -/
theorem conditional (noIn : Bool) : Parser.Points S (g.conditional noIn) := by
  refine .bind (h.binaryRule noIn 1) fun _ => .bind (.eat _) fun _ => .ite ?_ (.pure _)
  refine .bind (h.assignment false) fun _ => .bind (.expect _) fun _ => ?_
  exact .bind (h.assignment noIn) fun _ => .pure _

/-- The search for the arrow has not looked at the parameters, so faults in them are reported where
they stand. -/
theorem arrow (noIn : Bool) : Parser.Points S (g.arrow noIn) := by
  refine .watch (watches_sees _) fun _ => .ite (.bind h.parameters ?rest)
    (.bind .identifier fun _ => .bind (.pure _) ?rest)
  refine fun _ => .bind (.expect _) fun _ => .watch (watches_sees _) fun _ => ?_
  exact .whichever (h.block noIn) (h.assignment false) fun _ => .pure _

/-- An assignment to what is no target is reported at the word that its left side starts with. -/
theorem assignmentRule (noIn : Bool) : Parser.Points S (g.assignmentRule noIn) := by
  refine .bind points_seesArrow fun _ => .ite (h.arrow noIn) ?_
  refine .watch (watches_seesName _) fun _ => .watch (nameAhead_run 1 _) fun _ => ?_
  refine .watch (signAhead_run 1 _) fun _ => .ite (.unsupported _) ?_
  refine .watch (watches_seesName _) fun _ => .ite (.unsupported _) ?_
  refine .place fun start hStart => .bind (h.conditional noIn) fun left => .next fun w _ => ?_
  split
  · exact .pure _
  · refine .ite (.unsupported _) (.ite (.throw hStart) (.bind .advance fun _ => ?_))
    exact .bind (h.assignment noIn) fun _ => .pure _

/-- A declarator points where its name and its initializer do. -/
theorem declarator (noIn : Bool) : Parser.Points S (g.declarator noIn) := by
  refine .watch (seesAny_run _) fun _ => .ite (.unsupported _) ?_
  refine .bind .identifier fun _ => .bind (.eat _) fun _ => ?_
  exact .whichever (.map (h.assignment noIn)) (.pure _) fun _ => .pure _

theorem declaration (noIn : Bool) (kind : DeclarationKind) :
    Parser.Points S (g.declaration noIn kind) :=
  .bind .advance fun _ => .bind (.commaSeparated (h.declarator noIn)) fun _ => .pure _

theorem expression (noIn : Bool) : Parser.Points S (g.expression noIn) :=
  points_expressionOf (h.assignment noIn)

theorem condition : Parser.Points S g.condition :=
  .bind (.expect _) fun _ => .bind (h.expression false) fun _ => .bind (.expect _) fun _ => .pure _

theorem ifElse (noIn : Bool) : Parser.Points S (g.ifElse noIn) := by
  refine .bind .advance fun _ => .bind h.condition fun _ => .bind (h.statement noIn) fun _ => ?_
  refine .bind (.eatName _) fun _ => ?_
  exact .whichever (.map (h.statement noIn)) (.pure _) fun _ => .pure _

/-- The start of a loop is a declaration, an expression or nothing. -/
theorem loopStart : Parser.Points S g.loopStart := by
  refine .next fun w _ => ?_
  split
  · exact .pure _
  · split
    · exact .map (h.declaration true _)
    · exact .map (h.expression true)

theorem forEachRest (noIn : Bool) (left : Node) (overValues : Bool) :
    Parser.Points S (g.forEachRest noIn left overValues) := by
  refine .bind .advance fun _ => .whichever (h.assignment noIn) (h.expression noIn) fun _ => ?_
  exact .bind (.expect _) fun _ => .bind (h.statement noIn) fun _ => .pure _

/-- A missing semicolon in the head of a loop is reported at the word in its place. -/
theorem forLoopRest (noIn : Bool) (init : Option Node) :
    Parser.Points S (g.forLoopRest noIn init) := by
  refine .bind (.expect _) fun _ => .watch (watches_sees _) fun _ => ?_
  refine .whichever (.pure _) (.map (h.expression noIn)) fun _ => .bind (.expect _) fun _ => ?_
  refine .watch (watches_sees _) fun _ => ?_
  refine .whichever (.pure _) (.map (h.expression noIn)) fun _ => ?_
  exact .bind (.expect _) fun _ => .bind (h.statement noIn) fun _ => .pure _

/-- The head of a loop decides by the word after its start which of the loops it is. -/
theorem loop (noIn : Bool) : Parser.Points S (g.loop noIn) := by
  refine .bind .advance fun _ => .watch (watches_seesName _) fun _ => ?_
  refine .ite (.unsupported_bind _) ?_
  refine .bind (.expect _) fun _ => .bind h.loopStart fun init => ?_
  refine .watch (watches_seesName _) fun _ => ?_
  split
  · refine .watch (watches_seesName _) fun _ => .ite (h.forEachRest noIn _ _) ?_
    exact h.forLoopRest noIn _
  · exact h.forLoopRest noIn _

/-- A `try` with neither handler nor finalizer is reported at the word after its block. -/
theorem tryCatch (noIn : Bool) : Parser.Points S (g.tryCatch noIn) := by
  refine .bind .advance fun _ => .bind (h.block noIn) fun body => .bind (.eatName _) fun _ => ?_
  refine .ite (.bind points_handlerParam fun _ => .bind (h.block noIn) fun _ =>
    .bind (.pure _) ?rest) (.bind (.pure _) ?rest)
  refine fun caught => .bind (.eatName _) fun _ => .whichever (.map (h.block noIn)) (.pure _) ?_
  exact fun _ => .ite (.expected _) (.pure _)

theorem expressionStatement (noIn : Bool) : Parser.Points S (g.expressionStatement noIn) :=
  .bind (points_expressionOf (h.assignmentRule noIn)) fun _ =>
    .bind points_statementEnd fun _ => .pure _

/-- A statement that is not supported is reported at the word it starts with. -/
theorem wordStatement (noIn : Bool) (word : String) :
    Parser.Points S (g.wordStatement noIn word) := by
  unfold Grammar.wordStatement
  split
  · exact h.function _
  · exact h.classDef _
  · exact h.ifElse noIn
  · exact h.loop noIn
  · refine .bind .advance fun _ => .bind h.condition fun _ => ?_
    exact .bind (h.statement noIn) fun _ => .pure _
  · refine .bind .advance fun _ => .bind (h.statement noIn) fun _ => .bind (.eatName _) fun _ => ?_
    refine .ite (.bind h.condition fun _ => ?_) (.expected_bind _)
    exact .bind (.map (.eat _)) fun _ => .pure _
  · refine .bind .advance fun _ => .watch (watches_sees _) fun _ => .bind points_mayEnd fun _ => ?_
    refine .whichever (.pure _) (.map (h.expression noIn)) fun _ => ?_
    exact .bind points_statementEnd fun _ => .pure _
  · exact points_jump _
  · exact points_jump _
  · refine .bind .advance fun _ => .bind (h.expression noIn) fun _ => ?_
    exact .bind points_statementEnd fun _ => .pure _
  · exact h.tryCatch noIn
  · exact .unsupported _
  · exact .unsupported _
  · exact .unsupported _
  · exact .unsupported _
  · exact .unsupported _
  · exact .watch (signAhead_run 1 _) fun _ => .ite (.unsupported _) (h.expressionStatement noIn)

/-- Every statement is chosen by its next word, and so a fault is that of the statement chosen. -/
theorem statementRule (noIn : Bool) : Parser.Points S (g.statementRule noIn) := by
  refine .next fun w _ => ?_
  split
  · exact h.block noIn
  · exact .bind .advance fun _ => .pure _
  · split
    · exact .bind (h.declaration noIn _) fun _ => .bind points_statementEnd fun _ => .pure _
    · exact h.wordStatement noIn _
  · exact h.expressionStatement noIn

end Points

/-- The lowest level fails everywhere at the next word. -/
theorem points_ground : ground.Points S where
  statement _ := .expected _
  assignment _ := .expected _
  binary _ _ := .expected _
  unary := .expected _
  call := .expected _
  constructed := .expected _

/-- Rules built over rules that point to given places do so too. -/
theorem Points.lifted {g : Grammar} (h : g.Points S) : g.lifted.Points S where
  statement := h.statementRule
  assignment := h.assignmentRule
  binary := h.binaryRule
  unary := h.unaryRule
  call := h.callRule
  constructed := h.constructedRule

/-- The induction over levels: every level of the grammar points to given places. -/
theorem points_level (n : Nat) : (level n).Points S := by
  induction n with
  | zero => exact points_ground
  | succ n ih => exact ih.lifted

end Grammar

end CodeShape
