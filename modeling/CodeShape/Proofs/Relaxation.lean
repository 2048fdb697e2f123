import CodeShape.Proofs.Simulation

/-!
What is read in the head of a loop is read alike elsewhere. A rule with the restriction stops before
the word `in` where the rule without it goes on, so the two differ only where that word comes after
what the first has read. Nothing starts with the word, so inside of a larger construct the first
rule fails there.
-/
namespace CodeShape

def TokenStream.AtIn (stream : TokenStream) : Prop :=
  stream.words[0]?.map Located.word = some (.name "in")

namespace Parser

variable {α β : Type}

/-- What the first parser reads is read alike by the second, unless the word `in` comes after it. -/
def Relaxes (p q : Parser α) : Prop :=
  ∀ stream a rest, p stream = .ok (a, rest) → ¬ rest.AtIn → q stream = .ok (a, rest)

/-- Before the word `in`, the parser fails or takes nothing. -/
def Waits (p : Parser α) : Prop :=
  ∀ stream a rest, stream.AtIn → p stream = .ok (a, rest) → rest = stream

/-- Before the word `in`, the parser fails. -/
def Stuck (p : Parser α) : Prop := ∀ stream r, stream.AtIn → p stream ≠ .ok r

/-- Before the word `in`, the test does not hold. -/
def Declines (p : Parser Bool) : Prop := ∀ stream, stream.AtIn → p stream = .ok (false, stream)

section Declines

/-- The word `in` is no sign. -/
theorem declines_sees (sign : Punct) : Declines (sees sign) := by
  intro stream h
  rw [sees, signAhead_run, h]
  rfl

/-- The word `in` is no other word. -/
theorem declines_seesName {name : String} (hName : "in" ≠ name) : Declines (seesName name) := by
  intro stream h
  rw [seesName, nameAhead_run, h]
  simp [Lexeme.isName, hName]

/-- Before the word `in` no sign is taken. -/
theorem declines_eat (sign : Punct) : Declines (eat sign) := by
  intro stream h
  change (sees sign stream >>= _) = _
  rw [declines_sees sign stream h]
  rfl

/-- Before the word `in` no other word is taken. -/
theorem declines_eatName {name : String} (hName : "in" ≠ name) : Declines (eatName name) := by
  intro stream h
  change (seesName name stream >>= _) = _
  rw [declines_seesName hName stream h]
  rfl

end Declines

namespace Stuck

variable {p : Parser α} {f : α → Parser β}

/-- What fails everywhere fails before the word `in`. -/
theorem of_fails (h : Fails p) : Stuck p := fun stream r _ => h stream r

/-- A sequence is stuck where its first part is. -/
theorem bind (h : Stuck p) : Stuck (p >>= f) := by
  intro stream r hIn hRun
  obtain ⟨a, hFirst, -⟩ := exists_of_bind_eq_ok (x := p stream) hRun
  exact h stream a hIn hFirst

theorem map {g : α → β} (h : Stuck p) : Stuck (g <$> p) := h.bind (f := fun a => pure (g a))

/-- A test that does not hold leaves the second way, which has to be stuck. -/
theorem test {p : Parser Bool} {f : Bool → Parser β} (hp : Declines p) (h : Stuck (f false)) :
    Stuck (p >>= f) := by
  intro stream r hIn
  change (p stream >>= fun r => f r.1 r.2) ≠ _
  rw [hp stream hIn]
  exact h stream r hIn

/-- Looking ahead takes nothing, so what comes after is stuck at the same place. -/
theorem look {view : TokenStream → α} (hp : Watches p view) (h : ∀ a, Stuck (f a)) :
    Stuck (p >>= f) := by
  intro stream r hIn
  change (p stream >>= fun r => f r.1 r.2) ≠ _
  rw [hp stream]
  exact h _ stream r hIn

/-- A choice by the next word is stuck if its branch for the word `in` is. -/
theorem next {f : Option Lexeme → Parser β} (h : Stuck (f (some (.name "in")))) :
    Stuck (next? >>= f) := by
  intro stream r hIn
  change f (stream.words[0]?.map Located.word) stream ≠ _
  rw [hIn]
  exact h stream r hIn

theorem ite {c : Prop} [Decidable c] {q : Parser α} (hp : Stuck p) (hq : Stuck q) :
    Stuck (if c then p else q) := by
  split
  · exact hp
  · exact hq

end Stuck

namespace Waits

variable {p : Parser α} {f : α → Parser β}

/-- What fails before the word takes nothing there. -/
theorem of_stuck (h : Stuck p) : Waits p := fun stream a rest hIn hRun =>
  absurd hRun (h stream (a, rest) hIn)

theorem pure (a : α) : Waits (pure a) := by
  intro stream b rest _ hRun
  cases hRun
  rfl

/-- A sequence waits if each of its parts does, as the second starts where the first did. -/
theorem bind (h : Waits p) (hf : ∀ a, Waits (f a)) : Waits (p >>= f) := by
  intro stream b rest hIn hRun
  obtain ⟨⟨a, middle⟩, hFirst, hThen⟩ := exists_of_bind_eq_ok (x := p stream) hRun
  obtain rfl := h stream a middle hIn hFirst
  exact hf a middle b rest hIn hThen

/-- A test that does not hold leaves the second way, which has to wait. -/
theorem test {p : Parser Bool} {f : Bool → Parser β} (hp : Declines p) (h : Waits (f false)) :
    Waits (p >>= f) := by
  intro stream b rest hIn hRun
  change (p stream >>= fun r => f r.1 r.2) = _ at hRun
  rw [hp stream hIn] at hRun
  exact h stream b rest hIn hRun

theorem look {view : TokenStream → α} (hp : Watches p view) (h : ∀ a, Waits (f a)) :
    Waits (p >>= f) := by
  intro stream b rest hIn hRun
  change (p stream >>= fun r => f r.1 r.2) = _ at hRun
  rw [hp stream] at hRun
  exact h _ stream b rest hIn hRun

theorem next {f : Option Lexeme → Parser β} (h : Waits (f (some (.name "in")))) :
    Waits (next? >>= f) := by
  intro stream b rest hIn hRun
  change f (stream.words[0]?.map Located.word) stream = _ at hRun
  rw [hIn] at hRun
  exact h stream b rest hIn hRun

theorem ite {c : Prop} [Decidable c] {q : Parser α} (hp : Waits p) (hq : Waits q) :
    Waits (if c then p else q) := by
  split
  · exact hp
  · exact hq

theorem expect (sign : Punct) : Waits (expect sign) :=
  .test (declines_eat sign) (.of_stuck (.of_fails (fails_expected _)))

/-- A repetition whose step takes nothing before the word takes nothing there either. -/
theorem collect {step : Parser (Option α)} (h : Waits step) (limit : Nat) :
    Waits (collect step limit) := by
  induction limit with
  | zero => exact .pure []
  | succ limit ih =>
      refine h.bind fun x => ?_
      cases x with
      | none => exact .pure []
      | some a => exact ih.bind fun as => .pure (a :: as)

theorem many {step : Parser (Option α)} (h : Waits step) : Waits (many step) :=
  .look watches_get fun _ => h.collect _

/-- Extending a value takes nothing before the word if no step does. -/
theorem extend {step : α → Parser (Option α)} (h : ∀ a, Waits (step a)) (a : α) (limit : Nat) :
    Waits (extend step a limit) := by
  induction limit generalizing a with
  | zero => exact .pure a
  | succ limit ih =>
      refine (h a).bind fun x => ?_
      cases x with
      | none => exact .pure a
      | some b => exact ih b

end Waits

namespace Relaxes

variable {p q : Parser α} {f f' : α → Parser β}

theorem refl : Relaxes p p := fun _ _ _ hRun _ => hRun

/-- The second part is not reached before the word `in`, or takes nothing there. -/
theorem bind (h : Relaxes p q) (hWaits : ∀ a, Waits (f a)) (hf : ∀ a, Relaxes (f a) (f' a)) :
    Relaxes (p >>= f) (q >>= f') := by
  intro stream b rest hRun hNot
  obtain ⟨⟨a, middle⟩, hFirst, hThen⟩ := exists_of_bind_eq_ok (x := p stream) hRun
  have hMiddle : ¬ middle.AtIn := by
    intro hIn
    rw [hWaits a middle b rest hIn hThen] at hNot
    exact hNot hIn
  change (q stream >>= fun r => f' r.1 r.2) = _
  rw [h stream a middle hFirst hMiddle]
  exact hf a middle b rest hThen hNot

/-- A first part that both have. -/
theorem step (hf : ∀ a, Relaxes (f a) (f' a)) : Relaxes (p >>= f) (p >>= f') := by
  intro stream b rest hRun hNot
  obtain ⟨⟨a, middle⟩, hFirst, hThen⟩ := exists_of_bind_eq_ok (x := p stream) hRun
  change (p stream >>= fun r => f' r.1 r.2) = _
  rw [hFirst]
  exact hf a middle b rest hThen hNot

theorem done {g : α → β} (h : Relaxes p q) :
    Relaxes (p >>= fun a => pure (g a)) (q >>= fun a => pure (g a)) :=
  h.bind (fun a => .pure (g a)) fun _ => .refl

theorem map {g : α → β} (h : Relaxes p q) : Relaxes (g <$> p) (g <$> q) := h.done

theorem ite {c : Prop} [Decidable c] {p' q' : Parser α} (h : Relaxes p q) (h' : Relaxes p' q') :
    Relaxes (if c then p else p') (if c then q else q') := by
  split
  · exact h
  · exact h'

/-- A test comes out alike in both runs, since it comes before what they differ in. -/
theorem branch {test : Parser Bool} {p' q' : Parser α} (h : Relaxes p q) (h' : Relaxes p' q') :
    Relaxes (do if ← test then p else p') (do if ← test then q else q') :=
  .step fun _ => .ite h h'

/-- A test that decides how a value is read. -/
theorem either {test : Parser Bool} {p' q' : Parser α} (h : Relaxes p q) (h' : Relaxes p' q')
    (hWaits : ∀ a, Waits (f a)) (hf : ∀ a, Relaxes (f a) (f' a)) :
    Relaxes (do if ← test then p >>= f else p' >>= f)
      (do if ← test then q >>= f' else q' >>= f') :=
  .branch (h.bind hWaits hf) (h'.bind hWaits hf)

/-- A test that stops the reading if it holds. -/
theorem refuse {test : Parser Bool} {fault : Parser Unit} {f f' : Unit → Parser β}
    (h : ∀ x, Relaxes (f x) (f' x)) :
    Relaxes (do if ← test then fault >>= f else f ()) (do if ← test then fault >>= f' else f' ()) :=
  .branch (.step h) (h ())

/-- Only a word other than `in` has to be treated alike. -/
theorem next {f f' : Option Lexeme → Parser β} (hWaits : Waits (f (some (.name "in"))))
    (h : ∀ word, word ≠ some (.name "in") → Relaxes (f word) (f' word)) :
    Relaxes (next? >>= f) (next? >>= f') := by
  intro stream b rest hRun hNot
  change f (stream.words[0]?.map Located.word) stream = _ at hRun
  change f' (stream.words[0]?.map Located.word) stream = _
  by_cases hIn : stream.AtIn
  · rw [hIn] at hRun
    rw [hWaits stream b rest hIn hRun] at hNot
    exact absurd hIn hNot
  · exact h _ hIn stream b rest hRun hNot

/-- An item that ends before the word would be the last, as the step waits, and then the word would
come after the whole repetition. -/
theorem collect {step step' : Parser (Option α)} (h : Relaxes step step') (hWaits : Waits step)
    (limit : Nat) : Relaxes (collect step limit) (collect step' limit) := by
  induction limit with
  | zero => exact .refl
  | succ limit ih =>
      refine h.bind (fun x => ?_) fun x => ?_
      · cases x with
        | none => exact .pure []
        | some a => exact (hWaits.collect limit).bind fun as => .pure (a :: as)
      · cases x with
        | none => exact .refl
        | some a => exact ih.done

theorem many {step step' : Parser (Option α)} (h : Relaxes step step') (hWaits : Waits step) :
    Relaxes (many step) (many step') :=
  .step fun _ => h.collect hWaits _

/-- A step that ends before the word would be the last, for the same reason as with repetitions. -/
theorem extend {step step' : α → Parser (Option α)} (h : ∀ a, Relaxes (step a) (step' a))
    (hWaits : ∀ a, Waits (step a)) (a : α) (limit : Nat) :
    Relaxes (extend step a limit) (extend step' a limit) := by
  induction limit generalizing a with
  | zero => exact .refl
  | succ limit ih =>
      refine (h a).bind (fun x => ?_) fun x => ?_
      · cases x with
        | none => exact .pure a
        | some b => exact .extend hWaits b limit
      · cases x with
        | none => exact .refl
        | some b => exact ih b

theorem grow {step step' : α → Parser (Option α)} (h : ∀ a, Relaxes (step a) (step' a))
    (hWaits : ∀ a, Waits (step a)) (a : α) : Relaxes (grow step a) (grow step' a) :=
  .step fun _ => .extend h hWaits a _

/-- An item that ends before the word would leave the list unclosed, as the next item takes nothing
there. -/
theorem enclosed {close : Punct} {item item' : Parser (List α)} (h : Relaxes item item')
    (hWaits : Waits item) : Relaxes (enclosed close item) (enclosed close item') :=
  .map (.many (.branch .refl h.done)
    (.test (declines_eat close) (hWaits.bind fun as => .pure (some as))))

/-- The last item decides: after the others a comma comes. -/
theorem commaSeparated {item item' : Parser α} (h : Relaxes item item') :
    Relaxes (commaSeparated item) (commaSeparated item') := by
  have hStep : Waits (do if ← eat .comma then return some (← item) else return none) :=
    .test (declines_eat .comma) (.pure none)
  refine h.bind (fun first => hStep.many.bind fun _ => .pure _) fun first => ?_
  exact .done (.many (.branch h.done .refl) hStep)

end Relaxes

end Parser

namespace Grammar

open CodeShape.Parser

variable {g : Grammar} {noIn : Bool}

section Starts

/-- No operand starts with the word `in`. -/
theorem stuck_identifier : Stuck identifier := .next (.of_fails (fails_expected _))

/-- No operand starts with the word `in`. -/
theorem stuck_primary : Stuck g.primary := by
  refine .next ?_
  exact stuck_identifier.bind

/-- No unary operation starts with the word `in`. -/
theorem stuck_unaryRule : Stuck g.unaryRule := by
  have hOperand : Stuck g.constructOrPrimary := .test (declines_eatName (by decide)) stuck_primary
  refine .look watches_place fun start => .next ?_
  exact .test (declines_seesName (by decide)) hOperand.bind.bind

theorem stuck_conditional : Stuck (g.conditional noIn) := stuck_unaryRule.bind.bind

/-- No expression starts with the word `in`. -/
theorem stuck_assignmentRule : Stuck (g.assignmentRule noIn) := by
  have hArrow : Stuck (g.arrow noIn) :=
    .test (declines_sees .openParen) stuck_identifier.bind
  refine .look watches_seesArrow fun _ => .ite hArrow ?_
  refine .test (declines_seesName (by decide)) ?_
  refine .look (nameAhead_run 1 "function") fun _ => .look (signAhead_run 1 .openParen) fun _ => ?_
  refine .ite (.of_fails (fails_unsupported _)) (.test (declines_seesName (by decide)) ?_)
  exact .look watches_place fun _ => stuck_conditional.bind

/-- No expression statement starts with the word `in`. -/
theorem stuck_expressionStatement : Stuck (g.expressionStatement noIn) :=
  stuck_assignmentRule.bind.bind.bind

/-- No statement starts with the word `in`. -/
theorem stuck_statementRule : Stuck (g.statementRule noIn) := by
  refine .next (.look (signAhead_run 1 .colon) fun _ => ?_)
  exact .ite (.of_fails (fails_unsupported _)) stuck_expressionStatement

/-- The word `in` ends a statement only on a new line, and is not taken then. -/
theorem waits_statementEnd : Waits statementEnd :=
  .test (declines_eat .semicolon) (.look watches_mayEnd fun _ =>
    .ite (.pure ()) (.of_stuck (.of_fails (fails_expected _))))

theorem waits_ended (n : Node) : Waits (do statementEnd; return n) :=
  waits_statementEnd.bind fun _ => .pure n

end Starts

/-- The two rules for operators see the same operators, except for the word `in`. -/
theorem bind_operator?_eq {word : Option Lexeme} (hWord : word ≠ some (.name "in")) :
    word.bind (operator? true) = word.bind (operator? false) := by
  cases word with
  | none => rfl
  | some w =>
      cases w with
      | name text =>
          simp only [Option.bind_some, operator?]
          split <;> simp_all
      | punct sign => cases sign <;> rfl
      | _ => rfl

/-- The rules with the restriction read nothing that those without it do not read alike, and none of
them starts with the word `in`. -/
structure Relaxed (g : Grammar) : Prop where
  statement : Relaxes (g.statement true) (g.statement false)
  assignment : Relaxes (g.assignment true) (g.assignment false)
  binary (power : Nat) : Relaxes (g.binary true power) (g.binary false power)
  stuckStatement (noIn : Bool) : Stuck (g.statement noIn)
  stuckAssignment (noIn : Bool) : Stuck (g.assignment noIn)

theorem relaxes_expressionOf {p q : Parser Node} (h : Relaxes p q) :
    Relaxes (expressionOf p) (expressionOf q) := by
  refine h.commaSeparated.bind (fun items => ?_) fun _ => .refl
  rcases items with _ | ⟨e, _ | ⟨e', items⟩⟩ <;> exact .pure _

namespace Relaxed

variable {g : Grammar} (h : g.Relaxed)

include h

/-- Expressions are read alike with and without the restriction. -/
theorem expression : Relaxes (g.expression true) (g.expression false) :=
  relaxes_expressionOf h.assignment

theorem stuckExpression (noIn : Bool) : Stuck (g.expression noIn) :=
  (h.stuckAssignment noIn).bind.bind

/-- The statements of a block are each followed by another, which does not start with `in`, or by
the brace. -/
theorem block : Relaxes (g.block true) (g.block false) := by
  refine .step fun _ => .done (.enclosed (.branch .refl h.statement.done) ?_)
  refine .look watches_atEnd fun _ => .ite (.of_stuck (.of_fails (fails_expected _))) ?_
  exact .of_stuck (h.stuckStatement true).bind

/-- The one rule where the restriction is decided: with it, operators stop at `in`. -/
theorem binaryRule (power : Nat) : Relaxes (g.binaryRule true power) (g.binaryRule false power) := by
  refine .step fun first => .grow (fun left => .next (.pure none) fun word hWord => ?_)
    (fun left => .next (.pure none)) first
  rw [bind_operator?_eq hWord]
  generalize word.bind (operator? false) = operator
  rcases operator with _ | ⟨p, make⟩
  · exact .refl
  · exact .ite .refl (.step fun _ => (h.binary _).done)

/-- The middle of a conditional is read without the restriction; its test and its alternative are
read alike with it and without. -/
theorem conditional : Relaxes (g.conditional true) (g.conditional false) := by
  refine (h.binaryRule 1).bind (fun test => .test (declines_eat _) (.pure test)) fun test => ?_
  exact .branch (.step fun _ => .step fun _ => h.assignment.done) .refl

/-- Only a body in braces is read under the restriction of the arrow. -/
theorem arrow : Relaxes (g.arrow true) (g.arrow false) := by
  refine .branch (.step fun params => .step fun _ => ?_)
    (.step fun name => .step fun params => .step fun _ => ?_)
  · exact .either h.block .refl (fun _ => .pure _) fun _ => .refl
  · exact .either h.block .refl (fun _ => .pure _) fun _ => .refl

/-- The tests that choose how an assignment goes on are the same, and each way is read alike. -/
theorem assignmentRule : Relaxes (g.assignmentRule true) (g.assignmentRule false) := by
  refine .branch h.arrow (.step fun _ => .step fun _ => .step fun _ => .ite .refl ?_)
  refine .branch .refl (.step fun start => h.conditional.bind (fun left => .next (.pure left)) ?_)
  refine fun left => .step fun word => ?_
  generalize word.bind assignOperator? = op
  cases op with
  | none => exact .refl
  | some op => exact .ite .refl (.ite .refl (.step fun _ => h.assignment.done))

theorem declarator : Relaxes (g.declarator true) (g.declarator false) := by
  refine .branch .refl (.step fun name => ?_)
  exact .either h.assignment.map .refl (fun _ => .pure _) fun _ => .refl

/-- In a declaration every declarator but the last is followed by a comma. -/
theorem declaration (kind : DeclarationKind) :
    Relaxes (g.declaration true kind) (g.declaration false kind) :=
  .step fun _ => .done (.commaSeparated h.declarator)

/-- After the first branch either the word `else` comes or nothing does. -/
theorem ifElse : Relaxes (g.ifElse true) (g.ifElse false) := by
  refine .step fun _ => .step fun test => h.statement.bind (fun consequent => ?_) fun consequent => ?_
  · exact .test (declines_eatName (by decide)) (.pure _)
  · exact .either h.statement.map .refl (fun _ => .pure _) fun _ => .refl

/-- The body of a loop, after the closing parenthesis of its head. -/
theorem waits_body {f : Node → Node} : Waits (do
    expect .closeParen
    let body ← g.statement true
    return f body) :=
  .bind (.expect _) fun _ => .of_stuck (h.stuckStatement true).bind

theorem forEachRest (left : Node) (overValues : Bool) :
    Relaxes (g.forEachRest true left overValues) (g.forEachRest false left overValues) := by
  refine .step fun _ => .ite (h.assignment.bind (fun _ => h.waits_body) fun right => ?_)
    (h.expression.bind (fun _ => h.waits_body) fun right => ?_)
  · exact .step fun _ => h.statement.done
  · exact .step fun _ => h.statement.done

/-- What a loop's head holds after its start is followed by a sign; only the body comes last. -/
theorem forLoopRest (init : Option Node) :
    Relaxes (g.forLoopRest true init) (g.forLoopRest false init) := by
  have hStep : Stuck (some <$> g.expression true) := (h.stuckExpression true).map
  refine .step fun _ => .either .refl h.expression.map (fun test => ?_) fun test => .step fun _ => ?_
  · exact .bind (.expect _) fun _ => .test (declines_sees _) (.of_stuck hStep.bind)
  · exact .either .refl h.expression.map (fun step => h.waits_body) fun step =>
      .step fun _ => h.statement.done

/-- A loop is read alike as its head and its body are. -/
theorem loop : Relaxes (g.loop true) (g.loop false) := by
  refine .step fun _ => .refuse fun _ => .step fun _ => .step fun init => .step fun overValues => ?_
  cases init with
  | none => exact h.forLoopRest none
  | some left => exact .step fun _ => .ite (h.forEachRest left overValues) (h.forLoopRest _)

theorem tryRest (body : Node) (param handler : Option Node) :
    Relaxes (g.tryRest true body param handler) (g.tryRest false body param handler) := by
  refine .either h.block.map .refl (fun finalizer => ?_) fun finalizer => .refl
  exact .ite (.of_stuck (.of_fails (fails_expected _))) (.pure _)

omit h in
/-- Neither `catch` nor `finally` is the word `in`. -/
theorem waits_tryRest (body : Node) (param handler : Option Node) :
    Waits (g.tryRest true body param handler) :=
  .test (declines_eatName (by decide)) (.bind (.pure none) fun _ =>
    .ite (.of_stuck (.of_fails (fails_expected _))) (.pure _))

theorem tryCatch : Relaxes (g.tryCatch true) (g.tryCatch false) := by
  refine .step fun _ => h.block.bind (fun body => ?_) fun body => .branch ?_ ?_
  · exact .test (declines_eatName (by decide)) (waits_tryRest body none none)
  · refine .step fun param => h.block.bind (fun handler => waits_tryRest body param (some handler)) ?_
    exact fun handler => h.tryRest body param (some handler)
  · exact h.tryRest body none none

theorem expressionStatement : Relaxes (g.expressionStatement true) (g.expressionStatement false) :=
  (relaxes_expressionOf h.assignmentRule).bind (fun e => waits_ended (.expr e)) fun _ => .refl

/-- Statements that start with a keyword are read alike. -/
theorem wordStatement (word : String) :
    Relaxes (g.wordStatement true word) (g.wordStatement false word) := by
  unfold Grammar.wordStatement
  split
  · exact .refl
  · exact .refl
  · exact h.ifElse
  · exact h.loop
  · exact .step fun _ => .step fun _ => h.statement.done
  · refine .step fun _ => h.statement.bind (fun body => ?_) fun _ => .refl
    exact .test (declines_eatName (by decide)) (.of_stuck (.of_fails (fails_expected _).bind))
  · refine .step fun _ => .step fun _ => .step fun _ => ?_
    exact .ite .refl (h.expression.map.bind (fun e => waits_ended (.returns e)) fun _ => .refl)
  · exact .refl
  · exact .refl
  · exact .step fun _ => h.expression.bind (fun e => waits_ended (.throws e)) fun _ => .refl
  · exact h.tryCatch
  · exact .refl
  · exact .refl
  · exact .refl
  · exact .refl
  · exact .refl
  · exact .branch .refl h.expressionStatement

/-- Every statement is read alike with and without the restriction. -/
theorem statementRule : Relaxes (g.statementRule true) (g.statementRule false) := by
  refine .step fun word => ?_
  split
  · exact h.block
  · exact .refl
  · split
    · exact (h.declaration _).bind (fun n => waits_ended n) fun _ => .refl
    · exact h.wordStatement _
  · exact h.expressionStatement

end Relaxed

/-- The induction over levels: the restriction makes no difference where no `in` comes after. -/
theorem relaxed_level (n : Nat) : (level n).Relaxed := by
  induction n with
  | zero =>
      refine ⟨.refl, .refl, fun _ => .refl, fun _ => ?_, fun _ => ?_⟩
      · exact .of_fails (fails_expected _)
      · exact .of_fails (fails_expected _)
  | succ n ih =>
      exact ⟨ih.statementRule, ih.assignmentRule, ih.binaryRule, fun _ => stuck_statementRule,
        fun _ => stuck_assignmentRule⟩

end Grammar

end CodeShape
