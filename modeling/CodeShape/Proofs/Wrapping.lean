import CodeShape.Pattern.Compile
import CodeShape.Proofs.Extension
import CodeShape.Proofs.Simulation

/-!
A text as the body of a function. Whatever statements a text holds, a function without parameters
that is put around it holds the same ones; so a pattern can be given either way.
-/
namespace CodeShape

open CodeShape.Parser Unread

/-- The words of a text come back, and a brace on a new line after them. -/
theorem Echoes.of_marks {ts ts' : List Token}
    (h : (ts'.map fun t => (t.word.plain, t.afterLineEnd)) =
      (ts.map fun t => (t.word.plain, t.afterLineEnd)) ++ [(.punct .closeBrace, true)]) :
    Echoes true true ts ts' := by
  induction ts generalizing ts' with
  | nil =>
      obtain ⟨t, rfl, ht⟩ := List.map_eq_singleton_iff.1 h
      obtain ⟨word, span, line⟩ := t
      obtain ⟨hWord, rfl⟩ := Prod.mk.inj ht
      obtain rfl := Lexeme.eq_of_plain hWord rfl
      exact .close span
  | cons t ts ih =>
      cases ts' with
      | nil => cases h
      | cons t' ts' =>
          simp only [List.map_cons, List.cons_append, List.cons.injEq, Prod.mk.injEq] at h
          exact .cons h.1.1.symm (fun _ => h.1.2.symm) (ih h.2)

theorem Echoes.of_flagged {ts ts' : List Token}
    (h : (ts'.map fun t => (t.word.plain, t.afterLineEnd)) =
      flagged true ((ts.map fun t => (t.word.plain, t.afterLineEnd)) ++
        [(.punct .closeBrace, true)])) :
    Echoes true false ts ts' := by
  cases ts with
  | nil => exact (of_marks h).mono nofun
  | cons t ts =>
      cases ts' with
      | nil => cases h
      | cons t' ts' =>
          simp only [List.map_cons, List.cons_append, flagged, List.cons.injEq, Prod.mk.injEq] at h
          exact .cons h.1.1.symm nofun (of_marks h.2)

namespace Parser

variable {α β : Type}

/-- The parser does not end well at a closing brace. -/
def Stalls (p : Parser α) : Prop :=
  ∀ span line ts stop r, p ⟨⟨.punct .closeBrace, span, line⟩ :: ts, stop⟩ ≠ .ok r

namespace Stalls

variable {p : Parser α} {f : α → Parser β}

theorem bind (h : Stalls p) : Stalls (p >>= f) := by
  intro span line ts stop r hRun
  obtain ⟨a, hFirst, -⟩ := exists_of_bind_eq_ok (x := p _) hRun
  exact h span line ts stop a hFirst

theorem watch {view : TokenStream → α} (hp : Watches p view) (hf : ∀ a, Stalls (f a)) :
    Stalls (p >>= f) := by
  intro span line ts stop r hRun
  change (p _ >>= _) = _ at hRun
  rw [hp] at hRun
  exact hf _ span line ts stop r hRun

theorem ite {c : Prop} [Decidable c] {q : Parser α} (hp : Stalls p) (hq : Stalls q) :
    Stalls (if c then p else q) := by
  split
  · exact hp
  · exact hq

end Stalls

theorem Fails.stalls {p : Parser α} (h : Fails p) : Stalls p := fun _ _ _ _ => h _

end Parser

namespace Grammar

variable (g : Grammar)

theorem stalls_unaryRule : Stalls g.unaryRule := fun _ _ _ _ _ hRun => by cases hRun

theorem stalls_arrow (noIn : Bool) : Stalls (g.arrow noIn) := fun _ _ _ _ _ hRun => by cases hRun

theorem stalls_assignmentRule (noIn : Bool) : Stalls (g.assignmentRule noIn) := by
  refine .watch watches_seesArrow fun _ => .ite (stalls_arrow g noIn) ?_
  refine .watch (watches_seesName _) fun _ => .watch (nameAhead_run 1 _) fun _ => ?_
  refine .watch (signAhead_run 1 _) fun _ => .ite (fails_unsupported _).stalls ?_
  refine .watch (watches_seesName _) fun _ => .ite (fails_unsupported _).stalls ?_
  exact .watch watches_place fun _ => g.stalls_unaryRule.bind.bind.bind

theorem stalls_expressionStatement (noIn : Bool) : Stalls (g.expressionStatement noIn) :=
  (g.stalls_assignmentRule noIn).bind.bind.bind

/-- No statement starts with a closing brace. -/
theorem stalls_statementRule (noIn : Bool) : Stalls (g.statementRule noIn) :=
  g.stalls_expressionStatement noIn

/-- The next statement of a program, unless the stream is at its end. -/
def programStep : Parser (Option Node) := do
  if ← atEnd then return none else return some (← g.statement false)

/-- A statement of a block, as a list of one. -/
def blockItem : Parser (List Node) := do
  if ← atEnd then expected Punct.closeBrace.text else return [← g.statement false]

/-- The next statement of a block, unless the block is at its end. -/
def blockStep : Parser (Option (List Node)) := do
  if ← eat .closeBrace then return none else return some (← g.blockItem)

variable {g} {g' : Grammar}

/-- A statement of a program is one of a block. -/
theorem exists_of_programStep (h : g.Simulates g') (hStalls : Stalls (g.statement false))
    {moved : Bool} {bound : Nat} {t t' : Token} {ts ts' : List Token} {stop stop' : Text.Span}
    {o : Option Node} {u : TokenStream}
    (hNear : Near true moved false bound ⟨t :: ts, stop⟩ ⟨t' :: ts', stop'⟩)
    (hStep : g.programStep ⟨t :: ts, stop⟩ = .ok (o, u)) :
    ∃ n u', o = some n ∧ g'.blockStep ⟨t' :: ts', stop'⟩ = .ok (some [n], u') ∧
      Near true true false (ts.length + 1) u u' := by
  obtain ⟨⟨n, u⟩, hStatement, hDone⟩ :=
    exists_of_bind_eq_ok (x := g.statement false ⟨t :: ts, stop⟩) hStep
  cases hDone
  obtain ⟨u', hStatement', hNear'⟩ := h.statement false true (ts.length + 1) _ _ n u
    ⟨hNear.echoes.mono nofun, Nat.le_refl _, nofun⟩ hStatement
  refine ⟨n, u', rfl, ?_, hNear'⟩
  have hBrace : Lexeme.isSign .closeBrace t'.word = false := by
    cases hNear.echoes with
    | cons hPlain =>
        rw [← Lexeme.plain_test (Lexeme.isSign _) (fun _ _ _ _ => rfl), ← hPlain,
          Lexeme.plain_test (Lexeme.isSign _) fun _ _ _ _ => rfl]
        rw [Bool.eq_false_iff]
        intro hSign
        obtain ⟨word, span, line⟩ := t
        cases word with
        | punct sign =>
            obtain rfl := eq_of_beq hSign
            exact hStalls _ _ _ _ _ hStatement
        | _ => cases hSign
  have hEat : eat .closeBrace ⟨t' :: ts', stop'⟩ = .ok (false, ⟨t' :: ts', stop'⟩) := by
    change (sees .closeBrace _ >>= _) = _
    rw [watches_sees]
    simp only [List.getElem?_cons_zero, Option.map_some, Option.any_some, hBrace]
    rfl
  have hItem : g'.blockItem ⟨t' :: ts', stop'⟩ = .ok ([n], u') := by
    change (g'.statement false _ >>= _) = _
    rw [hStatement']
    rfl
  change (eat .closeBrace _ >>= _) = _
  rw [hEat]
  change (g'.blockItem _ >>= _) = _
  rw [hItem]
  rfl

/-- The statements up to the end of a stream are those up to the brace in one that is related. -/
theorem exists_of_collect (h : g.Simulates g') (hStalls : Stalls (g.statement false))
    {limit limit' bound : Nat} {moved : Bool} {s s' r : TokenStream} {body : List Node}
    (hNear : Near true moved false bound s s') (hLimit : s.words.length < limit)
    (hLimit' : s'.words.length < limit') (hRun : collect g.programStep limit s = .ok (body, r)) :
    ∃ stop, collect g'.blockStep limit' s' = .ok (body.map ([·]), ⟨[], stop⟩) := by
  induction limit generalizing limit' moved bound s s' body with
  | zero => omega
  | succ limit ih =>
      obtain ⟨limit', rfl⟩ := Nat.exists_eq_succ_of_ne_zero (by omega : limit' ≠ 0)
      obtain ⟨words, stop⟩ := s
      obtain ⟨words', stop'⟩ := s'
      obtain ⟨hEchoes, hLength, -⟩ := id hNear
      cases hEchoes with
      | close span =>
          cases hRun
          exact ⟨stop', rfl⟩
      | @cons _ _ t t' ts ts' hPlain hLine hMore =>
          obtain ⟨⟨o, u⟩, hStep, hRest⟩ := exists_of_bind_eq_ok (x := g.programStep _) hRun
          obtain ⟨n, u', rfl, hStep', hNear'⟩ := exists_of_programStep h hStalls hNear hStep
          obtain ⟨⟨ns, v⟩, hCollect, hDone⟩ :=
            exists_of_bind_eq_ok (x := collect g.programStep limit u) hRest
          cases hDone
          have hShorter : u.words.length + 1 ≤ ts.length + 1 := hNear'.length
          have hSame := hNear.echoes.length_eq
          have hSame' := hNear'.echoes.length_eq
          simp only [List.length_cons] at hLimit hLimit' hSame
          have hLimit'' : u'.words.length < limit' := by omega
          obtain ⟨stop'', hCollect'⟩ := ih hNear' (by omega) hLimit'' hCollect
          refine ⟨stop'', ?_⟩
          change (g'.blockStep ⟨t' :: ts', stop'⟩ >>= _) = _
          rw [hStep']
          change (collect g'.blockStep limit' u' >>= _) = _
          rw [hCollect']
          rfl

/-- The statements of a program are read as a block when a brace follows them. -/
theorem block_of_collect {span : Text.Span} {line : Bool} {ts : List Token} {stop stop' : Text.Span}
    {body : List Node}
    (h : collect g.blockStep (ts.length + 1) ⟨ts, stop⟩ = .ok (body.map ([·]), ⟨[], stop'⟩)) :
    g.block false ⟨⟨.punct .openBrace, span, line⟩ :: ts, stop⟩ =
      .ok (.block body, ⟨[], stop'⟩) := by
  have hBody : enclosed .closeBrace g.blockItem ⟨ts, stop⟩ = .ok (body, ⟨[], stop'⟩) := by
    change (collect g.blockStep (ts.length + 1) ⟨ts, stop⟩ >>= _) = _
    rw [h]
    change Except.ok ((body.map ([·])).flatten, _) = _
    rw [← List.flatMap_def, List.flatMap_singleton']
  change (enclosed .closeBrace g.blockItem ⟨ts, stop⟩ >>= _) = _
  rw [hBody]
  rfl

/-- The tokens of a function without a name and without parameters, from its keyword to its brace. -/
def functionTokens (a b c d : Text.Span) (ts : List Token) : List Token :=
  ⟨.name "function", a, false⟩ :: ⟨.punct .openParen, b, false⟩ :: ⟨.punct .closeParen, c, false⟩ ::
    ⟨.punct .openBrace, d, false⟩ :: ts

section Function

variable {a b c d : Text.Span} {ts : List Token} {stop stop' : Text.Span} {body : Node}

/-- A function expression is read from the words that open it and its block. -/
theorem constructOrPrimary_function
    (h : g.block false ⟨⟨.punct .openBrace, d, false⟩ :: ts, stop⟩ = .ok (body, ⟨[], stop'⟩)) :
    g.constructOrPrimary ⟨functionTokens a b c d ts, stop⟩ =
      .ok (.function .expression none [] body, ⟨[], stop'⟩) := by
  change (g.block false ⟨⟨.punct .openBrace, d, false⟩ :: ts, stop⟩ >>= _) = _
  rw [h]
  rfl

/-- Nothing that comes before an operand is in front of the function, and nothing follows it. -/
theorem assignmentRule_function
    (h : g.block false ⟨⟨.punct .openBrace, d, false⟩ :: ts, stop⟩ = .ok (body, ⟨[], stop'⟩)) :
    g.assignmentRule false ⟨functionTokens a b c d ts, stop⟩ =
      .ok (.function .expression none [] body, ⟨[], stop'⟩) := by
  change (((((g.constructOrPrimary _ >>= _) >>= _) >>= _) >>= _) >>= _) = _
  rw [constructOrPrimary_function h]
  rfl

end Function

end Grammar

theorem exists_functionTokens {words : List Token} {more : List (Lexeme × Bool)}
    (h : (words.map fun t => (t.word.plain, t.afterLineEnd)) =
      functionOpening.map (·, false) ++ more) :
    ∃ a b c d ts, words = Grammar.functionTokens a b c d ts ∧
      (ts.map fun t => (t.word.plain, t.afterLineEnd)) = more := by
  obtain ⟨front, ts, rfl, hFront, hMore⟩ := List.map_eq_append_iff.1 h
  obtain ⟨⟨w₀, a, l₀⟩, front, rfl, h₀, hFront⟩ := List.map_eq_cons_iff.1 hFront
  obtain ⟨⟨w₁, b, l₁⟩, front, rfl, h₁, hFront⟩ := List.map_eq_cons_iff.1 hFront
  obtain ⟨⟨w₂, c, l₂⟩, front, rfl, h₂, hFront⟩ := List.map_eq_cons_iff.1 hFront
  obtain ⟨⟨w₃, d, l₃⟩, front, rfl, h₃, hFront⟩ := List.map_eq_cons_iff.1 hFront
  obtain rfl := List.map_eq_nil_iff.1 hFront
  simp only [Prod.mk.injEq] at h₀ h₁ h₂ h₃
  obtain ⟨h₀, rfl⟩ := h₀
  obtain ⟨h₁, rfl⟩ := h₁
  obtain ⟨h₂, rfl⟩ := h₂
  obtain ⟨h₃, rfl⟩ := h₃
  obtain rfl := Lexeme.eq_of_plain h₀ rfl
  obtain rfl := Lexeme.eq_of_plain h₁ rfl
  obtain rfl := Lexeme.eq_of_plain h₂ rfl
  obtain rfl := Lexeme.eq_of_plain h₃ rfl
  exact ⟨a, b, c, d, ts, rfl, hMore⟩

/-- The second stream is not lighter. -/
theorem Echoes.wordsWeight_le {closed moved : Bool} {ts ts' : List Token}
    (h : Echoes closed moved ts ts') : Lexeme.wordsWeight ts ≤ Lexeme.wordsWeight ts' := by
  induction h with
  | nil => exact Nat.le_refl _
  | close => exact Nat.zero_le _
  | @cons _ _ t t' _ _ hPlain _ _ ih =>
      have hWeight : t.word.weight = t'.word.weight := by
        rw [← Lexeme.weight_plain, hPlain, Lexeme.weight_plain]
      simp only [Lexeme.wordsWeight, hWeight]
      omega

/-- The statements of a text are those of the function that is put around it. -/
theorem Node.parseExpression_asBody {text : String} {t : Node} (h : parseProgram text = .ok t) :
    ∃ body, t = .program body ∧
      parseExpression (asBody text) = .ok (.function .expression none [] (.block body)) := by
  obtain ⟨stream, hStream, hRest⟩ := exists_of_bind_eq_ok h
  obtain ⟨⟨body, rest⟩, hRun, hTree⟩ := exists_of_bind_eq_ok hRest
  cases hTree
  obtain ⟨⟨words, stop⟩, hWrapped, hMarked⟩ := TokenStream.exists_of_asBody hStream
  obtain ⟨a, b, c, d, ts, rfl, hTail⟩ := exists_functionTokens hMarked
  have hEchoes : Echoes true false stream.words ts := .of_flagged hTail
  have hWeight : Lexeme.wordsWeight stream.words + 1 ≤
      Lexeme.wordsWeight (Grammar.functionTokens a b c d ts) := by
    have := hEchoes.wordsWeight_le
    simp only [Grammar.functionTokens, Lexeme.wordsWeight, Lexeme.weight]
    omega
  have hNear : Near true false false _ stream ⟨ts, stop⟩ := ⟨hEchoes, Nat.le_refl _, nofun⟩
  obtain ⟨stop', hCollect⟩ := Grammar.exists_of_collect (Grammar.simulates_level hWeight)
    (Grammar.stalls_statementRule _ false) hNear (Nat.lt_succ_self _) (Nat.lt_succ_self _) hRun
  have hFunction := Grammar.assignmentRule_function (a := a) (b := b) (c := c) (d := d)
    (Grammar.block_of_collect hCollect)
  refine ⟨body, rfl, ?_⟩
  rw [parseExpression, hWrapped]
  change ((Grammar.assignmentRule _ false _ >>= _) >>= _) = _
  rw [hFunction]
  rfl

namespace Pattern

/-- It makes no difference whether the statements of a pattern are given as they are or as the body
of a function. -/
theorem compile_wrapped {text : String} {t : Node} (h : Node.parseProgram text = .ok t)
    (constraints : List Constraint) :
    compile (.wrapped ("function() \x7b\n" ++ text ++ "\n\x7d")) constraints =
      compile (.text text) constraints := by
  obtain ⟨body, rfl, hBody⟩ := Node.parseExpression_asBody h
  have hTree : treeOf (.wrapped (asBody text)) = treeOf (.text text) := by
    simp only [treeOf, Node.ofExpressionText, Node.ofProgramText, hBody, h, Except.mapError]
    rfl
  simp only [compile]
  rw [← hTree]
  rfl

/-- The first line ends without a semicolon, the last one with a comment. -/
theorem compile_wrapped_comment :
    ∃ text t, text = "glob$before\nreturn \x7bget, key: \x60a$\x7b$x\x7d\x60\x7d // done" ∧
      Node.parseProgram text = .ok t ∧
      compile (.wrapped ("function() \x7b\n" ++ text ++ "\n\x7d")) [.on ["$x"] fun _ => .pass] =
        compile (.text text) [.on ["$x"] fun _ => .pass] := by
  generalize hText : "glob$before\nreturn \x7bget, key: \x60a$\x7b$x\x7d\x60\x7d // done" = text
  have hOk : (Node.parseProgram text).toOption.isSome = true := by
    rw [← hText]
    decide +kernel
  cases hParse : Node.parseProgram text with
  | error fault => simp [hParse, Except.toOption] at hOk
  | ok t => exact ⟨text, t, rfl, hParse, compile_wrapped hParse _⟩

end Pattern

end CodeShape
