import CodeShape.Proofs.Members

/-!
What the rules for statements make of words. A statement is told by its first word, and ends with a
semicolon, a brace or another statement; only a conditional without an `else` asks what follows it.
-/
namespace CodeShape

open CodeShape.Parser Lexeme

namespace Parser

variable {α : Type} {F : Option Lexeme → Prop} {G : Node → Option Lexeme → Prop} {p : Parser Node}
variable {f : Option Node → Parser α} {v : List Lexeme} {a : α} {part : Option Node}

/-- A part that may be left out before a sign. -/
theorem reads_unless {sign : Punct} {test : Lexeme → Bool}
    (hPart : ∀ n ∈ part, Reads p n.words n (G n) ∧ n.words.head?.any test = true)
    (hSign : test (.punct sign) = false) (hEnd : ∀ n, G n (some (.punct sign)))
    (h : Reads (f part) (.punct sign :: v) a F) :
    Reads (sees sign >>= fun b => if b = true then pure none >>= f else some <$> p >>= f)
      (part.elim [] Node.words ++ .punct sign :: v) a F := by
  cases part with
  | none => exact .look (looks_sees (b := true)) h fun _ _ => by simp [isSign]
  | some n =>
      obtain ⟨hReads, hStarts⟩ := hPart n rfl
      refine .look (looks_sees (b := false)) ?_ fun next _ => not_sign hSign (head?_append hStarts) next
      exact hReads.map.bind h fun _ _ => hEnd n

/-- A part that may be left out, after a word. -/
theorem reads_after {name : String} {f' : Node → List Lexeme}
    (hPart : ∀ n ∈ part, Reads p (f' n) n (G n))
    (hNone : part = none → ∀ next, F next → (v.head?.or next).any (isName name) = false)
    (hSome : ∀ n ∈ part, ∀ next, F next → G n (v.head?.or next)) (h : Reads (f part) v a F) :
    Reads (eatName name >>= fun b => if b = true then some <$> p >>= f else pure none >>= f)
      ((part.elim [] fun n => .name name :: f' n) ++ v) a F := by
  cases part with
  | none => exact .bind (u := []) reads_eatName_not h (hNone rfl)
  | some n =>
      refine .bind (u := [.name name]) (F := fun _ => True) reads_eatName ?_ fun _ _ => trivial
      exact (hPart n rfl).map.bind h (hSome n rfl)

end Parser

namespace Grammar

variable {g : Grammar} {noIn : Bool} {ws us vs : List Lexeme} {e test body : Node} {ns : List Node}
variable {F : Option Lexeme → Prop}

/-- A semicolon ends a statement, whatever comes next. -/
theorem reads_statementEnd : Reads statementEnd [.punct .semicolon] () F :=
  .bind (u := [.punct .semicolon]) (v := []) (F := fun _ => True) reads_eat .pure fun _ _ => trivial

/-- An expression in the parentheses of a statement. -/
theorem reads_condition (h : Reads (g.expression false) ws e (EndsSequence false)) :
    Reads g.condition (Node.wrapped ws) e fun _ => True := by
  refine .bind (u := [.punct .openParen]) (F := fun _ => True) reads_expect ?_ fun _ _ => trivial
  refine .bind h (.bind (v := []) (F := fun _ => True) reads_expect .pure fun _ h => h) ?_
  exact fun _ _ => ⟨rfl, rfl⟩

section Words

/-- The words that statements of their own start with. -/
def statementKeywords : List String :=
  ["function", "class", "if", "for", "while", "do", "return", "break", "continue", "throw", "try",
   "switch", "import", "export", "with", "debugger"]

/-- Other words start no declaration. -/
theorem declarationKind?_other {text : String} (h : text ∉ ["var", "let", "const"]) :
    declarationKind? (.name text) = none := by
  unfold declarationKind?
  split
  · next hText => cases hText; exact absurd (by decide) h
  · next hText => cases hText; exact absurd (by decide) h
  · next hText => cases hText; exact absurd (by decide) h
  · rfl

/-- A statement that starts with a word of its own. -/
theorem reads_word {text : String} (hKind : declarationKind? (.name text) = none)
    (h : Reads (g.wordStatement noIn text) (.name text :: ws) e F) :
    Reads (g.statementRule noIn) (.name text :: ws) e F := by
  refine .peek_word rfl ?_
  simp only [hKind]
  exact h

/-- The words that statements start with start no expressions, except for two. -/
theorem not_statementWord {text : String} (h : (Lexeme.name text).startsExpression false = true)
    (hFunction : text ≠ "function") (hClass : text ≠ "class") : text ∉ statementKeywords := by
  have hNot : ∀ t ∈ statementKeywords, t ≠ "function" → t ≠ "class" →
      (Lexeme.name t).startsExpression false = false := by decide
  exact fun hText => absurd (h.symm.trans (hNot text hText hFunction hClass)) nofun

/-- A word that starts an expression starts no declaration. -/
theorem not_declarationKind {text : String} (h : (Lexeme.name text).startsExpression false = true) :
    declarationKind? (.name text) = none := by
  have hNot : ∀ t ∈ ["var", "let", "const"],
      (Lexeme.name t).startsExpression false = false := by decide
  exact declarationKind?_other fun hText => absurd (h.symm.trans (hNot text hText)) nofun

/-- An expression as a statement. -/
theorem reads_expression {b : Bool} (hStarts : ws.head?.any (startsExpression false) = true)
    (hBrace : ws.head?.any (isSign .openBrace) = false)
    (hFunction : ws.head?.any (isName "function") = false)
    (hClass : ws.head?.any (isName "class") = false) (hCalm : Calm ws)
    (h : Reads (g.expressionRule noIn) ws e (EndsSequence b)) :
    Reads (g.statementRule noIn) (ws ++ [.punct .semicolon]) (.expr e) F := by
  have hStatement :
      Reads (g.expressionStatement noIn) (ws ++ [Lexeme.punct .semicolon]) (.expr e) F :=
    h.bind (.bind (v := []) (F := fun _ => True) reads_statementEnd .pure fun _ _ => trivial)
      fun _ _ => ⟨rfl, rfl⟩
  cases ws with
  | nil => cases hStarts
  | cons w ws =>
      cases w with
      | name text =>
          refine reads_word (not_declarationKind hStarts) ?_
          rw [wordStatement_other (not_statementWord hStarts (beq_eq_false_iff_ne.1 hFunction)
            (beq_eq_false_iff_ne.1 hClass))]
          refine .look (looks_signAhead (b := false)) hStatement fun next _ => ?_
          cases ws with
          | nil => rfl
          | cons w ws =>
              have hColon : Lexeme.calm (.name text) w = true := hCalm
              simp only [calm, isWord, Bool.true_and, Bool.and_eq_true, Bool.not_eq_true',
                Bool.or_eq_false_iff] at hColon
              exact hColon.1.2
      | punct p =>
          refine .peek_word rfl ?_
          cases p with
          | openBrace => cases hBrace
          | semicolon => cases hStarts
          | _ => exact hStatement
      | number | string => exact .peek_word rfl hStatement
      | template =>
          refine .peek fun x hx => ?_
          cases x with
          | template => exact hStatement
          | _ => cases hx

end Words

section Heads

/-- A conditional, whose first part must not take the `else` of the whole. -/
theorem reads_ifElse {consequent : Node} {alternate : Option Node}
    (hTest : Reads (g.expression false) ws test (EndsSequence false))
    (hConsequent : Reads (g.statement noIn) us consequent consequent.EndsStatement)
    (hAlternate : ∀ n ∈ alternate,
      Reads (g.statement noIn) (n.statementWords n.words) n n.EndsStatement)
    (hElse : alternate.isSome = true → consequent.dangles = false) :
    Reads (g.statementRule noIn) (.name "if" :: (Node.wrapped ws ++ (us ++
        alternate.elim [] fun n => .name "else" :: n.statementWords n.words)))
      (.ifElse test consequent alternate) (Node.ifElse test consequent alternate).EndsStatement := by
  refine reads_word rfl ?_
  change Reads (g.ifElse noIn) _ _ _
  refine .bind (u := [.name "if"]) (F := fun _ => True) (reads_advance _) ?_ fun _ _ => trivial
  refine (reads_condition hTest).bind ?_ fun _ _ => trivial
  rw [← List.append_nil (alternate.elim _ _)]
  refine hConsequent.bind (reads_after hAlternate ?_ ?_ .pure) ?_
  · rintro rfl next hNext
    exact hNext.settled rfl
  · rintro n hn next hNext
    cases hn
    exact ⟨hNext.last, hNext.settled⟩
  · intro next hNext
    rw [List.append_nil]
    cases alternate with
    | none => exact ⟨hNext.last, fun _ => hNext.settled rfl⟩
    | some n => exact ⟨rfl, fun hDangles => absurd (hDangles.symm.trans (hElse rfl)) nofun⟩

/-- A `while` loop is read from its keyword, its condition in parentheses and its body. -/
theorem reads_while (hTest : Reads (g.expression false) ws test (EndsSequence false))
    (hBody : Reads (g.statement noIn) us body body.EndsStatement) :
    Reads (g.statementRule noIn) (.name "while" :: (Node.wrapped ws ++ us)) (.whileLoop test body)
      (Node.whileLoop test body).EndsStatement := by
  refine reads_word rfl ?_
  refine .bind (u := [.name "while"]) (F := fun _ => True) (reads_advance _) ?_ fun _ _ => trivial
  refine (reads_condition hTest).bind ?_ fun _ _ => trivial
  exact hBody.done.mono fun _ h => ⟨h.last, h.settled⟩

/-- A `do` loop is read from its two keywords, its body and its condition. -/
theorem reads_doWhile (hBody : Reads (g.statement noIn) us body body.EndsStatement)
    (hTest : Reads (g.expression false) ws test (EndsSequence false)) :
    Reads (g.statementRule noIn)
      (.name "do" :: (us ++ (.name "while" :: (Node.wrapped ws ++ [.punct .semicolon]))))
      (.doWhile body test) F := by
  refine reads_word rfl ?_
  refine .bind (u := [.name "do"]) (F := fun _ => True) (reads_advance _) ?_ fun _ _ => trivial
  refine hBody.bind ?_ fun _ _ => ⟨rfl, fun _ => rfl⟩
  refine .bind (u := [.name "while"]) (F := fun _ => True) reads_eatName ?_ fun _ _ => trivial
  refine (reads_condition hTest).bind ?_ fun _ _ => trivial
  exact .bind (v := []) (F := fun _ => True) (Reads.map reads_eat) .pure fun _ _ => trivial

/-- The start of a loop head that has none. -/
theorem reads_loopStart_none :
    Reads g.loopStart [] none (· = some (.punct .semicolon)) := by
  refine .peek_next fun next hNext => ?_
  cases next with
  | none => cases hNext
  | some w =>
      cases eq_of_plain (Option.some.inj hNext) rfl
      exact .pure

/-- A loop may start with a declaration, told by its keyword. -/
theorem reads_loopStart_declaration {kind : DeclarationKind}
    (h : Reads (g.declaration true kind) (.name kind.text :: ws) e F) :
    Reads g.loopStart (.name kind.text :: ws) (some e) F := by
  refine .peek_word rfl ?_
  cases kind <;> exact h.map

/-- A loop may start with an expression, told by its first word. -/
theorem reads_loopStart_expression (hStarts : ws.head?.any (startsExpression false) = true)
    (h : Reads (g.expression true) ws e F) : Reads g.loopStart ws (some e) F := by
  cases ws with
  | nil => cases hStarts
  | cons w ws =>
      cases w with
      | name text =>
          refine .peek_word rfl ?_
          simp only [Option.bind_some, not_declarationKind hStarts]
          exact h.map
      | punct p =>
          refine .peek_word rfl ?_
          cases p with
          | semicolon => cases hStarts
          | _ => exact h.map
      | number | string => exact .peek_word rfl h.map
      | template =>
          refine .peek fun x hx => ?_
          cases x with
          | template => exact h.map
          | _ => cases hx

/-- A part of a loop head, which may be left out. -/
def ReadsPart (g : Grammar) (noIn : Bool) (part : Option Node) : Prop :=
  ∀ n ∈ part, Reads (g.expression noIn) n.words n (EndsSequence (noIn && !n.trails)) ∧
    n.words.head?.any (startsExpression false) = true

/-- The rest of a counting loop after its condition. -/
def forLoopEnd (g : Grammar) (noIn : Bool) (init test : Option Node) : Parser Node := do
  expect .semicolon
  let step ← if ← sees .closeParen then pure none else some <$> g.expression noIn
  expect .closeParen
  let body ← g.statement noIn
  return .forLoop init test step body

theorem forLoopRest_eq (init : Option Node) : g.forLoopRest noIn init = (do
    expect .semicolon
    let test ← if ← sees .semicolon then pure none else some <$> g.expression noIn
    g.forLoopEnd noIn init test) := rfl

/-- What every part of a loop head may have after it. -/
theorem endsSequence_sign {b : Bool} {sign : Punct}
    (h : sign ∈ [.semicolon, .colon, .closeParen, .closeBracket, .closeBrace]) :
    EndsSequence b (some (.punct sign)) := by
  have hAll : ∀ sign ∈ [Punct.semicolon, .colon, .closeParen, .closeBracket, .closeBrace],
      endsExpression b (.punct sign) = true ∧ (Lexeme.punct sign).isSign .comma = false := by
    simp [endsExpression, isSign]
  exact ⟨(hAll sign h).1, (hAll sign h).2⟩

/-- The head of a loop after its second part: the step and the body. -/
theorem reads_forLoopEnd {init test step : Option Node} (hStep : ReadsPart g noIn step)
    (hBody : Reads (g.statement noIn) us body body.EndsStatement) :
    Reads (g.forLoopEnd noIn init test)
      (.punct .semicolon :: (step.elim [] Node.words ++ .punct .closeParen :: us))
      (.forLoop init test step body) body.EndsStatement := by
  refine .bind (u := [.punct .semicolon]) (F := fun _ => True) reads_expect ?_ fun _ _ => trivial
  refine reads_unless hStep rfl (fun n => endsSequence_sign (by decide)) ?_
  refine .bind (u := [.punct .closeParen]) (F := fun _ => True) reads_expect ?_ fun _ _ => trivial
  exact hBody.done

/-- The head of a loop after its start: the condition, the step and the body. -/
theorem reads_forLoopRest {init test step : Option Node} (hTest : ReadsPart g noIn test)
    (hStep : ReadsPart g noIn step)
    (hBody : Reads (g.statement noIn) us body body.EndsStatement) :
    Reads (g.forLoopRest noIn init)
      (.punct .semicolon :: (test.elim [] Node.words ++
        .punct .semicolon :: (step.elim [] Node.words ++ .punct .closeParen :: us)))
      (.forLoop init test step body) body.EndsStatement := by
  rw [forLoopRest_eq]
  refine .bind (u := [.punct .semicolon]) (F := fun _ => True) reads_expect ?_ fun _ _ => trivial
  exact reads_unless hTest rfl (fun n => endsSequence_sign (by decide)) (reads_forLoopEnd hStep hBody)

/-- A counting loop. -/
theorem reads_forLoop {init test step : Option Node}
    (hInit : Reads g.loopStart ws init (· = some (.punct .semicolon)))
    (hTest : ReadsPart g noIn test) (hStep : ReadsPart g noIn step)
    (hBody : Reads (g.statement noIn) us body body.EndsStatement) :
    Reads (g.statementRule noIn)
      (.name "for" :: .punct .openParen :: (ws ++ .punct .semicolon :: (test.elim [] Node.words ++
        .punct .semicolon :: (step.elim [] Node.words ++ .punct .closeParen :: us))))
      (.forLoop init test step body) (Node.forLoop init test step body).EndsStatement := by
  have hReads : Reads (g.forLoopRest noIn init) _ (.forLoop init test step body) _ :=
    reads_forLoopRest hTest hStep hBody
  have hRest := hReads.mono
    fun next (h : (Node.forLoop init test step body).EndsStatement next) => ⟨h.last, h.settled⟩
  refine reads_word rfl ?_
  refine .bind (u := [.name "for"]) (F := fun _ => True) (reads_advance _) ?_ fun _ _ => trivial
  refine .look (looks_seesName (b := false)) ?_ fun _ _ => rfl
  refine .bind (u := [.punct .openParen]) (F := fun _ => True) reads_expect ?_ fun _ _ => trivial
  refine hInit.bind ?_ fun _ _ => rfl
  refine .look (looks_seesName (b := false)) ?_ fun _ _ => rfl
  cases init with
  | none => exact hRest
  | some n => exact .look (looks_seesName (b := false)) hRest fun _ _ => rfl

/-- A loop over keys or values. -/
theorem reads_forEach {left right : Node} {overValues b : Bool}
    (hLeft : Reads g.loopStart ws (some left)
      (· = some (.name (if overValues then "of" else "in"))))
    (hRight : Reads (if overValues then g.assignment noIn else g.expression noIn) us right
      (EndsSequence b))
    (hBody : Reads (g.statement noIn) vs body body.EndsStatement) :
    Reads (g.statementRule noIn)
      (.name "for" :: .punct .openParen :: (ws ++ .name (if overValues then "of" else "in") ::
        (us ++ .punct .closeParen :: vs)))
      (.forEach left right body overValues)
      (Node.forEach left right body overValues).EndsStatement := by
  refine reads_word rfl ?_
  refine .bind (u := [.name "for"]) (F := fun _ => True) (reads_advance _) ?_ fun _ _ => trivial
  refine .look (looks_seesName (b := false)) ?_ fun _ _ => rfl
  refine .bind (u := [.punct .openParen]) (F := fun _ => True) reads_expect ?_ fun _ _ => trivial
  refine hLeft.bind ?_ fun _ _ => rfl
  refine .look (looks_seesName (b := overValues)) ?_ fun _ _ => by cases overValues <;> rfl
  have hRest : Reads (g.forEachRest noIn left overValues)
      (.name (if overValues then "of" else "in") :: (us ++ .punct .closeParen :: vs))
      (.forEach left right body overValues)
      (Node.forEach left right body overValues).EndsStatement := by
    refine .bind (u := [_]) (F := fun _ => True) (reads_advance _) ?_ fun _ _ => trivial
    have hEnd : Reads (do
        expect .closeParen
        let body ← g.statement noIn
        return .forEach left right body overValues : Parser Node) (.punct .closeParen :: vs)
        (.forEach left right body overValues)
        (Node.forEach left right body overValues).EndsStatement := by
      refine .bind (u := [.punct .closeParen]) (F := fun _ => True) reads_expect ?_
        fun _ _ => trivial
      exact hBody.done.mono fun next h => ⟨h.last, h.settled⟩
    cases overValues with
    | true => exact hRight.bind hEnd fun _ _ => endsSequence_sign (by decide)
    | false => exact hRight.bind hEnd fun _ _ => endsSequence_sign (by decide)
  cases overValues with
  | true => exact .look (looks_seesName (b := false)) hRest fun _ _ => rfl
  | false => exact .look (looks_seesName (b := true)) hRest fun _ _ => rfl

end Heads

section Ends

/-- What stands on the line of a statement does not end it. -/
theorem reads_not_mayEnd {α : Type} {f : Bool → Parser α} {a : α}
    (hStarts : ws.head?.any (startsExpression false) = true) (h : ReadsInline (f false) ws a F) :
    ReadsInline (mayEnd >>= f) ws a F := by
  intro tokens rest stop hs hInline hRest
  obtain ⟨w, ws, rfl⟩ := List.exists_cons_of_ne_nil (ne_nil_of_starts hStarts)
  obtain ⟨t, ts, rfl, hWord, -⟩ := id hs.exists_cons
  have hBrace : t.word.isSign .closeBrace = false := by
    rw [← plain_test (isSign .closeBrace) (fun _ _ _ _ => rfl), hWord]
    exact not_sign rfl hStarts none
  have hLine := hInline t List.mem_cons_self
  have hView : mayEnd ⟨t :: ts ++ rest, stop⟩ = .ok (false, ⟨t :: ts ++ rest, stop⟩) := by
    rw [watches_mayEnd]
    simp [hBrace, hLine]
  change (mayEnd ⟨t :: ts ++ rest, stop⟩ >>= fun r => f r.1 r.2) = _
  rw [hView]
  exact h _ rest stop hs hInline hRest

/-- A `return`, whose argument stands on its line. -/
theorem reads_returns {argument : Option Node} (h : ReadsPart g noIn argument) :
    Reads (g.statementRule noIn)
      (.name "return" :: (argument.elim [] Node.words ++ [.punct .semicolon])) (.returns argument)
      F := by
  have hEnd : Reads (do statementEnd; return .returns argument : Parser Node) [.punct .semicolon]
      (.returns argument) F :=
    .bind (v := []) (F := fun _ => True) reads_statementEnd .pure fun _ _ => trivial
  refine reads_word rfl ?_
  refine ReadsInline.after (u := [.name "return"]) (F := fun _ => True) (reads_advance _) nofun ?_
    fun _ _ => trivial
  cases argument with
  | none =>
      refine .look (looks_sees (b := true)) (.of_reads (.watch watches_mayEnd fun _ => ?_))
        fun _ _ => rfl
      exact .bind (u := []) (F := fun _ => True) .pure hEnd fun _ _ => trivial
  | some n =>
      obtain ⟨hArgument, hStarts⟩ := h n rfl
      refine .look (looks_sees (b := false)) ?_ fun next _ => not_sign rfl (head?_append hStarts) next
      refine reads_not_mayEnd (head?_append hStarts) (.of_reads ?_)
      exact hArgument.map.bind hEnd fun _ _ => endsSequence_sign (by decide)

/-- A `throw` is read with its semicolon. -/
theorem reads_throws (h : Reads (g.expression noIn) ws e (EndsSequence (noIn && !e.trails))) :
    Reads (g.statementRule noIn) (.name "throw" :: (ws ++ [.punct .semicolon])) (.throws e) F := by
  refine reads_word rfl ?_
  refine .bind (u := [.name "throw"]) (F := fun _ => True) (reads_advance _) ?_ fun _ _ => trivial
  refine h.bind ?_ fun _ _ => endsSequence_sign (by decide)
  exact .bind (v := []) (F := fun _ => True) reads_statementEnd .pure fun _ _ => trivial

/-- A statement that leaves a loop or its current round. -/
theorem reads_jump {word : String} {n : Node} (hKind : declarationKind? (.name word) = none)
    (hWord : g.wordStatement noIn word = jump n) :
    Reads (g.statementRule noIn) [.name word, .punct .semicolon] n F := by
  refine reads_word hKind ?_
  rw [hWord]
  refine .bind (u := [.name word]) (F := fun _ => True) (reads_advance _) ?_ fun _ _ => trivial
  refine .look (looks_seesWord (b := false)) ?_ fun _ _ => rfl
  refine .watch watches_onNewLine fun _ => ?_
  exact .bind (v := []) (F := fun _ => True) reads_statementEnd .pure fun _ _ => trivial

end Ends

section Declarations

/-- A declarator is read by its name, and by its initializer if it has one. -/
theorem reads_declarator {name : String} {init : Option Node} (hName : keywords.contains name = false)
    (hInit : ∀ n ∈ init, Reads (g.assignment noIn) (n.itemWords n.words) n
      (EndsExpression (noIn && (n.isSequence || !n.trails)))) :
    Reads (g.declarator noIn)
      (.name name :: init.elim [] fun n => .punct (.assign .plain) :: n.itemWords n.words)
      (.declarator (.ident name) init)
      (EndsExpression (noIn && !(Node.declarator (.ident name) init).trails)) := by
  refine .look (looks_seesAny (b := false)) ?_ fun _ _ => rfl
  simp only [Bool.false_eq_true, if_false]
  refine .bind (u := [.name name]) (F := fun _ => True) (reads_identifier hName) ?_ fun _ _ => trivial
  cases init with
  | none =>
      exact .bind (u := []) (v := []) reads_eat_not .pure fun _ h =>
        EndsExpression.not_sign (fun _ => rfl) h
  | some n =>
      refine .bind (u := [.punct (.assign .plain)]) (F := fun _ => True) reads_eat ?_ fun _ _ => trivial
      have hTrails : (!(Node.declarator (.ident name) (some n)).trails) =
          (n.isSequence || !n.trails) := by
        rw [Node.trails_declarator, Bool.not_and, Bool.not_not]
      rw [hTrails]
      exact (hInit n rfl).map.done

/-- Declarators with commas between them are read after their keyword. -/
theorem reads_declaration {kind : DeclarationKind} (hNonempty : ns ≠ [])
    (h : ∀ n ∈ ns, Reads (g.declarator noIn) n.words n (EndsExpression (noIn && !n.trails))) :
    Reads (g.declaration noIn kind) (.name kind.text :: commas (ns.map Node.words))
      (.declaration kind ns) (EndsSequence (noIn && !(Node.declaration kind ns).trails)) := by
  refine .bind (u := [_]) (F := fun _ => True) (reads_advance _) ?_ fun _ _ => trivial
  obtain ⟨n, ns, rfl⟩ := List.exists_cons_of_ne_nil hNonempty
  rw [List.forall_mem_cons] at h
  refine (reads_commaSeparated (G := fun n => EndsExpression (noIn && !n.trails)) (fun _ => rfl)
    (fun next hNext n' hLast => ?_) (fun _ h => h.comma) h.1 ?_).done
  · rw [← Node.trailsLast_eq hLast]
    exact hNext.expression
  · rw [List.forall₂_map_left_iff]
    exact List.forall₂_same.2 h.2

/-- A declaration with a semicolon is a statement. -/
theorem reads_declarationStatement {kind : DeclarationKind} {b : Bool}
    (h : Reads (g.declaration noIn kind) (.name kind.text :: ws) e (EndsSequence b)) :
    Reads (g.statementRule noIn) (.name kind.text :: (ws ++ [.punct .semicolon])) e F := by
  refine .peek_word rfl ?_
  have hKind : declarationKind? (.name kind.text) = some kind := by cases kind <;> rfl
  simp only [hKind]
  refine .bind (u := .name kind.text :: ws) h ?_ fun _ _ => endsSequence_sign (by decide)
  exact .bind (v := []) (F := fun _ => True) reads_statementEnd .pure fun _ _ => trivial

end Declarations

section Blocks

theorem reads_blockStatement (h : Reads (g.block noIn) (.punct .openBrace :: ws) e F) :
    Reads (g.statementRule noIn) (.punct .openBrace :: ws) e F := .peek_word rfl h

/-- A semicolon alone is a statement. -/
theorem reads_empty : Reads (g.statementRule noIn) [.punct .semicolon] .empty F :=
  .peek_word rfl (.bind (v := []) (F := fun _ => True) (reads_advance _) .pure fun _ _ => trivial)

theorem reads_functionStatement (h : Reads (g.function .declaration) (.name "function" :: ws) e F) :
    Reads (g.statementRule noIn) (.name "function" :: ws) e F := reads_word rfl h

theorem reads_classStatement (h : Reads (g.classDef false) (.name "class" :: ws) e F) :
    Reads (g.statementRule noIn) (.name "class" :: ws) e F := reads_word rfl h

def handlerWords (param : Option String) : List Lexeme :=
  param.elim [] fun name => Node.wrapped [.name name]

/-- The parameter of a handler is read with its parentheses, or left out before the brace. -/
theorem reads_handlerParam {param : Option String}
    (hParam : ∀ name ∈ param, keywords.contains name = false) :
    Reads handlerParam (handlerWords param) (param.map .ident) (· = some (.punct .openBrace)) := by
  cases param with
  | none =>
      refine .bind (u := []) (v := []) reads_eat_not .pure ?_
      rintro _ rfl
      rfl
  | some name =>
      refine .bind (u := [.punct .openParen]) (F := fun _ => True) reads_eat ?_ fun _ _ => trivial
      refine .look (looks_seesAny (b := false)) ?_ fun _ _ => rfl
      refine .bind (u := [.name name]) (F := fun _ => True) (reads_identifier (hParam name rfl)) ?_
        fun _ _ => trivial
      exact .bind (u := [.punct .closeParen]) (v := []) (F := fun _ => True) reads_expect .pure
        fun _ _ => trivial

/-- After the handler the finalizer is read if there is one, as there has to be one of the two. -/
theorem reads_tryRest {param handler finalizer : Option Node}
    (hFinalizer : ∀ n ∈ finalizer, Reads (g.block noIn) n.words n fun _ => True)
    (hSome : handler.isSome = true ∨ finalizer.isSome = true) :
    Reads (g.tryRest noIn body param handler)
      (finalizer.elim [] fun n => .name "finally" :: n.words)
      (.tryCatch body param handler finalizer)
      (Node.tryCatch body param handler finalizer).EndsStatement := by
  have hNot : (handler.isNone && finalizer.isNone) = false := by
    cases handler <;> cases finalizer <;> simp_all
  rw [← List.append_nil (finalizer.elim _ _)]
  refine reads_after hFinalizer (fun _ next hNext => hNext.last) (fun _ _ _ _ => trivial) ?_
  simp only [hNot, Bool.false_eq_true, if_false]
  exact .pure

/-- A block with handlers. -/
theorem reads_tryCatch {param : Option String} {handler finalizer : Option Node}
    (hBody : Reads (g.block noIn) ws body fun _ => True)
    (hParam : ∀ name ∈ param, keywords.contains name = false)
    (hHandler : ∀ n ∈ handler, Reads (g.block noIn) n.words n (fun _ => True) ∧
      n.words.head? = some (.punct .openBrace))
    (hFinalizer : ∀ n ∈ finalizer, Reads (g.block noIn) n.words n fun _ => True)
    (hCatch : handler = none → param = none)
    (hSome : handler.isSome = true ∨ finalizer.isSome = true) :
    Reads (g.statementRule noIn)
      (.name "try" :: (ws ++
        ((handler.elim [] fun n => .name "catch" :: (handlerWords param ++ n.words)) ++
          finalizer.elim [] fun n => .name "finally" :: n.words)))
      (.tryCatch body (param.map .ident) handler finalizer)
      (Node.tryCatch body (param.map .ident) handler finalizer).EndsStatement := by
  have hRest : Reads (g.tryRest noIn body (param.map .ident) handler) _ _ _ :=
    reads_tryRest hFinalizer hSome
  refine reads_word rfl ?_
  refine .bind (u := [.name "try"]) (F := fun _ => True) (reads_advance _) ?_ fun _ _ => trivial
  refine hBody.bind ?_ fun _ _ => trivial
  cases handler with
  | none =>
      cases hCatch rfl
      have hFinally : finalizer.isSome = true := by simpa using hSome
      obtain ⟨m, rfl⟩ := Option.isSome_iff_exists.1 hFinally
      exact .bind (u := []) reads_eatName_not (.bind (u := []) (F := fun _ => True) .pure hRest
        fun _ _ => trivial) fun _ _ => rfl
  | some n =>
      obtain ⟨hReads, hHead⟩ := hHandler n rfl
      refine .bind (u := [.name "catch"]) (F := fun _ => True) reads_eatName ?_ fun _ _ => trivial
      change Reads _ ((handlerWords param ++ n.words) ++ _) _ _
      rw [List.append_assoc]
      refine (reads_handlerParam hParam).bind ?_ fun next _ => ?_
      · refine hReads.bind ?_ fun _ _ => trivial
        exact .bind (u := []) (F := fun _ => True) .pure hRest fun _ _ => trivial
      · rw [head?_append_or, head?_or (by rintro hNil; simp [hNil] at hHead), hHead]

end Blocks

end Grammar

end CodeShape
