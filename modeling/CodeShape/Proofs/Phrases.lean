import CodeShape.Proofs.Leading

/-!
What the rules for expressions make of words. Each rule reads the words of a construct if the rules
of the level below read the words of its parts. What may follow grows with the rule: an operand ends
before all that is not a call or a member access, an expression before what no rule goes on with.
-/
namespace CodeShape

open CodeShape.Parser Lexeme

namespace Lexeme

/-- A word that goes on with the operand before it. -/
def continuesOperand : Lexeme → Bool
  | .punct .openParen | .punct .dot | .punct .openBracket | .template _ _ => true
  | _ => false

/-- A word before which an expression ends; in the head of a loop, also the word `in`. -/
def endsExpression (noIn : Bool) : Lexeme → Bool
  | .punct p =>
    [Punct.comma, .semicolon, .colon, .closeParen, .closeBracket, .closeBrace].contains p
  | .name text => text == "of" || (noIn && text == "in")
  | _ => false

end Lexeme

/-- A test that no template passes does not see the places in templates. -/
theorem bind_map_plain {γ : Type} (test : Lexeme → Option γ)
    (hTest : ∀ q ps q' ps', test (.template q ps) = test (.template q' ps'))
    (next : Option Lexeme) : (next.map Lexeme.plain).bind test = next.bind test := by
  cases next with
  | none => rfl
  | some w => exact plain_test test hTest w

namespace Grammar

/-- Nothing follows that goes on with an operand. -/
def EndsOperand (next : Option Lexeme) : Prop := next.any continuesOperand = false

/-- Nothing follows that goes on with an operand, nor an update. -/
structure EndsUnary (next : Option Lexeme) : Prop where
  operand : EndsOperand next
  update : next.bind updateOperator? = none

/-- What follows is no operator of the given power. -/
structure EndsBinary (noIn : Bool) (power : Nat) (next : Option Lexeme) : Prop where
  unary : EndsUnary next
  operator : ∀ o ∈ next.bind (operator? noIn), o.1 < power

/-- What follows is no operator, nor does it start a choice. -/
structure EndsChoice (noIn : Bool) (next : Option Lexeme) : Prop where
  unary : EndsUnary next
  operator : next.bind (operator? noIn) = none
  question : next.any (isSign .question) = false

/-- What follows is nothing that a look ahead goes for. -/
def NotAhead (next : Option Lexeme) : Prop :=
  next.any (isSign .openParen) = false ∧ next.any (isName "function") = false ∧
    next.any (isSign .arrow) = false

/-- What follows ends an expression. -/
def EndsExpression (noIn : Bool) (next : Option Lexeme) : Prop :=
  next.all (endsExpression noIn) = true

variable {noIn : Bool} {next : Option Lexeme}

/-- A climb ends before what is no operator. -/
theorem EndsBinary.of_none {power : Nat} (h : EndsUnary next)
    (hNone : next.bind (operator? noIn) = none) : EndsBinary noIn power next :=
  ⟨h, by rw [hNone]; exact nofun⟩

/-- What ends an expression ends a choice. -/
theorem EndsExpression.choice (h : EndsExpression noIn next) : EndsChoice noIn next := by
  cases next with
  | none => exact ⟨⟨rfl, rfl⟩, rfl, rfl⟩
  | some w =>
      cases w with
      | punct p =>
          cases p <;> first | exact ⟨⟨rfl, rfl⟩, rfl, rfl⟩ | cases h
      | name text =>
          simp only [EndsExpression, Option.all_some, endsExpression, Bool.or_eq_true,
            Bool.and_eq_true, beq_iff_eq] at h
          rcases h with rfl | ⟨rfl, rfl⟩
          · exact ⟨⟨rfl, rfl⟩, rfl, rfl⟩
          · exact ⟨⟨rfl, rfl⟩, rfl, rfl⟩
      | _ => cases h

/-- What ends an expression ends one that is also ended by `in`. -/
theorem EndsExpression.of_and {b : Bool} (h : EndsExpression (noIn && b) next) :
    EndsExpression noIn next := by
  cases next with
  | none => rfl
  | some w =>
      cases w with
      | name text =>
          simp only [EndsExpression, Option.all_some, endsExpression, Bool.or_eq_true,
            Bool.and_eq_true, beq_iff_eq] at h ⊢
          exact h.imp_right fun h => ⟨h.1.1, h.2⟩
      | _ => exact h

/-- What ends an expression is no assignment sign. -/
theorem EndsExpression.assign (h : EndsExpression noIn next) : next.bind assignOperator? = none := by
  cases next with
  | none => rfl
  | some w =>
      cases w with
      | punct p => cases p <;> first | rfl | cases h
      | name text => rfl
      | _ => cases h

/-- What ends an expression is none of the signs that go on with one. -/
theorem EndsExpression.not_sign {sign : Punct} (hSign : ∀ b, endsExpression b (.punct sign) = false)
    (h : EndsExpression noIn next) : next.any (isSign sign) = false := by
  cases next with
  | none => rfl
  | some w =>
      cases w with
      | punct p =>
          refine beq_eq_false_iff_ne.2 ?_
          rintro rfl
          exact absurd (h.symm.trans (hSign noIn)) nofun
      | _ => rfl

theorem EndsExpression.notAhead (h : EndsExpression noIn next) : NotAhead next := by
  cases next with
  | none => exact ⟨rfl, rfl, rfl⟩
  | some w =>
      cases w with
      | punct p => cases p <;> first | exact ⟨rfl, rfl, rfl⟩ | cases h
      | name text =>
          simp only [EndsExpression, Option.all_some, endsExpression, Bool.or_eq_true,
            Bool.and_eq_true, beq_iff_eq] at h
          rcases h with rfl | ⟨-, rfl⟩ <;> exact ⟨rfl, by decide, rfl⟩
      | _ => cases h

section Operands

variable (g : Grammar)

/-- What may go on with an operand. -/
def operandStep (e : Node) : Parser (Option Node) := do
  match ← next? with
  | some (.punct .openParen) => return some (.call e (← g.arguments))
  | some (.punct .dot) | some (.punct .openBracket) => return some (← g.memberAccess e)
  | some (.template _ _) => unsupported .taggedTemplates
  | _ => return none

theorem callRule_eq : g.callRule = (do grow g.operandStep (← g.constructOrPrimary)) := rfl

/-- What may go on with the callee of `new`. -/
def calleeStep (e : Node) : Parser (Option Node) := do
  if ← seesAny [.dot, .openBracket] then return some (← g.memberAccess e) else return none

theorem constructedRule_eq :
    g.constructedRule = (do grow g.calleeStep (← g.constructOrPrimary)) := rfl

/-- The words are a first operand and what the steps of a loop make of it. -/
def ReadsGrown (step : Node → Parser (Option Node)) (ws : List Lexeme) (e : Node) : Prop :=
  ∃ u v start, ws = u ++ v ∧ Reads g.constructOrPrimary u start (fun _ => True) ∧
    Extends step start v e fun _ => True

/-- The words are an operand, whatever follows them. -/
def ReadsOperand (ws : List Lexeme) (e : Node) : Prop := ReadsGrown g g.operandStep ws e

/-- The words are what `new` constructs, whatever follows them. -/
def ReadsCallee (ws : List Lexeme) (e : Node) : Prop := ReadsGrown g g.calleeStep ws e

variable {g} {ws us : List Lexeme} {e : Node}

namespace ReadsGrown

variable {step : Node → Parser (Option Node)}

/-- A chain may be its operand alone. -/
theorem start (h : Reads g.constructOrPrimary ws e fun _ => True) : ReadsGrown g step ws e :=
  ⟨ws, [], e, by simp, h, .refl⟩

/-- A chain starts with an operand that is no construction. -/
theorem primary (h : Reads g.primary ws e fun _ => True)
    (hNew : ∀ next : Option Lexeme, (ws.head?.or next).any (isName "new") = false) :
    ReadsGrown g step ws e :=
  .start (.bind (u := []) reads_eatName_not h fun next _ => hNew next)

/-- A chain goes on with one step more. Its first word is what the chain stops at otherwise. -/
theorem snoc {c : Node} {w : Lexeme} (h : ReadsGrown g step ws e)
    (hStep : Reads (step e) (w :: us) (some c) fun _ => True) :
    ReadsGrown g step (ws ++ w :: us) c := by
  obtain ⟨u, v, start, rfl, hStart, hMore⟩ := h
  exact ⟨u, v ++ w :: us, start, by simp, hStart, hMore.snoc hStep nofun fun _ _ => trivial⟩

end ReadsGrown

namespace ReadsOperand

theorem primary (h : Reads g.primary ws e fun _ => True)
    (hNew : ∀ next : Option Lexeme, (ws.head?.or next).any (isName "new") = false) :
    ReadsOperand g ws e := ReadsGrown.primary h hNew

/-- A chain goes on with arguments. -/
theorem call {args : List Node} (h : ReadsOperand g ws e)
    (hArgs : Reads g.arguments (.punct .openParen :: us) args fun _ => True) :
    ReadsOperand g (ws ++ .punct .openParen :: us) (.call e args) :=
  ReadsGrown.snoc h (.peek_word rfl hArgs.done)

/-- A chain goes on with a member access. -/
theorem access {c : Node} {w : Lexeme} (h : ReadsOperand g ws e)
    (hw : w = .punct .dot ∨ w = .punct .openBracket)
    (hAccess : Reads (g.memberAccess e) (w :: us) c fun _ => True) :
    ReadsOperand g (ws ++ w :: us) c := by
  refine ReadsGrown.snoc h ?_
  rcases hw with rfl | rfl
  · exact .peek_word rfl hAccess.done
  · exact .peek_word rfl hAccess.done

/-- An operand ends where nothing goes on with it. -/
theorem reads_callRule (h : ReadsOperand g ws e) : Reads g.callRule ws e EndsOperand := by
  obtain ⟨u, v, start, rfl, hStart, hMore⟩ := h
  rw [callRule_eq]
  refine hStart.bind (Extends.reads_grow (F := EndsOperand) (hMore.mono fun _ _ => trivial) ?_)
    fun _ _ => trivial
  refine .peek_next fun next hNext => ?_
  cases next with
  | none => exact .pure
  | some w =>
      cases w with
      | punct p => cases p <;> first | exact .pure | cases hNext
      | template => cases hNext
      | _ => exact .pure

end ReadsOperand

namespace ReadsCallee

/-- What is constructed may be accessed, and not called. -/
theorem access {c : Node} {w : Lexeme} (h : ReadsCallee g ws e)
    (hw : w = .punct .dot ∨ w = .punct .openBracket)
    (hAccess : Reads (g.memberAccess e) (w :: us) c fun _ => True) :
    ReadsCallee g (ws ++ w :: us) c := by
  refine ReadsGrown.snoc h (.look (looks_seesAny (b := true)) hAccess.done fun _ _ => ?_)
  rcases hw with rfl | rfl <;> rfl

/-- What `new` constructs ends before its arguments. -/
theorem reads_constructedRule (h : ReadsCallee g ws e) :
    Reads g.constructedRule ws e (· = some (.punct .openParen)) := by
  obtain ⟨u, v, start, rfl, hStart, hMore⟩ := h
  rw [constructedRule_eq]
  refine hStart.bind (Extends.reads_grow (hMore.mono fun _ _ => trivial) ?_) fun _ _ => trivial
  refine .look (looks_seesAny (b := false)) .pure ?_
  rintro _ rfl
  rfl

/-- A `new` expression takes the first arguments. -/
theorem reads_construct {args : List Node} (h : Reads g.constructed ws e (· = some (.punct .openParen)))
    (hArgs : Reads g.arguments (.punct .openParen :: us) args fun _ => True) :
    Reads g.constructOrPrimary (.name "new" :: ws ++ .punct .openParen :: us) (.construct e args)
      fun _ => True := by
  refine .bind (u := [.name "new"]) (v := ws ++ _) (F := fun _ => True) reads_eatName ?_
    fun _ _ => trivial
  refine h.bind (.look (looks_sees (b := true)) hArgs.done fun _ _ => rfl) fun _ _ => rfl

end ReadsCallee

/-- What ends one or several expressions divided by commas. -/
structure EndsSequence (noIn : Bool) (next : Option Lexeme) : Prop where
  expression : EndsExpression noIn next
  comma : next.any (isSign .comma) = false

/-- One expression without a comma after it is read for itself. -/
theorem reads_single {p : Parser Node} {noIn : Bool} (h : Reads p ws e (EndsExpression noIn)) :
    Reads (expressionOf p) ws e (EndsSequence noIn) := by
  have hItems := reads_commaSeparated (G := fun _ => EndsExpression noIn) (F := EndsSequence noIn)
    (fun _ => rfl) (fun _ h _ _ => h.expression) (fun _ h => h.comma) h .nil
  rw [commas_singleton] at hItems
  rw [← List.append_nil ws]
  exact .bind hItems .pure fun _ h => h

/-- Several expressions. What may follow depends on the last of them. -/
theorem reads_sequence {p : Parser Node} {noIn : Bool} {items : List Node}
    (hLength : 2 ≤ items.length)
    (h : ∀ n ∈ items, Reads p n.words n (EndsExpression (noIn && !n.trails))) :
    Reads (expressionOf p) (commas (items.map Node.words)) (.sequence items)
      (EndsSequence (noIn && !(Node.sequence items).trails)) := by
  match items, hLength with
  | n :: n' :: items, _ =>
      rw [List.forall_mem_cons] at h
      have hItems : Reads (commaSeparated p) (commas (n.words :: (n' :: items).map Node.words))
          (n :: n' :: items) (EndsSequence (noIn && !(Node.sequence (n :: n' :: items)).trails)) := by
        refine reads_commaSeparated (G := fun n : Node => EndsExpression (noIn && !n.trails))
          (fun _ => rfl) (fun next hNext b hLast => ?_) (fun _ h => h.comma) h.1 ?_
        · rw [← Node.trailsLast_eq hLast]
          exact hNext.expression
        · exact List.forall₂_map_left_iff.2 (List.forall₂_same.2 h.2)
      rw [List.map_cons, ← List.append_nil (commas _)]
      exact .bind hItems .pure fun _ h => h

/-- An expression in parentheses. -/
theorem reads_parenthesised (h : Reads (expressionOf (g.assignment false)) ws e
      (EndsSequence false)) : Reads g.primary (Node.wrapped ws) e fun _ => True := by
  refine .peek_word rfl ?_
  refine .bind (u := [.punct .openParen]) (F := fun _ => True) (reads_advance _) ?_ fun _ _ => trivial
  refine .bind h (.bind (v := []) (F := fun _ => True) reads_expect .pure fun _ h => h) ?_
  exact fun _ _ => ⟨rfl, rfl⟩

/-- An expression in parentheses is an operand. -/
theorem ReadsOperand.parenthesised (h : Reads (expressionOf (g.assignment false)) ws e
      (EndsSequence false)) : ReadsOperand g (Node.wrapped ws) e :=
  .primary (reads_parenthesised h) fun _ => rfl

/-- An element of a list, which is not spread. -/
theorem reads_spreadable {p : Parser Node} {G : Option Lexeme → Prop} (h : Reads p ws e G)
    (hHead : ws.head?.any (startsExpression false) = true) : Reads (spreadable p) ws e G := by
  have hNot : ∀ next : Option Lexeme, (ws.head?.or next).any (isSign .ellipsis) = false := by
    intro next
    cases ws with
    | nil => cases hHead
    | cons w ws =>
        cases w with
        | punct q => cases q <;> first | rfl | cases hHead
        | _ => rfl
  exact .bind (u := []) reads_eat_not h fun next _ => hNot next

/-- Items with commas between them, in parentheses, are read as arguments. -/
theorem reads_arguments {wss : List (List Lexeme)} {args : List Node}
    (h : List.Forall₂ (ReadsItem (spreadable (g.assignment false)) .closeParen) wss args) :
    Reads g.arguments (Node.wrapped (commas wss)) args fun _ => True :=
  .bind (u := [.punct .openParen]) (F := fun _ => True) reads_expect
    (reads_listed (by decide) h) fun _ _ => trivial

/-- A dot and a name are read as a member access. -/
theorem reads_memberName {name : String} :
    Reads (g.memberAccess e) [.punct .dot, .name name] (.member e (.ident name) false)
      fun _ => True :=
  .bind (u := [.punct .dot]) (F := fun _ => True) reads_eat reads_propertyName.done
    fun _ _ => trivial

/-- An expression in brackets is read as a key. -/
theorem reads_memberKey {key : Node}
    (h : Reads (expressionOf (g.assignment false)) ws key (EndsSequence false)) :
    Reads (g.memberAccess e) (Node.bracketed .openBracket .closeBracket ws) (.member e key true)
      fun _ => True := by
  refine .bind (u := []) reads_eat_not ?_ fun _ _ => rfl
  refine .bind (u := [.punct .openBracket]) (F := fun _ => True) reads_expect ?_ fun _ _ => trivial
  refine .bind h (.bind (v := []) (F := fun _ => True) reads_expect .pure fun _ h => h) ?_
  exact fun _ _ => ⟨rfl, rfl⟩

/-- A word that stands for itself. -/
theorem reads_wordOperand {name : String} (h : keywords.contains name = false) :
    Reads g.primary [.name name] (.ident name) fun _ => True := by
  refine .peek_word rfl ?_
  have hOperand : g.wordOperand name = (do return .ident (← identifier)) := by
    refine wordOperand_other fun hName => ?_
    have hKeyword : ∀ t ∈ ["this", "true", "false", "null", "function", "class", "super", "import"],
        keywords.contains t = true := by decide
    exact absurd (h.symm.trans (hKeyword name hName)) nofun
  dsimp only
  rw [hOperand]
  exact (reads_identifier h).done

/-- A word that is taken as it is. -/
theorem reads_taken {w : Lexeme} :
    Reads (do advance; return e) [w] e fun _ => True :=
  .bind (u := [w]) (v := []) (F := fun _ => True) (reads_advance w) .pure fun _ h => h

/-- The words of an array element: none for one that is left out. -/
inductive ReadsElement (g : Grammar) : List Lexeme → Node → Prop where
  | hole : ReadsElement g [] .hole
  | item {ws : List Lexeme} {n : Node} (hHole : Node.endsWithHole [n] = false)
      (h : ReadsItem (spreadable (g.assignment false)) .closeBracket ws n)
      (hComma : ws.head?.any (isSign .comma) = false) : ReadsElement g ws n

/-- An element, with the comma after it if it is not the last. -/
def element (g : Grammar) : Parser (List Node) := do
  if ← eat .comma then return [.hole]
  else
    let element ← spreadable (g.assignment false)
    unless ← sees .closeBracket do expect .comma
    return [element]

theorem array_eq : g.array = (do
    expect .openBracket
    return .array (← enclosed .closeBracket g.element)) := rfl

/-- A comma where an element could be leaves one out. -/
theorem reads_element_hole : Reads g.element [.punct .comma] [.hole] fun _ => True :=
  .bind (v := []) (F := fun _ => True) reads_eat .pure fun _ h => h

/-- An element is read with the comma after it, unless the bracket closes the array. -/
theorem reads_element {last : Bool}
    (h : ReadsItem (spreadable (g.assignment false)) .closeBracket ws e)
    (hComma : ws.head?.any (isSign .comma) = false) :
    Reads g.element (ws ++ if last then [] else [.punct .comma]) [e] fun next =>
      last = true → next = some (.punct .closeBracket) := by
  refine .bind (u := []) (v := ws ++ _) reads_eat_not ?_ fun next _ => ?_
  · cases last with
    | true =>
        refine h.reads.bind (.look (looks_sees (b := true)) .pure fun next h => ?_) fun next h => ?_
        · rw [h rfl]
          rfl
        · exact .inr (h rfl)
    | false =>
        refine h.reads.bind (.look (looks_sees (b := false)) reads_expect.done fun _ _ => rfl) ?_
        exact fun _ _ => .inl rfl
  · rw [head?_append_or, head?_or h.nonempty]
    exact hComma

theorem endsWithHole_cons_cons (n n' : Node) (ns : List Node) :
    Node.endsWithHole (n :: n' :: ns) = Node.endsWithHole (n' :: ns) := by
  rw [Node.endsWithHole, Node.endsWithHole, List.getLast?_cons_cons]

/-- An array literal. A last element that is left out has a comma of its own. -/
theorem reads_array {wss : List (List Lexeme)} {elements : List Node}
    (h : List.Forall₂ (ReadsElement g) wss elements) :
    Reads g.array (Node.bracketed .openBracket .closeBracket (commas wss ++
      if Node.endsWithHole elements then [.punct .comma] else [])) (.array elements)
      fun _ => True := by
  have hCollects : ∃ ass, ass.flatten = elements ∧ Collects
      (do if ← eat .closeBracket then return none else return some (← g.element))
      ((commas wss ++ if Node.endsWithHole elements then [.punct .comma] else []) ++
        [.punct .closeBracket]) ass fun _ => True := by
    induction h with
    | nil => exact ⟨[], rfl, collects_close⟩
    | @cons ws n wss elements hFirst hRest ih =>
        obtain ⟨ass, hFlat, hCollects⟩ := ih
        refine ⟨[n] :: ass, by simp [hFlat], ?_⟩
        cases hFirst with
        | hole =>
            have hWords : commas ([] :: wss) ++
                (if Node.endsWithHole (.hole :: elements) then [.punct .comma] else []) =
                [Lexeme.punct .comma] ++ (commas wss ++
                  if Node.endsWithHole elements then [.punct .comma] else []) := by
              cases hRest with
              | nil => rfl
              | cons => simp [endsWithHole_cons_cons]
            rw [hWords, List.append_assoc]
            exact collects_item reads_element_hole nofun rfl hCollects fun _ _ => trivial
        | item hHole hItem hComma =>
            have hWords : commas (ws :: wss) ++
                (if Node.endsWithHole (n :: elements) then [.punct .comma] else []) =
                (ws ++ if wss.isEmpty then [] else [.punct .comma]) ++ (commas wss ++
                  if Node.endsWithHole elements then [.punct .comma] else []) := by
              cases hRest with
              | nil =>
                  rw [hHole]
                  simp [show Node.endsWithHole [] = false from rfl]
              | cons => simp [endsWithHole_cons_cons]
            rw [hWords, List.append_assoc]
            have hNonempty := hItem.nonempty
            refine collects_item (reads_element hItem hComma) (by simp [hNonempty]) ?_ hCollects ?_
            · rw [List.head?_append, head?_or hNonempty]
              exact hItem.opens
            · intro next _ hLast
              cases hRest with
              | nil => rfl
              | cons => cases hLast
  obtain ⟨ass, rfl, hCollects⟩ := hCollects
  rw [array_eq]
  refine .bind (u := [.punct .openBracket]) (F := fun _ => True) reads_expect ?_ fun _ _ => trivial
  exact hCollects.reads_enclosed.done

/-- The words of a stream up to their places. -/
theorem spelled_of_plainWords {part : TokenStream}
    (h : plainWords part.words = (Node.partOf ws).words) : Spelled part.words ws := by
  rw [plainWords_eq_map] at h
  have hWords := congrArg (List.map Located.word) h
  have hFlags := congrArg (List.map Located.afterLineEnd) h
  simp only [Node.partOf, List.map_map, Function.comp_def, List.map_id'] at hWords hFlags
  refine ⟨hWords, fun t ht => ?_⟩
  have hMem := List.mem_map_of_mem (f := Located.afterLineEnd) (List.mem_of_mem_tail ht)
  rw [hFlags] at hMem
  obtain ⟨w, -, hw⟩ := List.mem_map.1 hMem
  exact hw.symm

/-- Another stream is read to its end. -/
theorem inside_run {α : Type} {p : Parser α} {a : α} {F : Option Lexeme → Prop} {part : TokenStream}
    {wanted : String} (h : Reads p ws a F) (hEnd : F none) (hPart : Spelled part.words ws)
    (stream : TokenStream) : inside part p wanted stream = .ok (a, stream) := by
  have hRun := h part.words [] part.stop hPart hEnd
  rw [List.append_nil] at hRun
  have hWhole : (do
      let a ← p
      if ← atEnd then return a else expected wanted : Parser α).run part =
        .ok (a, ⟨[], part.stop⟩) := by
    change (p ⟨part.words, part.stop⟩ >>= fun r => _) = _
    rw [hRun]
    rfl
  unfold inside
  simp only [hWhole]
  rfl

/-- Parsers that leave the stream alone are run one after the other on the same stream. -/
theorem mapM_run {α β : Type} {f : α → Parser β} {as : List α} {bs : List β}
    (h : List.Forall₂ (fun a b => ∀ stream, f a stream = .ok (b, stream)) as bs)
    (stream : TokenStream) : as.mapM f stream = .ok (bs, stream) := by
  induction h with
  | nil => rfl
  | @cons a b as bs hFirst _ ih =>
      rw [List.mapM_cons]
      change (f a stream >>= fun r => _) = _
      rw [hFirst]
      change (as.mapM f stream >>= fun r => _) = _
      rw [ih]
      rfl

/-- A template, each expression of which is a stream of its own. -/
theorem reads_template {quasis : List String} {wss : List (List Lexeme)} {es : List Node}
    (h : List.Forall₂ (fun ws e => Reads (expressionOf (g.assignment false)) ws e
      (EndsSequence false)) wss es) :
    Reads g.primary [.template quasis (wss.map Node.partOf)] (.template quasis es)
      fun _ => True := by
  refine .peek fun x hx => ?_
  cases x with
  | template quasis' parts =>
      simp only [plain, template.injEq] at hx
      obtain ⟨rfl, hParts⟩ := hx
      have hInside : List.Forall₂ (fun part e => ∀ stream, inside part
          (expressionOf (g.assignment false)) "the end of the substitution" stream =
            .ok (e, stream)) parts es := by
        induction h generalizing parts with
        | nil =>
            cases parts with
            | nil => exact .nil
            | cons part parts => cases hParts
        | cons hFirst _ ih =>
            cases parts with
            | nil => cases hParts
            | cons part parts =>
                obtain ⟨hPart, hRest⟩ := List.cons.inj hParts
                have hWords := spelled_of_plainWords (congrArg Words.words hPart)
                exact .cons (inside_run hFirst ⟨rfl, rfl⟩ hWords) (ih parts hRest)
      refine .bind (v := []) (F := fun _ => True) (reads_advance _) ?_ fun _ _ => trivial
      intro tokens rest stop hs _
      cases hs.eq_nil
      change ((parts.mapM _ : Parser (List Node)) ⟨[] ++ rest, stop⟩ >>= fun r => _) = _
      rw [mapM_run hInside]
      rfl
  | _ => cases hx

end Operands

section Rules

variable {g : Grammar} {ws us vs : List Lexeme} {e : Node} {noIn : Bool}

/-- What starts an operand is no operator, nor `await`. -/
theorem not_operator_of_startsOperand {w : Lexeme} (h : w.startsOperand false = true) :
    w.isName "await" = false ∧ unaryOperator? w = none ∧ updateOperator? w = none := by
  cases w with
  | name text =>
      have hWords : ∀ t ∈ ["await", "typeof", "void", "delete"],
          (Lexeme.name t).startsOperand false = false := by decide
      have hNot : ∀ t ∈ ["await", "typeof", "void", "delete"], text ≠ t := by
        rintro t ht rfl
        rw [hWords text ht] at h
        cases h
      refine ⟨beq_eq_false_iff_ne.2 (hNot _ (by decide)), ?_, rfl⟩
      have hTypeOf := hNot "typeof" (by decide)
      have hVoid := hNot "void" (by decide)
      have hDelete := hNot "delete" (by decide)
      simp [unaryOperator?, hTypeOf, hVoid, hDelete]
  | punct p =>
      cases p with
      | openParen | openBracket | openBrace => exact ⟨rfl, rfl, rfl⟩
      | _ => cases h
  | _ => exact ⟨rfl, rfl, rfl⟩

/-- What starts like an operand has no operator in front of it. -/
theorem reads_unaryRule_of {G : Option Lexeme → Prop}
    (hHead : ws.head?.any (startsOperand false) = true)
    (h : Reads (do updateAfter (← g.callRule)) ws e G) : Reads g.unaryRule ws e G := by
  cases ws with
  | nil => cases hHead
  | cons w ws =>
      obtain ⟨hAwait, hUnary, hUpdate⟩ := not_operator_of_startsOperand hHead
      unfold unaryRule
      refine .place fun start => .peek fun x hx => ?_
      refine .look (looks_seesName (b := false)) ?_ fun _ _ => hAwait
      have hUnary' : unaryOperator? x = none := by
        rw [← plain_test unaryOperator? (fun _ _ _ _ => rfl), hx, hUnary]
      have hUpdate' : updateOperator? x = none := by
        rw [← plain_test updateOperator? (fun _ _ _ _ => rfl), hx, hUpdate]
      simp only [Option.bind_some, hUnary', hUpdate', Bool.false_eq_true, if_false]
      exact h

/-- An operand without an operator. -/
theorem reads_unaryRule (h : Reads g.callRule ws e EndsOperand)
    (hHead : ws.head?.any (startsOperand false) = true) : Reads g.unaryRule ws e EndsUnary := by
  refine reads_unaryRule_of hHead ?_
  rw [← List.append_nil ws]
  refine .bind h (.peek_next fun next hNext => ?_) fun _ h => h.operand
  rw [← bind_map_plain updateOperator? (fun _ _ _ _ => rfl), hNext.update]
  exact .pure

/-- An update after its operand. -/
theorem reads_updateAfter {op : UpdateOp} (hTarget : isTarget e = true)
    (h : Reads g.callRule ws e EndsOperand) (hHead : ws.head?.any (startsOperand false) = true) :
    Reads g.unaryRule (ws ++ [.punct (.update op)]) (.update op false e) EndsUnary := by
  refine reads_unaryRule_of (head?_append hHead)
    (ReadsInline.after h (ne_nil_of_starts hHead) ?_ fun _ _ => rfl)
  refine .peek_word rfl ?_
  simp only [Option.bind_some, updateOperator?]
  refine .onNewLine nofun (.of_reads ?_)
  simp only [hTarget, Bool.not_true, Bool.false_eq_true, if_false]
  exact .bind (v := []) (F := fun _ => True) (reads_advance _) .pure fun _ _ => trivial

/-- An update in front of its operand. -/
theorem reads_updateBefore {op : UpdateOp} (hTarget : isTarget e = true)
    (h : Reads g.unary ws e EndsUnary) :
    Reads g.unaryRule (.punct (.update op) :: ws) (.update op true e) EndsUnary := by
  unfold unaryRule
  refine .place fun start => .peek_word rfl ?_
  refine .look (looks_seesName (b := false)) ?_ fun _ _ => rfl
  simp only [Option.bind_some, unaryOperator?, updateOperator?, Bool.false_eq_true, if_false]
  refine .bind (u := [_]) (F := fun _ => True) (reads_advance _) ?_ fun _ _ => trivial
  rw [← List.append_nil ws]
  refine h.bind ?_ fun _ h => h
  rw [if_pos hTarget]
  exact .pure

/-- An operator in front of its operand. -/
theorem reads_unary {op : UnaryOp} (h : Reads g.unary ws e EndsUnary) :
    Reads g.unaryRule (op.word :: ws) (.unary op e) EndsUnary := by
  have hWord : op.word.isTemplate = false ∧ op.word.isName "await" = false ∧
      unaryOperator? op.word = some op := by
    cases op <;> exact ⟨rfl, rfl, rfl⟩
  obtain ⟨hTemplate, hAwait, hUnary⟩ := hWord
  unfold unaryRule
  refine .place fun start => .peek_word hTemplate ?_
  refine .look (looks_seesName (b := false)) ?_ fun _ _ => hAwait
  simp only [Option.bind_some, hUnary, Bool.false_eq_true, if_false]
  exact .bind (u := [op.word]) (F := fun _ => True) (reads_advance _) h.done fun _ _ => trivial

/-- The step that takes an operator and its right operand. -/
def operatorStep (g : Grammar) (noIn : Bool) (power : Nat) (left : Node) : Parser (Option Node) := do
  match (← next?).bind (operator? noIn) with
  | none => return none
  | some (p, make) =>
    if p < power then return none
    else
      advance
      let right ← g.binary noIn (if p = binaryPower .exp then p else p + 1)
      return some (make left right)

theorem binaryRule_eq (power : Nat) :
    g.binaryRule noIn power = (do grow (g.operatorStep noIn power) (← g.unaryRule)) := rfl

/-- No step is made before what ends the climb. -/
theorem reads_operatorStep_none {power : Nat} :
    Reads (g.operatorStep noIn power e) [] none (EndsBinary noIn power) := by
  refine .peek_next fun next hNext => ?_
  have hOperator := hNext.operator
  rw [bind_map_plain (operator? noIn) (fun _ _ _ _ => rfl)] at hOperator
  cases hBind : next.bind (operator? noIn) with
  | none => exact .pure
  | some o =>
      obtain ⟨p, make⟩ := o
      have hPower : p < power := hOperator (p, make) hBind
      simp only [hPower, if_true]
      exact .pure

/-- An operand without an operator after it. -/
theorem reads_binaryRule {power : Nat} (h : Reads g.unaryRule ws e EndsUnary) :
    Reads (g.binaryRule noIn power) ws e (EndsBinary noIn power) := by
  rw [binaryRule_eq, ← List.append_nil ws]
  exact h.bind (Extends.refl.reads_grow reads_operatorStep_none) fun _ h => h.unary

/-- An operator between two operands. -/
theorem reads_operator {power p : Nat} {w : Lexeme} {make : Node → Node → Node} {left right : Node}
    (hw : w.isTemplate = false) (hOperator : operator? noIn w = some (p, make)) (hPower : power ≤ p)
    (hEnds : EndsUnary (some w)) (hLeft : Reads g.unaryRule us left EndsUnary)
    (hRight : Reads (g.binary noIn (if p = binaryPower .exp then p else p + 1)) vs right
      (EndsBinary noIn power)) :
    Reads (g.binaryRule noIn power) (us ++ w :: vs) (make left right) (EndsBinary noIn power) := by
  rw [binaryRule_eq]
  refine hLeft.bind (Extends.reads_grow ?_ reads_operatorStep_none) fun _ _ => hEnds
  refine Extends.snoc (u := []) (G := fun _ => True) .refl ?_ nofun fun _ _ => trivial
  refine .peek_word hw ?_
  have hNot : ¬ p < power := Nat.not_lt.2 hPower
  simp only [Option.bind_some, hOperator, hNot, if_false]
  exact .bind (u := [w]) (F := fun _ => True) (reads_advance _) hRight.done fun _ _ => trivial

/-- An expression that nothing is chosen by. -/
theorem reads_conditional (h : Reads (g.binaryRule noIn 1) ws e (EndsBinary noIn 1)) :
    Reads (g.conditional noIn) ws e (EndsChoice noIn) := by
  unfold conditional
  rw [← List.append_nil ws]
  refine h.bind (.bind (u := []) (v := []) reads_eat_not .pure fun _ h => h.question) ?_
  exact fun _ h => .of_none h.unary h.operator

/-- A choice between two expressions. -/
theorem reads_choice {test consequent alternate : Node}
    (hTest : Reads (g.binaryRule noIn 1) ws test (EndsBinary noIn 1))
    (hConsequent : Reads (g.assignment false) us consequent (EndsExpression false))
    {G : Option Lexeme → Prop} (hAlternate : Reads (g.assignment noIn) vs alternate G) :
    Reads (g.conditional noIn) (ws ++ .punct .question :: us ++ .punct .colon :: vs)
      (.conditional test consequent alternate) G := by
  unfold conditional
  rw [List.append_assoc]
  refine hTest.bind ?_ fun _ _ => ⟨⟨rfl, rfl⟩, nofun⟩
  refine .bind (u := [.punct .question]) (F := fun _ => True) reads_eat ?_ fun _ _ => trivial
  refine hConsequent.bind ?_ fun _ _ => rfl
  exact .bind (u := [.punct .colon]) (F := fun _ => True) reads_expect hAlternate.done
    fun _ _ => trivial

theorem any_or {test : Lexeme → Bool} {w? next : Option Lexeme} (h : next.any test = false) :
    (w?.or next).any test = w?.any test := by
  cases w? with
  | none => exact h
  | some w => rfl

/-- The look for an arrow past a closing bracket. -/
theorem arrowAfter_close {t : Token} {rest : List Token} (ht : t.word = .punct .closeParen) :
    arrowAfter 1 (t :: rest) = (nextWord rest).any (isSign .arrow) := by
  obtain ⟨word, span, flag⟩ := t
  cases ht
  cases rest with
  | nil => rfl
  | cons t rest =>
      obtain ⟨word, span, flag⟩ := t
      cases word with
      | punct p => cases p <;> rfl
      | _ => rfl

/-- Whether parentheses are a function is told by what follows them. -/
theorem looks_seesArrow (h : Nested us) {b : Bool} :
    Looks seesArrow (Node.wrapped us) b fun next => next.any (isSign .arrow) = b := by
  unfold seesArrow
  refine .bind (looks_sees (b := true) |>.mono fun _ _ => rfl) ?_
  simp only [if_true]
  intro tokens rest stop hs hNext
  obtain ⟨opening, ts, rfl, hOpening, hRest⟩ := hs.exists_cons
  obtain ⟨inner, ts, rfl, hInner, hClose, -⟩ := hRest.exists_append
  obtain ⟨closing, ts, rfl, hClosing, hNil⟩ := hClose.exists_cons
  cases hNil.eq_nil
  have hFirst : arrowAfter 0 (opening :: (inner ++ [closing]) ++ rest) =
      arrowAfter 1 (inner ++ closing :: rest) := by
    obtain ⟨word, span, flag⟩ := opening
    cases eq_of_plain hOpening rfl
    rw [List.cons_append, List.append_assoc]
    rfl
  have hAfter : arrowAfter 0 (opening :: (inner ++ [closing]) ++ rest) = b := by
    rw [hFirst, arrowAfter_of_nest hInner.words_eq (h 0),
      arrowAfter_close (eq_of_plain hClosing rfl), hNext]
  change Except.ok (arrowAfter 0 (opening :: (inner ++ [closing]) ++ rest), _) = _
  rw [hAfter]

/-- The look for an arrow function finds none. -/
def NoArrow (ws : List Lexeme) : Prop :=
  Looks seesArrow ws false fun next => next.any (isSign .arrow) = false

namespace NoArrow

/-- What starts with a sign is no function, parentheses apart. -/
theorem of_sign {w : Lexeme} (hParen : w.isSign .openParen = false) (hWord : w.isWord = false) :
    NoArrow (w :: ws) := by
  unfold NoArrow seesArrow
  refine .bind (looks_sees (b := false) |>.mono fun _ _ => hParen) ?_
  simp only [Bool.false_eq_true, if_false]
  refine .bind (looks_seesWord (b := false) |>.mono fun _ _ => hWord) ?_
  intro tokens rest stop hs hNext
  change (signAhead 1 .arrow ⟨tokens ++ rest, stop⟩ >>= fun r => pure (false && r.1, r.2)) = _
  rw [signAhead_run]
  rfl

/-- A word without an arrow after it. -/
theorem of_word {w : Lexeme} (hParen : w.isSign .openParen = false)
    (hArrow : ws.head?.any (isSign .arrow) = false) : NoArrow (w :: ws) := by
  unfold NoArrow seesArrow
  refine .bind (looks_sees (b := false) |>.mono fun _ _ => hParen) ?_
  simp only [Bool.false_eq_true, if_false]
  refine .bind (looks_seesWord (b := w.isWord) |>.mono fun _ _ => rfl) ?_
  refine .bind (looks_signAhead (b := false) |>.mono fun next hNext => ?_) ?_
  · rw [any_or hNext]
    exact hArrow
  · rw [Bool.and_false]
    exact .pure

/-- What starts with another word is told from a function by its first two words. -/
theorem of_calm {w : Lexeme} (hParen : w.isSign .openParen = false) (h : Calm (w :: ws)) :
    NoArrow (w :: ws) := by
  cases hWord : w.isWord with
  | false => exact of_sign hParen hWord
  | true =>
      refine of_word hParen ?_
      cases ws with
      | nil => rfl
      | cons v ws =>
          have hCalm : w.calm v = true := h
          simp only [calm, hWord, Bool.true_and, Bool.and_eq_true, Bool.not_eq_true',
            Bool.or_eq_false_iff] at hCalm
          exact hCalm.1.1

/-- Parentheses are no function if no arrow follows them. -/
theorem wrapped (h : Nested us) : NoArrow (Node.wrapped us) := looks_seesArrow h

/-- What has no arrow in it goes on having none before words that start with none. -/
theorem append (h : NoArrow us) (hArrow : vs.head?.any (isSign .arrow) = false) :
    NoArrow (us ++ vs) := Looks.append h fun _ hNext => (any_or hNext).trans hArrow

end NoArrow

/-- The words do not start like a call of `async` or a function of that kind. -/
def NoAsync (ws : List Lexeme) : Prop :=
  (ws.head?.any (isName "async") &&
    (ws.tail.head?.any (isName "function") || ws.tail.head?.any (isSign .openParen))) = false

/-- Calm words do not start an `async` function. -/
theorem NoAsync.of_calm (h : Calm ws) : NoAsync ws := by
  match ws with
  | [] => rfl
  | [w] => simp [NoAsync]
  | w :: v :: _ =>
      have hCalm : w.calm v = true := h
      simp only [calm, Bool.and_eq_true, Bool.not_eq_true'] at hCalm
      exact hCalm.2

/-- What starts an expression is not the word `yield`. -/
theorem not_yield_of_startsExpression {w : Lexeme} (h : w.startsExpression false = true) :
    w.isName "yield" = false := by
  cases w with
  | name text =>
      refine beq_eq_false_iff_ne.2 ?_
      rintro rfl
      exact absurd h (by decide)
  | _ => rfl

/-- What does not start like a function is read as a choice, with an assignment after it perhaps. -/
theorem reads_assignmentRule {G : Option Lexeme → Prop} (hArrow : NoArrow ws)
    (hAsync : NoAsync ws) (hHead : ws.head?.any (startsExpression false) = true)
    (hNext : ∀ next, G next → NotAhead next)
    (h : ∀ start, Reads (do
      let left ← g.conditional noIn
      match (← next?).bind assignOperator? with
      | none => return left
      | some op =>
        if isDestructuring left then unsupported .destructuring
        else if !isTarget left then throw ⟨.invalidTarget, start⟩
        else
          advance
          return .assign op left (← g.assignment noIn)) ws e G) :
    Reads (g.assignmentRule noIn) ws e G := by
  cases ws with
  | nil => cases hHead
  | cons w ws =>
      unfold assignmentRule
      refine .look hArrow ?_ fun next hG => (hNext next hG).2.2
      simp only [Bool.false_eq_true, if_false]
      refine .look (looks_seesName (b := w.isName "async")) ?_ fun _ _ => rfl
      refine .look (looks_nameAhead (b := ws.head?.any (isName "function"))) ?_
        fun next hG => any_or (hNext next hG).2.1
      refine .look (looks_signAhead (b := ws.head?.any (isSign .openParen))) ?_
        fun next hG => any_or (hNext next hG).1
      have hNot : (w.isName "async" && (ws.head?.any (isName "function") ||
        ws.head?.any (isSign .openParen))) = false := hAsync
      simp only [hNot, Bool.false_eq_true, if_false]
      refine .look (looks_seesName (b := false)) ?_ fun _ _ => not_yield_of_startsExpression hHead
      simp only [Bool.false_eq_true, if_false]
      exact .place h

/-- An expression that is no arrow and that no assignment sign follows is read as a conditional
is. -/
theorem reads_unassigned {G : Option Lexeme → Prop} (hArrow : NoArrow ws) (hAsync : NoAsync ws)
    (hHead : ws.head?.any (startsExpression false) = true)
    (hEnds : ∀ next, G next → EndsExpression noIn next) (h : Reads (g.conditional noIn) ws e G) :
    Reads (g.assignmentRule noIn) ws e G := by
  refine reads_assignmentRule hArrow hAsync hHead (fun next h => (hEnds next h).notAhead)
    fun start => ?_
  rw [← List.append_nil ws]
  refine h.bind (.peek_next fun next hNext => ?_) fun _ h => h
  rw [← bind_map_plain assignOperator? (fun _ _ _ _ => rfl), (hEnds _ hNext).assign]
  exact .pure

/-- Parentheses as an expression by themselves. -/
theorem reads_wrapped (hNested : Nested ws)
    (h : Reads (expressionOf (g.assignment false)) ws e (EndsSequence false)) :
    Reads (g.assignmentRule noIn) (Node.wrapped ws) e (EndsExpression noIn) := by
  refine reads_unassigned (.wrapped hNested) rfl rfl (fun _ h => h) ?_
  have hOperand : Reads g.callRule (Node.wrapped ws) e EndsOperand :=
    (ReadsOperand.parenthesised h).reads_callRule
  exact (reads_conditional (reads_binaryRule (reads_unaryRule hOperand rfl))).mono
    fun _ h => h.choice

/-- A target with an assignment after it. -/
theorem reads_assign {op : AssignOp} {right : Node} {G : Option Lexeme → Prop}
    (hArrow : NoArrow ws) (hAsync : NoAsync (ws ++ .punct (.assign op) :: us))
    (hHead : ws.head?.any (startsExpression false) = true) (hTarget : isTarget e = true)
    (hLeft : Reads (g.conditional noIn) ws e (EndsChoice noIn))
    (hRight : Reads (g.assignment noIn) us right G) (hNext : ∀ next, G next → NotAhead next) :
    Reads (g.assignmentRule noIn) (ws ++ .punct (.assign op) :: us) (.assign op e right) G := by
  refine reads_assignmentRule (hArrow.append rfl) hAsync (head?_append hHead) hNext fun start => ?_
  refine hLeft.bind ?_ fun _ _ => ⟨⟨rfl, rfl⟩, rfl, rfl⟩
  refine .peek_word rfl ?_
  have hPlain : isDestructuring e = false := by
    cases e <;> first | rfl | cases hTarget
  simp only [Option.bind_some, assignOperator?, hPlain, hTarget, Bool.not_true, Bool.false_eq_true,
    if_false]
  exact .bind (u := [_]) (F := fun _ => True) (reads_advance _) hRight.done fun _ _ => trivial

end Rules

end Grammar

end CodeShape
