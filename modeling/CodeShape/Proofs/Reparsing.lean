import CodeShape.Proofs.Clauses
import CodeShape.Proofs.Recovery

/-!
How the words of any part of a program are read back as that part. The proof is by induction on the
formation of the tree, with one property for each kind of place; the trees whose text lacks
parentheses are left out by `Node.faithful`.
-/
namespace CodeShape

open CodeShape.Parser Lexeme Node Grammar

/-- The words of a statement are read back, if nothing follows that it would take. -/
def RereadsStatement (n : Node) : Prop :=
  ∀ noIn, n.faithful noIn = true → ∀ m, weightOf (n.statementWords n.words) ≤ m →
    Reads ((level m).statementRule noIn) (n.statementWords n.words) n n.EndsStatement

def RereadsDeclarator (n : Node) : Prop :=
  ∀ noIn, n.faithful noIn = true → ∀ m, weightOf n.words < m →
    Reads ((level m).declarator noIn) n.words n (EndsExpression (noIn && !n.trails))

/-- The words of a declaration, without a semicolon. -/
def RereadsDeclaration (n : Node) : Prop :=
  ∃ kind ws, n.words = .name kind.text :: ws ∧ ∀ noIn, n.faithful noIn = true →
    ∀ m, weightOf n.words ≤ m →
      Reads ((level m).declaration noIn kind) n.words n (EndsSequence (noIn && !n.trails))

/-- The words of the start of a loop head. -/
def RereadsStart (n : Node) : Prop :=
  n.faithful true = true → ∀ m, weightOf n.words < m →
    Reads (level m).loopStart n.words (some n) (EndsSequence (!n.trails))

def RereadsKey (computed : Bool) (n : Node) : Prop :=
  n.faithful false = true → (computed = true → n.isSequence = false) →
    ∀ m, weightOf n.words < m →
      ReadsKey (level m)
        (if computed then bracketed .openBracket .closeBracket n.words else n.words) n computed

/-- The words of a node that stands in a place are read back by the rule for the place. -/
def Place.Rereads : Place → Node → Prop
  | statement => RereadsStatement
  | block => RereadsBlock
  | declaration => RereadsDeclaration
  | declarator => RereadsDeclarator
  | binding => fun _ => True
  | start => RereadsStart
  | parameter => RereadsParameter
  | expression _ => CodeShape.Rereads
  | arrowBody => Rereads.Body
  | argument => RereadsArgument
  | element => RereadsElement
  | key computed => RereadsKey computed
  | property => RereadsProperty
  | method => RereadsMethod

/-- The name of a member without its brackets. -/
theorem Lexeme.weightOf_le_name (computed : Bool) (ws : List Lexeme) :
    weightOf ws ≤ weightOf (if computed then bracketed .openBracket .closeBracket ws else ws) := by
  cases computed with
  | true =>
      rw [if_pos rfl, weightOf_bracketed]
      omega
  | false => exact Nat.le_refl _

namespace Formed

/-- A word that an expression starts with may start a statement. -/
theorem startsStatement_of_startsExpression {w : Lexeme} (h : w.startsExpression false = true) :
    w.startsStatement = true := by
  cases w with
  | punct p => cases p <;> first | rfl | cases h
  | name text =>
      have hNot : ∀ t ∈ ["else", "finally"], (Lexeme.name t).startsExpression false = false := by
        decide
      simp only [Lexeme.startsStatement, Bool.and_eq_true, bne_iff_ne]
      refine ⟨?_, ?_⟩ <;> rintro rfl <;> cases h.symm.trans (hNot _ (by decide))
  | _ => rfl

/-- A statement starts with a word for statements. -/
theorem startsStatement {n : Node} (h : Formed .statement n) {noIn : Bool}
    (hFaithful : n.faithful noIn = true) :
    (n.statementWords n.words).head?.any Lexeme.startsStatement = true := by
  have hWord : ∀ {word ws}, (Lexeme.name word).startsStatement = true →
      n.statementWords n.words = .name word :: ws →
        (n.statementWords n.words).head?.any Lexeme.startsStatement = true :=
    fun hw hWords => by rw [hWords]; exact hw
  cases h with
  | blockStatement h =>
      cases h
      rfl
  | @expr e h =>
      simp only [faithful_expr, Bool.and_eq_true] at hFaithful
      change ((if e.opensStatement then wrapped e.words else e.words) ++ _).head?.any _ = true
      refine head?_append ?_
      split
      · rfl
      · exact head?_mono (h.startsExpression hFaithful.2) fun _ =>
          startsStatement_of_startsExpression
  | declarationStatement h =>
      cases h with
      | @declaration kind => cases kind <;> rfl
  | ifElse => exact hWord rfl words_ifElse
  | forLoop => exact hWord rfl words_forLoop
  | returns => exact hWord rfl words_returns
  | tryCatch => exact hWord rfl words_tryCatch
  | classDeclaration => exact hWord rfl words_classDef
  | _ => rfl

end Formed

section Parts

variable {free : Bool} {n left right key value : Node}

/-- An expression that is read back is so as an argument. -/
theorem RereadsArgument.of_expression (hFormed : Formed (.expression false) n) (h : Rereads n) :
    RereadsArgument n := by
  intro hFaithful m hm
  have hStarts : (n.itemWords n.words).head?.any (Lexeme.startsExpression false) = true := by
    rw [itemWords]
    split
    · rfl
    · exact hFormed.startsExpression hFaithful
  refine ⟨reads_spreadable (h.item hFormed false m hFaithful hm) hStarts, ?_⟩
  exact head?_mono hStarts fun w hw => by rw [startsArgument, hw, Bool.or_true]

/-- A spread is read back by its dots. -/
theorem RereadsArgument.spread (hFormed : Formed (.expression false) n) (h : Rereads n) :
    RereadsArgument (.spread n) := by
  intro hFaithful m hm
  have hWords : (Node.spread n).itemWords (Node.spread n).words =
      .punct .ellipsis :: n.itemWords n.words := rfl
  rw [hWords, weightOf_cons] at hm
  rw [hWords]
  have hItem := h.item hFormed false m hFaithful (by omega)
  exact ⟨.bind (u := [.punct .ellipsis]) (F := fun _ => True) reads_eat hItem.done fun _ _ => trivial,
    rfl⟩

/-- An argument that is read back is so as an element of an array. -/
theorem RereadsElement.of_argument (hFormed : Formed .argument n) (h : RereadsArgument n) :
    RereadsElement n := by
  intro hFaithful m hm
  obtain ⟨hReads, hStarts⟩ := h hFaithful m hm
  refine .item ?_ (.of_starts hReads rfl rfl rfl hStarts) ?_
  · cases hFormed with
    | argument h => cases h <;> rfl
    | spread => rfl
  · have hComma : ((n.itemWords n.words).head?.or none).any (isSign .comma) = false :=
      not_sign rfl hStarts none
    simpa using hComma

theorem RereadsElement.hole : RereadsElement .hole := fun _ _ _ => .hole

theorem RereadsParameter.of_binding (h : Formed .binding n) : RereadsParameter n := by
  cases h with
  | binding h => exact fun _ _ _ => reads_parameter_name h.notKeyword

/-- A parameter with a default is read back by its name, the sign and the default. -/
theorem RereadsParameter.withDefault (hLeft : Formed .binding left)
    (hFormed : Formed (.expression false) right) (h : Rereads right) :
    RereadsParameter (.withDefault left right) := by
  cases hLeft with
  | binding hName =>
      intro hFaithful m hm
      have hWords : ∀ name, (Node.withDefault (.ident name) right).itemWords
          (Node.withDefault (.ident name) right).words =
            .name name :: .punct (.assign .plain) :: right.itemWords right.words := fun _ => rfl
      rw [hWords, weightOf_cons, weightOf_cons] at hm
      rw [hWords]
      exact reads_parameter_default hName.notKeyword (h.item hFormed false m hFaithful (by omega))

/-- The last parameter may be read back with dots before it. -/
theorem RereadsParameter.rest (h : Formed .binding n) : RereadsParameter (.spread n) := by
  cases h with
  | binding h => exact fun _ _ _ => reads_parameter_rest h.notKeyword

/-- A computed key is read back in its brackets. -/
theorem RereadsKey.computed (hFormed : Formed (.expression false) n) (h : Rereads n) :
    RereadsKey true n := by
  intro hFaithful hSequence m hm
  exact .bracketed (h.reads_assignment hFormed (hSequence rfl) hFaithful hm)

/-- A spread in an object is read back by its dots. -/
theorem RereadsProperty.spread (hFormed : Formed (.expression false) n) (h : Rereads n) :
    RereadsProperty (.spread n) := by
  intro hFaithful m hm
  have hWords : (Node.spread n).words = .punct .ellipsis :: n.itemWords n.words := rfl
  rw [hWords, weightOf_cons] at hm
  rw [hWords]
  exact reads_spreadProperty (h.item hFormed false m hFaithful (by omega))

/-- A shorthand is read back by its name alone, as a sign of the object follows it. -/
theorem RereadsProperty.shorthand {text : String} :
    RereadsProperty (.property (.ident text) (.ident text) .init false true false) :=
  fun _ _ _ => reads_shorthand

/-- A property is read back by its key, the colon and its value. -/
theorem RereadsProperty.property {computed : Bool} (hKey : RereadsKey computed key)
    (hFormed : Formed (.expression false) value) (hValue : Rereads value) :
    RereadsProperty (.property key value .init computed false false) := by
  intro hFaithful m hm
  simp only [faithful_property, Bool.and_eq_true, Bool.not_eq_true', Bool.and_eq_false_imp] at hFaithful
  obtain ⟨⟨hComputed, hKeyFaithful⟩, hValueFaithful⟩ := hFaithful
  rw [words_property, weightOf_append, weightOf_cons] at hm
  rw [words_property]
  have hName := weightOf_le_name computed key.words
  exact reads_property (hKey hKeyFaithful hComputed m (by omega))
    (hValue.item hFormed false m hValueFaithful (by omega))

/-- A method of an object is read back by its kind, its key and its function. -/
theorem RereadsProperty.method {computed : Bool} {kind : PropertyKind} {params : List Node}
    {body : Node} (hKey : RereadsKey computed key) (hParams : ∀ n ∈ params, RereadsParameter n)
    (hBody : RereadsBlock body) : RereadsProperty (.property key
      (.function .expression none params body) kind computed false (kind = .init)) := by
  intro hFaithful m hm
  simp only [faithful_property, faithful_function, Bool.and_eq_true, Bool.not_eq_true',
    Bool.and_eq_false_imp] at hFaithful
  obtain ⟨⟨hComputed, hKeyFaithful⟩, ⟨⟨hParamsFaithful, -⟩, hBodyFaithful⟩⟩ := hFaithful
  rw [words_methodProperty, List.append_assoc] at hm
  rw [words_methodProperty, List.append_assoc]
  simp only [weightOf_append] at hm
  have hName := weightOf_le_name computed key.words
  refine reads_methodProperty (hKey hKeyFaithful hComputed m (by omega))
    (Rereads.reads_parameters hParams hParamsFaithful (by omega)) (hBody false ?_ m (by omega))
  simpa using hBodyFaithful

/-- A name that a method has is read as such, also where it was computed. -/
theorem readsKey_of_namesMethod {g : Grammar} (h : key.namesMethod = true) :
    ReadsKey g key.words key false := by
  cases key with
  | ident text => exact .name
  | literal value =>
      obtain ⟨value, raw⟩ := value
      cases value with
      | number => exact .number
      | string => exact .string
      | _ => cases h
  | _ => cases h

/-- A member of a class is read back with the kind that its name gives it. -/
theorem RereadsMethod.method {kind : MethodKind} {isStatic : Bool} {params : List Node}
    {body : Node} (hParams : ∀ n ∈ params, RereadsParameter n) (hBody : RereadsBlock body)
    (hKind : kind = .get ∨ kind = .set ∨ kind =
      if key.ident? = some "constructor" && !isStatic then .constructor else .method) :
    RereadsMethod (.method key (.function .expression none params body) kind isStatic) := by
  intro hFaithful m hm
  simp only [faithful_method, faithful_function, Bool.and_eq_true] at hFaithful
  obtain ⟨hName, ⟨hParamsFaithful, -⟩, hBodyFaithful⟩ := hFaithful
  have hWords : (Node.method key (.function .expression none params body) kind isStatic).words =
      (if isStatic then [Lexeme.name "static"] else []) ++ (methodWords kind ++ (key.words ++
        (wrapped (listWords params (wordsAll params)) ++ body.words))) := by
    change _ ++ _ ++ _ ++ (_ ++ _) = _
    simp only [List.append_assoc]
  rw [hWords] at hm ⊢
  simp only [weightOf_append] at hm
  have hKey : ReadsKey (level m) key.words key false := readsKey_of_namesMethod hName
  refine ⟨reads_method hKey hKind (Rereads.reads_parameters hParams hParamsFaithful (by omega))
    (hBody false ?_ m (by omega)), starts_method hKey hKind⟩
  simpa using hBodyFaithful

end Parts

section Statements

variable {noIn : Bool} {m : Nat} {n test body left right e : Node}
variable {init step argument alternate : Option Node}

/-- A statement is read by the rule for statements of the next level. -/
theorem RereadsStatement.reads (h : RereadsStatement n) (hFaithful : n.faithful noIn = true)
    (hm : weightOf (n.statementWords n.words) < m) :
    Reads ((level m).statement noIn) (n.statementWords n.words) n n.EndsStatement := by
  cases m with
  | zero => exact absurd hm (Nat.not_lt_zero _)
  | succ m => exact h noIn hFaithful m (Nat.le_of_lt_succ hm)

/-- A part of a loop head, or the argument of a `return`. -/
theorem Rereads.readsPart (hFormed : ∀ n ∈ argument, Formed (.expression false) n)
    (h : ∀ n ∈ argument, Rereads n) (hFaithful : argument.all (faithful noIn) = true)
    (hm : weightOf (argument.elim [] words) < m) : ReadsPart (level m) noIn argument := by
  rintro n ⟨⟩
  exact ⟨(h n rfl).whole (hFormed n rfl) noIn m hFaithful hm,
    (hFormed n rfl).startsExpression hFaithful⟩

theorem RereadsStatement.empty : RereadsStatement .empty := fun _ _ _ _ => reads_empty

theorem RereadsStatement.breaks : RereadsStatement .breaks := fun _ _ _ _ => reads_jump rfl rfl

theorem RereadsStatement.continues : RereadsStatement .continues :=
  fun _ _ _ _ => reads_jump rfl rfl

/-- An expression statement is read back: faithfulness keeps its first word from starting another
statement. -/
theorem RereadsStatement.expr (hFormed : Formed (.expression false) e) (h : Rereads e) :
    RereadsStatement (.expr e) := by
  intro noIn hFaithful m hm
  have hWords : (Node.expr e).statementWords (Node.expr e).words =
      (if e.opensStatement then wrapped e.words else e.words) ++ [Lexeme.punct .semicolon] := rfl
  rw [hWords, weightOf_append] at hm
  rw [hWords]
  simp only [faithful_expr, Bool.and_eq_true] at hFaithful
  obtain ⟨hStarts, hFaithful⟩ := hFaithful
  cases hOpens : e.opensStatement with
  | true =>
      rw [hOpens, if_pos rfl, weightOf_wrapped] at hm
      rw [hOpens, Bool.not_true, Bool.and_false] at hFaithful
      refine reads_expression (b := noIn) rfl rfl rfl rfl (.of_sign rfl) (reads_single ?_)
      exact Grammar.reads_wrapped hFormed.nested (h.whole hFormed false m hFaithful (by omega))
  | false =>
      rw [hOpens, if_neg Bool.false_ne_true] at hm
      rw [hOpens, Bool.not_false, Bool.and_true] at hFaithful
      rw [hOpens, Bool.false_or, Bool.not_eq_true', Node.startsStatement, startsBlock,
        Bool.or_eq_false_iff, Bool.or_eq_false_iff] at hStarts
      exact reads_expression (hFormed.startsExpression hFaithful) hStarts.1.1 hStarts.1.2 hStarts.2
        (hFormed.calm hFaithful) (h.whole hFormed noIn (m + 1) hFaithful (by omega))

/-- An `if` is read back if its parts are. An `else` goes to it and not to its first branch, which
does not dangle before one. -/
theorem RereadsStatement.ifElse {consequent : Node} (hFormed : Formed (.expression false) test)
    (hTest : Rereads test) (hConsequent : RereadsStatement consequent)
    (hAlternate : ∀ n ∈ alternate, RereadsStatement n)
    (hElse : alternate.isSome = true → consequent.dangles = false) :
    RereadsStatement (.ifElse test consequent alternate) := by
  intro noIn hFaithful m hm
  simp only [faithful_ifElse, Bool.and_eq_true, Option.all_eq_true] at hFaithful
  have hWords : (Node.ifElse test consequent alternate).statementWords
      (Node.ifElse test consequent alternate).words = .name "if" :: (wrapped test.words ++
        (consequent.statementWords consequent.words ++
          alternate.elim [] fun n => .name "else" :: n.statementWords n.words)) := by
    rw [← List.append_assoc]
    exact words_ifElse
  rw [hWords] at hm ⊢
  simp only [weightOf_cons, weightOf_append, weightOf_wrapped, weight] at hm
  refine reads_ifElse (hTest.whole hFormed false m hFaithful.1.1 (by omega))
    (hConsequent.reads hFaithful.1.2 (by omega)) ?_ hElse
  rintro n ⟨⟩
  simp only [Option.elim_some, weightOf_cons, weight] at hm
  exact (hAlternate n rfl).reads (hFaithful.2 n rfl) (by omega)

/-- A `while` loop is read back if its parts are. -/
theorem RereadsStatement.whileLoop (hFormed : Formed (.expression false) test) (hTest : Rereads test)
    (hBody : RereadsStatement body) : RereadsStatement (.whileLoop test body) := by
  intro noIn hFaithful m hm
  simp only [faithful_whileLoop, Bool.and_eq_true] at hFaithful
  have hWords : (Node.whileLoop test body).statementWords (Node.whileLoop test body).words =
      .name "while" :: (wrapped test.words ++ body.statementWords body.words) := rfl
  rw [hWords] at hm ⊢
  simp only [weightOf_cons, weightOf_append, weightOf_wrapped, weight] at hm
  exact reads_while (hTest.whole hFormed false m hFaithful.1 (by omega))
    (hBody.reads hFaithful.2 (by omega))

/-- A `do` loop is read back if its parts are. -/
theorem RereadsStatement.doWhile (hBody : RereadsStatement body)
    (hFormed : Formed (.expression false) test) (hTest : Rereads test) :
    RereadsStatement (.doWhile body test) := by
  intro noIn hFaithful m hm
  simp only [faithful_doWhile, Bool.and_eq_true] at hFaithful
  have hWords : (Node.doWhile body test).statementWords (Node.doWhile body test).words =
      .name "do" :: (body.statementWords body.words ++
        (.name "while" :: (wrapped test.words ++ [Lexeme.punct .semicolon]))) := by
    change (_ :: _ ++ (.name "while" :: wrapped test.words)) ++ _ = _
    simp only [List.cons_append, List.append_assoc]
  rw [hWords] at hm ⊢
  simp only [weightOf_cons, weightOf_append, weightOf_wrapped, weight] at hm
  exact reads_doWhile (hBody.reads hFaithful.2 (by omega))
    (hTest.whole hFormed false m hFaithful.1 (by omega))

/-- A `for` loop is read back if its parts are, its start under the restriction on `in`. -/
theorem RereadsStatement.forLoop (hInit : ∀ n ∈ init, RereadsStart n)
    (hTestFormed : ∀ n ∈ argument, Formed (.expression false) n)
    (hTest : ∀ n ∈ argument, Rereads n)
    (hStepFormed : ∀ n ∈ step, Formed (.expression false) n) (hStep : ∀ n ∈ step, Rereads n)
    (hBody : RereadsStatement body) : RereadsStatement (.forLoop init argument step body) := by
  intro noIn hFaithful m hm
  simp only [faithful_forLoop, Bool.and_eq_true] at hFaithful
  obtain ⟨⟨⟨hInitFaithful, hTestFaithful⟩, hStepFaithful⟩, hBodyFaithful⟩ := hFaithful
  have hWords : (Node.forLoop init argument step body).statementWords
      (Node.forLoop init argument step body).words =
        .name "for" :: .punct .openParen :: (init.elim [] words ++ .punct .semicolon ::
          (argument.elim [] words ++ .punct .semicolon :: (step.elim [] words ++
            .punct .closeParen :: body.statementWords body.words))) := by
    refine words_forLoop.trans ?_
    simp only [List.cons_append, List.append_assoc]
  rw [hWords] at hm ⊢
  simp only [weightOf_cons, weightOf_append, weight] at hm
  refine reads_forLoop ?_ (Rereads.readsPart hTestFormed hTest hTestFaithful (by omega))
    (Rereads.readsPart hStepFormed hStep hStepFaithful (by omega))
    (hBody.reads hBodyFaithful (by omega))
  cases init with
  | none => exact reads_loopStart_none
  | some n =>
      rw [Option.elim_some] at hm
      refine (hInit n rfl hInitFaithful m (by omega)).mono ?_
      rintro _ rfl
      exact endsSequence_sign (by decide)

/-- A loop over keys or values is read back if its parts are, its left side under the restriction on
`in`. -/
theorem RereadsStatement.forEach {overValues : Bool} (hLeft : RereadsStart left)
    (hFormed : Formed (.expression false) right) (hRight : Rereads right)
    (hBody : RereadsStatement body) : RereadsStatement (.forEach left right body overValues) := by
  intro noIn hFaithful m hm
  simp only [faithful_forEach, Bool.and_eq_true] at hFaithful
  obtain ⟨⟨⟨hHead, hLeftFaithful⟩, hRightFaithful⟩, hBodyFaithful⟩ := hFaithful
  have hWords : (Node.forEach left right body overValues).statementWords
      (Node.forEach left right body overValues).words =
        .name "for" :: .punct .openParen :: (left.words ++
          .name (if overValues then "of" else "in") ::
            (right.words ++ .punct .closeParen :: body.statementWords body.words)) := by
    refine words_forEach.trans ?_
    simp only [List.cons_append, List.append_assoc]
  rw [hWords] at hm ⊢
  simp only [weightOf_cons, weightOf_append, weight] at hm
  refine reads_forEach (b := noIn && !right.trails)
    ((hLeft hLeftFaithful m (by omega)).mono ?_) ?_ (hBody.reads hBodyFaithful (by omega))
  · rintro _ rfl
    cases overValues with
    | true => exact ⟨rfl, rfl⟩
    | false =>
        rw [if_neg Bool.false_ne_true] at hHead
        rw [hHead]
        exact ⟨rfl, rfl⟩
  · cases overValues with
    | true =>
        rw [if_pos rfl, Bool.not_eq_true'] at hHead
        exact (hRight.reads_assignment hFormed hHead hRightFaithful (by omega)).mono
          fun _ h => h.expression
    | false => exact hRight.whole hFormed noIn m hRightFaithful (by omega)

/-- A `return` is read back with or without a value. -/
theorem RereadsStatement.returns (hFormed : ∀ n ∈ argument, Formed (.expression false) n)
    (h : ∀ n ∈ argument, Rereads n) : RereadsStatement (.returns argument) := by
  intro noIn hFaithful m hm
  rw [faithful_returns] at hFaithful
  have hWords : (Node.returns argument).statementWords (Node.returns argument).words =
      .name "return" :: (argument.elim [] words ++ [Lexeme.punct .semicolon]) := words_returns
  rw [hWords] at hm ⊢
  simp only [weightOf_cons, weightOf_append, weight] at hm
  exact reads_returns (Rereads.readsPart hFormed h hFaithful (by omega))

theorem RereadsStatement.throws (hFormed : Formed (.expression false) e) (h : Rereads e) :
    RereadsStatement (.throws e) := by
  intro noIn hFaithful m hm
  have hWords : (Node.throws e).statementWords (Node.throws e).words =
      .name "throw" :: (e.words ++ [Lexeme.punct .semicolon]) := rfl
  rw [hWords] at hm ⊢
  simp only [weightOf_cons, weightOf_append, weight] at hm
  exact reads_throws (h.whole hFormed noIn m hFaithful (by omega))

/-- A block is read back if its statements are. -/
theorem RereadsBlock.block {ns : List Node} (hFormed : ∀ n ∈ ns, Formed .statement n)
    (h : ∀ n ∈ ns, RereadsStatement n) : RereadsBlock (.block ns) := by
  intro noIn hFaithful m hm
  rw [faithful_block, faithfulAll_eq_true] at hFaithful
  have hWords : (Node.block ns).words = bracketed .openBrace .closeBrace
      (ns.map fun n => n.statementWords n.words).flatten := by
    rw [← bodyWords_eq]
    rfl
  rw [hWords, weightOf_bracketed] at hm
  rw [hWords]
  refine reads_block (fun n hn => ?_) fun n hn => (hFormed n hn).startsStatement (hFaithful n hn)
  have hWeight := weightOf_le_flatten
    (List.mem_map_of_mem (f := fun n => n.statementWords n.words) hn)
  exact (h n hn).reads (hFaithful n hn) (by omega)

/-- The words of a block. -/
theorem Formed.head?_block (h : Formed .block n) : n.words.head? = some (.punct .openBrace) := by
  cases h
  rfl

/-- A `try` is read back if its blocks are. -/
theorem RereadsStatement.tryCatch {param handler finalizer : Option Node} (hBody : RereadsBlock body)
    (hParam : ∀ n ∈ param, Formed .binding n) (hFormed : ∀ n ∈ handler, Formed .block n)
    (hHandler : ∀ n ∈ handler, RereadsBlock n) (hFinalizer : ∀ n ∈ finalizer, RereadsBlock n)
    (hCatch : handler = none → param = none)
    (hSome : handler.isSome = true ∨ finalizer.isSome = true) :
    RereadsStatement (.tryCatch body param handler finalizer) := by
  obtain ⟨names, rfl, hNames, -⟩ := Rereads.exists_names hParam
  intro noIn hFaithful m hm
  simp only [faithful_tryCatch, Bool.and_eq_true, Option.all_eq_true] at hFaithful
  obtain ⟨⟨hBodyFaithful, hHandlerFaithful⟩, hFinalizerFaithful⟩ := hFaithful
  have hWords : (Node.tryCatch body (names.map .ident) handler finalizer).statementWords
      (Node.tryCatch body (names.map .ident) handler finalizer).words =
        .name "try" :: (body.words ++
          ((handler.elim [] fun n => .name "catch" :: (handlerWords names ++ n.words)) ++
            finalizer.elim [] fun n => .name "finally" :: n.words)) := by
    refine words_tryCatch.trans ?_
    simp only [List.cons_append, List.append_assoc]
    cases names <;> rfl
  rw [hWords] at hm ⊢
  simp only [weightOf_cons, weightOf_append, weight] at hm
  refine reads_tryCatch (hBody noIn hBodyFaithful m (by omega)) hNames ?_ ?_
    (fun hNone => Option.map_eq_none_iff.1 (hCatch hNone)) hSome
  · rintro n ⟨⟩
    simp only [Option.elim_some, weightOf_cons, weightOf_append] at hm
    exact ⟨hHandler n rfl noIn (hHandlerFaithful n rfl) m (by omega), (hFormed n rfl).head?_block⟩
  · rintro n ⟨⟩
    simp only [Option.elim_some, weightOf_cons] at hm
    exact hFinalizer n rfl noIn (hFinalizerFaithful n rfl) m (by omega)

/-- A declarator is read back by its name, and by its initializer if it has one. -/
theorem RereadsDeclarator.declarator {id : Node} (hId : Formed .binding id)
    (hFormed : ∀ n ∈ init, Formed (.expression false) n) (h : ∀ n ∈ init, Rereads n) :
    RereadsDeclarator (.declarator id init) := by
  cases hId with
  | @binding text hName =>
      intro noIn hFaithful m hm
      rw [faithful_declarator, Option.all_eq_true] at hFaithful
      have hWords : (Node.declarator (.ident text) init).words =
          .name text :: init.elim [] fun n => .punct (.assign .plain) :: n.itemWords n.words :=
        words_declarator
      rw [hWords, weightOf_cons] at hm
      rw [hWords]
      refine reads_declarator hName.notKeyword ?_
      rintro n ⟨⟩
      rw [Option.elim_some, weightOf_cons] at hm
      exact (h n rfl).item (hFormed n rfl) noIn m (hFaithful n rfl) (by omega)

/-- A declaration is read back if its declarators are, and there is one at least. -/
theorem RereadsDeclaration.declaration {kind : DeclarationKind} {ns : List Node}
    (hNonempty : ns ≠ []) (hFormed : ∀ n ∈ ns, Formed .declarator n)
    (h : ∀ n ∈ ns, RereadsDeclarator n) :
    RereadsDeclaration (.declaration kind ns) := by
  have hItems : ns.map (fun n => n.itemWords n.words) = ns.map words := by
    refine List.map_congr_left fun n hn => ?_
    cases hFormed n hn
    rfl
  have hWords : (Node.declaration kind ns).words = .name kind.text :: commas (ns.map words) := by
    rw [← hItems, ← listWords_eq]
    rfl
  refine ⟨kind, _, hWords, fun noIn hFaithful m hm => ?_⟩
  rw [faithful_declaration, faithfulAll_eq_true] at hFaithful
  rw [hWords, weightOf_cons] at hm
  rw [hWords]
  refine reads_declaration hNonempty fun n hn => h n hn noIn (hFaithful n hn) m ?_
  have hWord := Lexeme.weight_pos (.name kind.text)
  have hWeight := weightOf_le_commas (List.mem_map_of_mem (f := words) hn)
  omega

/-- A declaration is read back as a statement by its semicolon. -/
theorem RereadsStatement.of_declaration (hFormed : Formed .declaration n)
    (h : RereadsDeclaration n) : RereadsStatement n := by
  intro noIn hFaithful m hm
  obtain ⟨kind, ws, hWords, hReads⟩ := h
  have hStatement : n.statementWords n.words =
      .name kind.text :: (ws ++ [Lexeme.punct .semicolon]) := by
    cases hFormed
    change _ ++ _ = _
    rw [hWords]
    rfl
  have hDeclaration := hReads noIn hFaithful m
  rw [hWords] at hDeclaration
  rw [hStatement] at hm ⊢
  simp only [weightOf_cons, weightOf_append] at hm hDeclaration
  exact reads_declarationStatement (hDeclaration (by omega))

/-- A declaration is read back as the start of a loop, where it has no semicolon of its own. -/
theorem RereadsStart.of_declaration (h : RereadsDeclaration n) : RereadsStart n := by
  intro hFaithful m hm
  obtain ⟨kind, ws, hWords, hReads⟩ := h
  have hDeclaration := hReads true hFaithful m (Nat.le_of_lt hm)
  rw [hWords] at hDeclaration ⊢
  rw [Bool.true_and] at hDeclaration
  exact reads_loopStart_declaration hDeclaration

/-- An expression is read back as the start of a loop. -/
theorem RereadsStart.of_expression (hFormed : Formed (.expression false) n) (h : Rereads n) :
    RereadsStart n := fun hFaithful m hm =>
  reads_loopStart_expression (hFormed.startsExpression hFaithful)
    (h.whole hFormed true m hFaithful hm)

theorem RereadsStatement.of_block (hFormed : Formed .block n) (h : RereadsBlock n) :
    RereadsStatement n := by
  intro noIn hFaithful m hm
  have hReads := h noIn hFaithful m
  cases hFormed
  exact reads_blockStatement ((hReads hm).mono fun _ _ => trivial)

/-- A function declaration is read back by its keyword. -/
theorem RereadsStatement.function {id : Node} {params : List Node} (hId : Formed .binding id)
    (hParams : ∀ n ∈ params, RereadsParameter n) (hBody : RereadsBlock body) :
    RereadsStatement (.function .declaration (some id) params body) := by
  intro noIn hFaithful m hm
  have hArrow : FunctionForm.declaration ≠ .arrow := by decide
  have hForm : (FunctionForm.declaration == FunctionForm.arrow) = false := by decide
  have hFaithful' : (Node.function .declaration (some id) params body).faithful false = true := by
    simpa only [faithful_function, hForm, Bool.and_false, Bool.false_and] using hFaithful
  have hReads := Rereads.reads_function (m := m) hArrow (fun _ => rfl) (by rintro n ⟨⟩; exact hId)
    hParams hBody hFaithful' hm
  change Reads _ (Node.function .declaration (some id) params body).words _ _
  rw [words_function hArrow] at hReads ⊢
  exact reads_functionStatement (hReads.mono fun _ _ => trivial)

/-- A class declaration is read back by its keyword. -/
theorem RereadsStatement.classDef {id : Node} {superclass : Option Node} {members : List Node}
    (hId : Formed .binding id) (hSuperclass : ∀ n ∈ superclass, Rereads n)
    (hMembers : ∀ n ∈ members, RereadsMethod n) :
    RereadsStatement (.classDef (some id) superclass members false) := by
  intro noIn hFaithful m hm
  have hReads := Rereads.reads_classDef (m := m) (fun _ => rfl) (by rintro n ⟨⟩; exact hId)
    hSuperclass hMembers hFaithful hm
  change Reads _ (Node.classDef (some id) superclass members false).words _ _
  rw [words_classDef] at hReads ⊢
  exact reads_classStatement (hReads.mono fun _ _ => trivial)

end Statements

namespace Formed

/-- The words of any part of a program are read back as the part. -/
theorem rereads {place : Place} {n : Node} (h : Formed place n) : place.Rereads n := by
  induction h with
  | block hBody ih => exact .block hBody ih
  | blockStatement h ih => exact .of_block h ih
  | expr h ih => exact .expr h ih
  | empty => exact .empty
  | ifElse hTest _ _ hElse ihTest ihConsequent ihAlternate =>
      exact .ifElse hTest ihTest ihConsequent ihAlternate hElse
  | forLoop _ hTest hStep _ ihInit ihTest ihStep ihBody =>
      exact .forLoop ihInit hTest ihTest hStep ihStep ihBody
  | forEach _ hRight _ ihLeft ihRight ihBody => exact .forEach ihLeft hRight ihRight ihBody
  | whileLoop hTest _ ihTest ihBody => exact .whileLoop hTest ihTest ihBody
  | doWhile _ hTest ihBody ihTest => exact .doWhile ihBody hTest ihTest
  | returns h ih => exact .returns h ih
  | breaks => exact .breaks
  | continues => exact .continues
  | throws h ih => exact .throws h ih
  | tryCatch _ hParam hHandler _ hCatch hSome ihBody _ ihHandler ihFinalizer =>
      exact .tryCatch ihBody hParam hHandler ihHandler ihFinalizer hCatch hSome
  | declarationStatement h ih => exact .of_declaration h ih
  | functionDeclaration hId _ _ _ ihParams ihBody => exact .function hId ihParams ihBody
  | classDeclaration hId _ _ _ ihSuperclass ihMembers => exact .classDef hId ihSuperclass ihMembers
  | declaration hNonempty h ih => exact .declaration hNonempty h ih
  | declarator hId hInit _ ihInit => exact .declarator hId hInit ihInit
  | binding => trivial
  | startDeclaration _ ih => exact .of_declaration ih
  | startExpression h ih => exact .of_expression h ih
  | parameter h => exact .of_binding h
  | withDefault hLeft hRight _ ih => exact .withDefault hLeft hRight ih
  | restParameter h => exact .rest h
  | ident h => exact .ident h.notKeyword
  | this => exact .this
  | number => exact .number
  | string => exact .string
  | bool b => exact .bool b
  | null => exact .null
  | template _ _ h ih => exact .template h ih
  | array _ ih => exact .array ih
  | object _ ih => exact .object ih
  | function hId _ _ _ ihParams ihBody => exact .function hId ihParams ihBody
  | arrow hParams _ ihParams ihBody => exact .arrow hParams ihParams ihBody
  | arrowBlock h ih =>
      cases h
      exact .inl ⟨rfl, rfl, rfl, ih⟩
  | @arrowExpression n h ih =>
      have hBlock : n.isBlock = false := by cases h <;> rfl
      exact .inr ⟨hBlock, h, ih⟩
  | classExpression hId _ _ _ ihSuperclass ihMembers =>
      exact .classExpression hId ihSuperclass ihMembers
  | call hCallee _ ihCallee ihArguments => exact .call hCallee ihCallee ihArguments
  | construct _ _ ihCallee ihArguments => exact .construct ihCallee ihArguments
  | member hOwner _ ih => exact .member hOwner ih
  | computedMember _ hKey ihOwner ihKey => exact .computedMember hKey ihOwner ihKey
  | assign hTarget hLeft hRight ihLeft ihRight => exact .assign hTarget hLeft hRight ihLeft ihRight
  | update hTarget hArgument ih => exact .update hTarget hArgument ih
  | binary hLeft hRight ihLeft ihRight => exact .binary hLeft hRight ihLeft ihRight
  | logical hLeft hRight ihLeft ihRight => exact .logical hLeft hRight ihLeft ihRight
  | unary h ih => exact .unaryOperation h ih
  | conditional hTest hConsequent hAlternate ihTest ihConsequent ihAlternate =>
      exact .conditional hTest hConsequent hAlternate ihTest ihConsequent ihAlternate
  | sequence hLength h ih => exact .sequence hLength h ih
  | argument h ih => exact .of_expression h ih
  | spread h ih => exact .spread h ih
  | element h ih => exact .of_argument h ih
  | hole => exact .hole
  | nameKey => exact fun _ _ _ _ => .name
  | numberKey => exact fun _ _ _ _ => .number
  | stringKey => exact fun _ _ _ _ => .string
  | computedKey h ih => exact .computed h ih
  | spreadProperty h ih => exact .spread h ih
  | shorthand => exact .shorthand
  | property _ hValue ihKey ihValue => exact .property ihKey hValue ihValue
  | methodProperty _ _ _ ihKey ihParams ihBody => exact .method ihKey ihParams ihBody
  | method _ _ _ hKind _ ihParams ihBody => exact .method ihParams ihBody hKind

end Formed

end CodeShape
