import CodeShape.Proofs.Extension
import CodeShape.Proofs.Lettering
import CodeShape.Proofs.Reparsing

/-!
Expressions that are printed and parsed again. The words of a tree of operators are read back as the
tree, by induction on the tree; the text spells the words; so the text is parsed as the tree.
-/
namespace CodeShape

open CodeShape.Parser Lexeme Node Grammar Unread

/-- The text of the word is scanned as just this word. -/
def Lexeme.IsScanned (w : Lexeme) : Prop :=
  ∃ stream, TokenStream.ofText w.render = .ok stream ∧ stream.words.map Located.word = [w]

theorem Lexeme.IsScanned.valid {w : Lexeme} (h : w.IsScanned) : w.Valid := by
  obtain ⟨stream, hStream, hWords⟩ := h
  obtain ⟨t, hTokens, rfl⟩ := List.map_eq_singleton_iff.1 hWords
  exact TokenStream.valid_of_ofText hStream t (by simp [hTokens])

/-- Trees of operators, calls, member accesses and arrays over names and literals. Nothing is said
about what stands in what: any tree may be an operand of any other. -/
inductive Node.IsOperatorTree : Node → Prop where
  | ident {name : String} (h : (Lexeme.name name).IsScanned)
      (hKeyword : keywords.contains name = false) (hAsync : name ≠ "async")
      (hAwait : name ≠ "await") : IsOperatorTree (.ident name)
  | this : IsOperatorTree .this
  | number {value : Number} {raw : String} (h : (Lexeme.number value raw).IsScanned) :
      IsOperatorTree (.literal ⟨.number value, raw⟩)
  | string {value raw : String} (h : (Lexeme.string value raw).IsScanned) :
      IsOperatorTree (.literal ⟨.string value, raw⟩)
  | bool (b : Bool) : IsOperatorTree (.literal ⟨.bool b, if b then "true" else "false"⟩)
  | null : IsOperatorTree (.literal ⟨.null, "null"⟩)
  | binary {op : BinaryOp} {left right : Node} (hLeft : IsOperatorTree left)
      (hRight : IsOperatorTree right) : IsOperatorTree (.binary op left right)
  | logical {op : LogicalOp} {left right : Node} (hLeft : IsOperatorTree left)
      (hRight : IsOperatorTree right) : IsOperatorTree (.logical op left right)
  | unary {op : UnaryOp} {argument : Node} (hArgument : IsOperatorTree argument) :
      IsOperatorTree (.unary op argument)
  | conditional {test consequent alternate : Node} (hTest : IsOperatorTree test)
      (hConsequent : IsOperatorTree consequent) (hAlternate : IsOperatorTree alternate) :
      IsOperatorTree (.conditional test consequent alternate)
  | call {callee : Node} {arguments : List Node} (hCallee : IsOperatorTree callee)
      (hArguments : ∀ n ∈ arguments, IsOperatorTree n) : IsOperatorTree (.call callee arguments)
  | member {owner : Node} {name : String} (hOwner : IsOperatorTree owner)
      (h : (Lexeme.name name).IsScanned) : IsOperatorTree (.member owner (.ident name) false)
  | computedMember {owner key : Node} (hOwner : IsOperatorTree owner)
      (hKey : IsOperatorTree key) : IsOperatorTree (.member owner key true)
  | array {elements : List Node} (hElements : ∀ n ∈ elements, n ≠ .hole → IsOperatorTree n) :
      IsOperatorTree (.array elements)

namespace Node.IsOperatorTree

variable {n : Node}

theorem formed (h : n.IsOperatorTree) : Formed (.expression false) n := by
  induction h with
  | ident h hKeyword _ hAwait =>
      cases h.valid with
      | name hName => exact .ident ⟨hName, hKeyword⟩ fun h => absurd h hAwait
  | this => exact .this
  | number h =>
      cases h.valid with
      | number h => exact .number h
  | string h =>
      cases h.valid with
      | string h => exact .string h
  | bool b => exact .bool b
  | null => exact .null
  | binary _ _ hLeft hRight => exact .binary hLeft hRight
  | logical _ _ hLeft hRight => exact .logical hLeft hRight
  | unary _ hArgument => exact .unary hArgument
  | conditional _ _ _ hTest hConsequent hAlternate =>
      exact .conditional hTest hConsequent hAlternate
  | call _ _ hCallee hArguments => exact .call hCallee fun n hn => .argument (hArguments n hn)
  | member _ h hOwner =>
      cases h.valid with
      | name hName => exact .member hOwner hName
  | computedMember _ _ hOwner hKey => exact .computedMember hOwner hKey
  | array _ ih =>
      refine .array fun n hn => ?_
      by_cases hHole : n = .hole
      · rw [hHole]
        exact .hole
      · exact .element (.argument (ih n hn hHole))

theorem isUpdate_eq_false (h : n.IsOperatorTree) : n.isUpdate = false := by
  cases h <;> rfl

/-- None of the trees needs parentheses that its text lacks. -/
theorem faithful (h : n.IsOperatorTree) : n.faithful false = true := by
  induction h with
  | binary _ _ hLeft hRight | logical _ _ hLeft hRight =>
      simp [faithful_binary, faithful_logical, hLeft, hRight]
  | unary _ hArgument => exact hArgument
  | conditional _ _ _ hTest hConsequent hAlternate =>
      simp [faithful_conditional, hTest, hConsequent, hAlternate]
  | @call callee arguments hCallee _ ih ihArguments =>
      have hPlain : (callee.ident? != some "async") = true := by
        cases hCallee with
        | ident _ _ hAsync => simpa [ident?] using hAsync
        | _ => rfl
      simp [faithful_call, hCallee.isUpdate_eq_false, hPlain, ih, faithfulAll_eq_true.2 ihArguments]
  | member hOwner _ ih =>
      simp only [faithful_member, hOwner.isUpdate_eq_false, ih, Bool.not_false, Bool.true_and]
      rfl
  | computedMember hOwner _ ih ihKey => simp [faithful_member, hOwner.isUpdate_eq_false, ih, ihKey]
  | array _ ih =>
      refine faithfulAll_eq_true.2 fun n hn => ?_
      by_cases hHole : n = .hole
      · rw [hHole]
        rfl
      · exact ih n hn hHole
  | _ => rfl

end Node.IsOperatorTree

/-- Tokens of which only the first may be marked as standing on a new line. -/
theorem Parser.Spelled.of_flagged {tokens : List Token} {ws : List Lexeme} {lineEnd : Bool}
    (h : tokens.map (fun t => (t.word.plain, t.afterLineEnd)) =
      flagged lineEnd (ws.map (·, false))) :
    Spelled tokens ws := by
  constructor
  · have hWords := congrArg (List.map Prod.fst) h
    cases ws <;> simpa [flagged, Function.comp_def] using hWords
  · intro t ht
    have hMem := List.mem_map_of_mem (f := fun t : Token => (t.word.plain, t.afterLineEnd)) ht
    rw [List.map_tail, h] at hMem
    cases ws with
    | nil => cases hMem
    | cons w ws =>
        obtain ⟨v, -, hv⟩ := List.mem_map.1 hMem
        exact (congrArg Prod.snd hv).symm

/-- A text that spells words is scanned as these words. -/
theorem Unread.Spells.exists_stream {text : String} {ws : List Lexeme}
    (h : Spells text.toList ws EndsNumber) :
    ∃ stream, TokenStream.ofText text = .ok stream ∧ Spelled stream.words ws := by
  have hScans := h false 0 [] [] [] nofun .nil
  rw [List.append_nil, List.append_nil] at hScans
  obtain ⟨stream, u, hTokens, hWords, -⟩ :=
    hScans (text.toList.length + 1) (Nat.lt_succ_self _) none rfl 0
  rw [← flagged_false (ws.map _)] at hWords
  refine ⟨stream, ?_, .of_flagged hWords⟩
  rw [TokenStream.ofText, hTokens]
  rfl

/-- The text of a tree is scanned as the words of the tree. -/
theorem Node.Lettered.exists_stream {n : Node} (h : n.Lettered) (hn : n.isDeclaration = false) :
    ∃ stream, TokenStream.ofText n.render = .ok stream ∧ Spelled stream.words n.words := by
  rw [render, whole_eq hn]
  exact h.spells.exists_stream

/-- A word whose text is that of a node is scanned from its own text. -/
theorem Node.Lettered.isScanned {n : Node} {w : Lexeme} (h : n.Lettered)
    (hn : n.isDeclaration = false) (hText : n.render = w.render) (hWords : n.words = [w])
    (hw : w.isTemplate = false) : w.IsScanned := by
  obtain ⟨stream, hStream, hSpelled⟩ := h.exists_stream hn
  rw [hWords] at hSpelled
  obtain ⟨t, ts, hTokens, hPlain, hNil⟩ := hSpelled.exists_cons
  refine ⟨stream, hText ▸ hStream, ?_⟩
  rw [hTokens, hNil.eq_nil, ← eq_of_plain hPlain hw]
  rfl

/-- A text whose words are read as an expression is parsed as the expression. -/
theorem Node.parseExpression_of_reads {text : String} {ws : List Lexeme} {e : Node}
    (hText : Spells text.toList ws EndsNumber) (h : ∀ m, weightOf ws < m →
      Reads ((level m).assignment false) ws e (EndsExpression false)) :
    parseExpression text = .ok e := by
  obtain ⟨stream, hStream, hSpelled⟩ := hText.exists_stream
  have hRun := h (wordsWeight stream.words + 1)
    (by rw [← hSpelled.words_eq, weightOf_plain]; exact Nat.lt_succ_self _) stream.words [] stream.stop
    hSpelled rfl
  rw [List.append_nil] at hRun
  have hSingle : (do
      let e ← stream.grammar.assignment false
      discard (eat .semicolon)
      if ← atEnd then return e else expected endOfInput : Parser Node).run stream =
        .ok (e, ⟨[], stream.stop⟩) := by
    change (stream.grammar.assignment false ⟨stream.words, stream.stop⟩ >>= fun r => _) = _
    rw [TokenStream.grammar, hRun]
    rfl
  rw [parseExpression, hStream]
  change ((StateT.run _ stream : Except Fault (Node × TokenStream)) >>= fun r => pure r.1) = _
  rw [hSingle]
  rfl

/-- Trees of operators survive printing and parsing, whatever stands in what: the text of the tree
holds a single expression, and that is the tree. -/
theorem Node.parseExpression_render {e : Node} (h : e.IsOperatorTree) :
    parseExpression e.render = .ok e := by
  rw [render, whole_eq (h.formed.isDeclaration rfl)]
  have hSequence : e.isSequence = false := by cases h <;> rfl
  refine parseExpression_of_reads (h.formed.lettered h.faithful).spells fun m hm => ?_
  exact h.formed.rereads.reads_assignment h.formed hSequence h.faithful hm

/-- Signs in front of each other, a power of a member of a number, and a call of a choice with an
array that ends with a left-out element. -/
theorem Node.parseExpression_render_powers :
    ∃ e, e.render = "((-(-x)) ** (5).x) + (x ? this : true)([, ,])" ∧
      parseExpression e.render = .ok e := by
  have hName : (Lexeme.name "x").IsScanned :=
    (Lettered.ident (show IsName "x" by decide)).isScanned rfl rfl rfl rfl
  have hNumber : (Lexeme.number (.ofInt 5) "5").IsScanned :=
    (Lettered.number ⟨⟨['5'], rfl, rfl⟩, by decide +kernel⟩).isScanned rfl rfl rfl rfl
  have hIdent : (Node.ident "x").IsOperatorTree := .ident hName (by decide) (by decide) (by decide)
  let power : Node := .binary .exp (.unary .neg (.unary .neg (.ident "x")))
    (.member (.int 5) (.ident "x") false)
  let choice : Node := .call (.conditional (.ident "x") .this (.literal ⟨.bool true, "true"⟩))
    [.array [.hole, .hole]]
  refine ⟨.binary .add power choice, by decide +kernel, parseExpression_render ?_⟩
  refine .binary (.binary (.unary (.unary hIdent)) (.member (.number hNumber) hName)) ?_
  refine .call (.conditional hIdent .this (.bool true)) ?_
  simp only [List.mem_singleton, forall_eq]
  exact .array (by simp)

end CodeShape
