import CodeShape.Node.Printer
import CodeShape.Proofs.Reading

/-!
The words that the text of a tree is made of, and the trees whose words are read back as they were
meant.
-/
namespace CodeShape

def BinaryOp.word : BinaryOp → Lexeme
  | .isIn => .name "in"
  | .instanceOf => .name "instanceof"
  | op => .punct (.binary op)

/-- The word of an operator in front of its operand. -/
def UnaryOp.word : UnaryOp → Lexeme
  | .neg => .punct (.binary .sub)
  | .plus => .punct (.binary .add)
  | .not => .punct .not
  | .bitNot => .punct .bitNot
  | .typeOf => .name "typeof"
  | .void => .name "void"
  | .delete => .name "delete"

namespace Node

open CodeShape.Parser

def bracketed (opening closing : Punct) (words : List Lexeme) : List Lexeme :=
  .punct opening :: words ++ [.punct closing]

def wrapped (words : List Lexeme) : List Lexeme := bracketed .openParen .closeParen words

def operandWords (n : Node) (words : List Lexeme) : List Lexeme :=
  if n.isOperation then wrapped words else words

def itemWords (n : Node) (words : List Lexeme) : List Lexeme :=
  if n.isSequence then wrapped words else words

def statementWords (n : Node) (words : List Lexeme) : List Lexeme :=
  if n.isDeclaration then words ++ [.punct .semicolon] else words

/-- The words of several elements, with commas between them. -/
def listWords (ns : List Node) (words : List (List Lexeme)) : List Lexeme :=
  commas (List.zipWith itemWords ns words)

def bodyWords (ns : List Node) (words : List (List Lexeme)) : List Lexeme :=
  (List.zipWith statementWords ns words).flatten

def literalWord : Literal → Lexeme
  | ⟨.string value, raw⟩ => .string value raw
  | ⟨.number value, raw⟩ => .number value raw
  | ⟨_, raw⟩ => .name raw

/-- An expression of a template. -/
def partOf (words : List Lexeme) : TokenStream :=
  ⟨words.map fun w => ⟨w, ⟨0, 0⟩, false⟩, ⟨0, 0⟩⟩

def methodWords : MethodKind → List Lexeme
  | .get => [.name "get"]
  | .set => [.name "set"]
  | .method | .constructor => []

def propertyWords : PropertyKind → List Lexeme
  | .get => [.name "get"]
  | .set => [.name "set"]
  | .init => []

mutual

/-- The words of a node, without the semicolon of a declaration. Nodes that no text has get no
words. -/
def words : Node → List Lexeme
  | program body => bodyWords body (wordsAll body)
  | block body => bracketed .openBrace .closeBrace (bodyWords body (wordsAll body))
  | expr e => (if e.opensStatement then wrapped e.words else e.words) ++ [.punct .semicolon]
  | empty => [.punct .semicolon]
  | ifElse test consequent alternate =>
    .name "if" :: wrapped test.words ++ consequent.statementWords consequent.words ++
      match alternate with
      | none => []
      | some other => .name "else" :: other.statementWords other.words
  | forLoop init test step body =>
    .name "for" :: .punct .openParen :: (match init with | none => [] | some n => n.words) ++
      .punct .semicolon :: (match test with | none => [] | some n => n.words) ++
      .punct .semicolon :: (match step with | none => [] | some n => n.words) ++
      .punct .closeParen :: body.statementWords body.words
  | forEach left right body overValues =>
    .name "for" :: .punct .openParen :: left.words ++
      .name (if overValues then "of" else "in") :: right.words ++
      .punct .closeParen :: body.statementWords body.words
  | whileLoop test body => .name "while" :: wrapped test.words ++ body.statementWords body.words
  | doWhile body test =>
    .name "do" :: body.statementWords body.words ++
      .name "while" :: wrapped test.words ++ [.punct .semicolon]
  | returns argument =>
    .name "return" :: (match argument with | none => [] | some n => n.words) ++ [.punct .semicolon]
  | breaks => [.name "break", .punct .semicolon]
  | continues => [.name "continue", .punct .semicolon]
  | throws argument => .name "throw" :: argument.words ++ [.punct .semicolon]
  | tryCatch body param handler finalizer =>
    .name "try" :: body.words ++
      (match handler with
      | none => []
      | some h =>
        .name "catch" :: (match param with | none => [] | some p => wrapped p.words) ++ h.words) ++
      (match finalizer with | none => [] | some f => .name "finally" :: f.words)
  | declaration kind declarators =>
    .name kind.text :: listWords declarators (wordsAll declarators)
  | declarator id init =>
    id.words ++
      (match init with
      | none => []
      | some n => .punct (.assign .plain) :: n.itemWords n.words)
  | function .arrow _ params body =>
    wrapped (listWords params (wordsAll params)) ++
      .punct .arrow :: (if body.opensBody then wrapped body.words else body.words)
  | function _ id params body =>
    .name "function" :: (match id with | none => [] | some n => n.words) ++
      wrapped (listWords params (wordsAll params)) ++ body.words
  | classDef id superclass members _ =>
    .name "class" :: (match id with | none => [] | some n => n.words) ++
      (match superclass with
      | none => []
      | some n => .name "extends" :: n.operandWords n.words) ++
      bracketed .openBrace .closeBrace (wordsAll members).flatten
  | method key value kind isStatic =>
    (if isStatic then [.name "static"] else []) ++ methodWords kind ++ key.words ++
      match value with
      | function _ _ params body => wrapped (listWords params (wordsAll params)) ++ body.words
      | _ => []
  | assign op left right => left.words ++ .punct (.assign op) :: right.words
  | update op before argument =>
    if before then .punct (.update op) :: argument.operandWords argument.words
    else argument.operandWords argument.words ++ [.punct (.update op)]
  | binary op left right =>
    left.operandWords left.words ++ op.word :: right.operandWords right.words
  | logical op left right =>
    left.operandWords left.words ++ .punct (.logical op) :: right.operandWords right.words
  | unary op argument =>
    op.word ::
      (if !op.isWord && argument.isUpdate then wrapped argument.words
        else argument.operandWords argument.words)
  | conditional test consequent alternate =>
    test.operandWords test.words ++ .punct .question :: consequent.itemWords consequent.words ++
      .punct .colon :: alternate.itemWords alternate.words
  | call callee arguments =>
    (if callee.isFunction then wrapped callee.words else callee.operandWords callee.words) ++
      wrapped (listWords arguments (wordsAll arguments))
  | construct callee arguments =>
    .name "new" :: callee.operandWords callee.words ++
      wrapped (listWords arguments (wordsAll arguments))
  | member owner key computed =>
    if computed then
      owner.operandWords owner.words ++ bracketed .openBracket .closeBracket key.words
    else
      (if owner.needsFence then wrapped owner.words else owner.operandWords owner.words) ++
        .punct .dot :: key.words
  | sequence items => commas (wordsAll items)
  | array elements =>
    bracketed .openBracket .closeBracket
      (listWords elements (wordsAll elements) ++
        if endsWithHole elements then [.punct .comma] else [])
  | object members => bracketed .openBrace .closeBrace (commas (wordsAll members))
  | property key value kind computed shorthand isMethod =>
    let name := if computed then bracketed .openBracket .closeBracket key.words else key.words
    if kind = .init && shorthand then name
    else if kind = .init && !isMethod then name ++ .punct .colon :: value.itemWords value.words
    else
      propertyWords kind ++ name ++
        match value with
        | function _ _ params body => wrapped (listWords params (wordsAll params)) ++ body.words
        | _ => []
  | template quasis expressions => [.template quasis ((wordsAll expressions).map partOf)]
  | spread argument => .punct .ellipsis :: argument.itemWords argument.words
  | withDefault left right => left.words ++ .punct (.assign .plain) :: right.itemWords right.words
  | literal value => [literalWord value]
  | ident name => [.name name]
  | this => [.name "this"]
  | hole | wildcard _ => []

def wordsAll : List Node → List (List Lexeme)
  | [] => []
  | n :: ns => n.words :: wordsAll ns

end

/-- The text starts like a block. -/
def startsBlock (n : Node) : Bool := n.words.head?.any (Lexeme.isSign .openBrace)

/-- The text starts like a block or a declaration. -/
def startsStatement (n : Node) : Bool :=
  n.startsBlock || n.words.head?.any (Lexeme.isName "function") ||
    n.words.head?.any (Lexeme.isName "class")

def isBlock : Node → Bool
  | block _ => true
  | _ => false

/-- What `new` takes as a whole: the first arguments are its own. -/
def constructs : Node → Bool
  | call _ _ | update _ _ _ => false
  | member owner _ _ => owner.constructs
  | _ => true

/-- The name of a method, which a computed one looks like. -/
def namesMethod : Node → Bool
  | ident _ | literal ⟨.number _, _⟩ | literal ⟨.string _, _⟩ => true
  | _ => false

mutual

/-- The text ends with the expression of an arrow, which a following `in` would become a part of. -/
def trails : Node → Bool
  | function .arrow _ _ body => !body.isBlock
  | assign _ _ right => right.trails
  | conditional _ _ alternate => !alternate.isSequence && alternate.trails
  | sequence items => trailsLast items
  | declaration _ declarators => trailsLast declarators
  | declarator _ (some init) => !init.isSequence && init.trails
  | _ => false

def trailsLast : List Node → Bool
  | [] => false
  | [n] => n.trails
  | _ :: ns => trailsLast ns

end

mutual

/-- The text of the tree is read as the tree was meant. It is not where the text lacks parentheses:
around a sequence that stands for one expression, an update that is called, extended or has a member
accessed, a call that is constructed, what starts like a block or a declaration at the start of a
statement or of the body of an arrow function, `in` in the head of a loop; nor where a method has a
computed name, or the function `async` is called.

`noIn` holds where the word `in` ends an expression. -/
def faithful : (noIn : Bool) → Node → Bool
  | noIn, program body | noIn, block body => faithfulAll noIn body
  | noIn, expr e => (e.opensStatement || !e.startsStatement) && e.faithful (noIn && !e.opensStatement)
  | noIn, ifElse test consequent alternate =>
    test.faithful false && consequent.faithful noIn &&
      match alternate with
      | none => true
      | some other => other.faithful noIn
  | noIn, forLoop init test step body =>
    (match init with | none => true | some n => n.faithful true) &&
      (match test with | none => true | some n => n.faithful noIn) &&
      (match step with | none => true | some n => n.faithful noIn) && body.faithful noIn
  | noIn, forEach left right body overValues =>
    (if overValues then !right.isSequence else !left.trails) && left.faithful true &&
      right.faithful noIn && body.faithful noIn
  | noIn, whileLoop test body | noIn, doWhile body test => test.faithful false && body.faithful noIn
  | noIn, returns argument => match argument with | none => true | some n => n.faithful noIn
  | noIn, throws argument => argument.faithful noIn
  | noIn, tryCatch body _ handler finalizer =>
    body.faithful noIn && (match handler with | none => true | some n => n.faithful noIn) &&
      (match finalizer with | none => true | some n => n.faithful noIn)
  | noIn, declaration _ declarators => faithfulAll noIn declarators
  | noIn, declarator _ init =>
    match init with
    | none => true
    | some n => n.faithful (noIn && !n.isSequence)
  | noIn, function form _ params body =>
    faithfulAll false params &&
      (form != .arrow || body.isBlock || body.opensBody || !body.startsBlock) &&
      body.faithful (noIn && form == .arrow && body.isBlock)
  | _, classDef _ superclass members _ =>
    (match superclass with | none => true | some n => !n.isUpdate && n.faithful false) &&
      faithfulAll false members
  | _, method key value _ _ => key.namesMethod && value.faithful false
  | noIn, assign _ left right => left.faithful false && !right.isSequence && right.faithful noIn
  | _, update _ _ argument | _, unary _ argument | _, spread argument => argument.faithful false
  | noIn, binary op left right =>
    !(noIn && op == .isIn) && left.faithful false && right.faithful false
  | _, logical _ left right => left.faithful false && right.faithful false
  | noIn, conditional test consequent alternate =>
    test.faithful false && consequent.faithful false &&
      alternate.faithful (noIn && !alternate.isSequence)
  | _, call callee arguments =>
    !callee.isUpdate && callee.ident? != some "async" && callee.faithful false &&
      faithfulAll false arguments
  | _, construct callee arguments =>
    callee.constructs && callee.faithful false && faithfulAll false arguments
  | _, member owner key _ => !owner.isUpdate && owner.faithful false && key.faithful false
  | noIn, sequence items => items.all (!isSequence ·) && faithfulAll noIn items
  | _, array ns | _, object ns | _, template _ ns => faithfulAll false ns
  | _, property key value _ computed _ _ =>
    !(computed && key.isSequence) && key.faithful false && value.faithful false
  | _, withDefault _ right => right.faithful false
  | _, empty | _, breaks | _, continues | _, literal _ | _, ident _ | _, this | _, hole
  | _, wildcard _ => true

/-- The texts of all trees of a list are read as they were meant. -/
def faithfulAll : (noIn : Bool) → List Node → Bool
  | _, [] => true
  | noIn, n :: ns => n.faithful noIn && faithfulAll noIn ns

end

/-- The words of a list of nodes are those of each, so that the recursion over lists can be left. -/
theorem wordsAll_eq_map (ns : List Node) : wordsAll ns = ns.map words := by
  induction ns with
  | nil => rfl
  | cons n ns ih => exact congrArg (n.words :: ·) ih

theorem zipWith_map_self {α β : Type} (f : Node → α → β) (g : Node → α) (ns : List Node) :
    List.zipWith f ns (ns.map g) = ns.map fun n => f n (g n) := by
  induction ns with
  | nil => rfl
  | cons n ns ih => rw [List.map_cons, List.zipWith_cons_cons, ih, List.map_cons]

/-- A comma-separated list is its items with commas between them, each fenced where it needs to
be. -/
theorem listWords_eq (ns : List Node) :
    listWords ns (wordsAll ns) = commas (ns.map fun n => n.itemWords n.words) := by
  rw [listWords, wordsAll_eq_map, zipWith_map_self]

/-- A body is its statements one after the other, with nothing between them. -/
theorem bodyWords_eq (ns : List Node) :
    bodyWords ns (wordsAll ns) = (ns.map fun n => n.statementWords n.words).flatten := by
  rw [bodyWords, wordsAll_eq_map, zipWith_map_self]

/-- A list is faithful when each of its nodes is. -/
theorem faithfulAll_eq_true {noIn : Bool} {ns : List Node} :
    faithfulAll noIn ns = true ↔ ∀ n ∈ ns, n.faithful noIn = true := by
  induction ns with
  | nil => exact ⟨fun _ _ => nofun, fun _ => rfl⟩
  | cons n ns ih =>
      change (n.faithful noIn && faithfulAll noIn ns) = true ↔ _
      rw [Bool.and_eq_true, ih, List.forall_mem_cons]

/-- A list trails as its last node does. -/
theorem trailsLast_eq {n : Node} {ns : List Node} (h : n ∈ ns.getLast?) :
    trailsLast ns = n.trails := by
  induction ns with
  | nil => cases h
  | cons n' ns ih =>
      cases ns with
      | nil =>
          cases h
          rfl
      | cons => exact ih (by simpa using h)

section Parts

variable {noIn : Bool} {e test body left right key value : Node} {ns : List Node}

theorem faithful_program : (program ns).faithful noIn = faithfulAll noIn ns := rfl

/-- What a block asks of the statements in it: the restriction on `in` goes through to them. -/
theorem faithful_block : (block ns).faithful noIn = faithfulAll noIn ns := rfl

/-- An expression statement opens with no word that starts a statement, unless it is put in
parentheses, and then the restriction on `in` ends there. -/
theorem faithful_expr : (expr e).faithful noIn =
    ((e.opensStatement || !e.startsStatement) && e.faithful (noIn && !e.opensStatement)) := rfl

/-- The head of a `for`-`in` or `for`-`of` restricts its left side always; its right side and body
are restricted as the loop is. -/
theorem faithful_forEach {overValues : Bool} : (forEach left right body overValues).faithful noIn =
    ((if overValues then !right.isSequence else !left.trails) && left.faithful true &&
      right.faithful noIn && body.faithful noIn) := rfl

/-- A condition stands in parentheses, so the restriction reaches the body only. -/
theorem faithful_whileLoop :
    (whileLoop test body).faithful noIn = (test.faithful false && body.faithful noIn) := rfl

theorem faithful_doWhile :
    (doWhile body test).faithful noIn = (test.faithful false && body.faithful noIn) := rfl

theorem faithful_declaration {kind : DeclarationKind} :
    (declaration kind ns).faithful noIn = faithfulAll noIn ns := rfl

/-- An arrow with a block for a body is where the restriction goes on; anywhere else a function
lifts it. -/
theorem faithful_function {form : FunctionForm} {id : Option Node} :
    (function form id ns body).faithful noIn = (faithfulAll false ns &&
      (form != .arrow || body.isBlock || body.opensBody || !body.startsBlock) &&
      body.faithful (noIn && form == .arrow && body.isBlock)) := rfl

/-- A method is named by a key that can name one, and its function starts afresh. -/
theorem faithful_method {kind : MethodKind} {isStatic : Bool} :
    (method key value kind isStatic).faithful noIn = (key.namesMethod && value.faithful false) := rfl

/-- The right side of an assignment is printed bare, so it must be no sequence; the restriction
reaches it. -/
theorem faithful_assign {op : AssignOp} : (assign op left right).faithful noIn =
    (left.faithful false && !right.isSequence && right.faithful noIn) := rfl

/-- An `in` is faithful outside the restriction only; operands are fenced, so it ends at them. -/
theorem faithful_binary {op : BinaryOp} : (binary op left right).faithful noIn =
    (!(noIn && op == .isIn) && left.faithful false && right.faithful false) := rfl

theorem faithful_logical {op : LogicalOp} : (logical op left right).faithful noIn =
    (left.faithful false && right.faithful false) := rfl

/-- Only the alternative is printed without a closing sign after it, so the restriction reaches it
alone. -/
theorem faithful_conditional : (conditional test left right).faithful noIn =
    (test.faithful false && left.faithful false && right.faithful (noIn && !right.isSequence)) := rfl

/-- A callee is no update and not the name `async`, which before parentheses starts an arrow. -/
theorem faithful_call : (call e ns).faithful noIn = (!e.isUpdate && e.ident? != some "async" &&
    e.faithful false && faithfulAll false ns) := rfl

/-- The callee of `new` holds no call at its outside. -/
theorem faithful_construct : (construct e ns).faithful noIn =
    (e.constructs && e.faithful false && faithfulAll false ns) := rfl

/-- An object is no update, since `++` before a dot is not read back. -/
theorem faithful_member {computed : Bool} : (member e key computed).faithful noIn =
    (!e.isUpdate && e.faithful false && key.faithful false) := rfl

/-- The items of a sequence are no sequences themselves and stay restricted as it is. -/
theorem faithful_sequence :
    (sequence ns).faithful noIn = (ns.all (!isSequence ·) && faithfulAll noIn ns) := rfl

theorem faithful_array : (array ns).faithful noIn = faithfulAll false ns := rfl

theorem faithful_object : (object ns).faithful noIn = faithfulAll false ns := rfl

theorem faithful_template {quasis : List String} :
    (template quasis ns).faithful noIn = faithfulAll false ns := rfl

/-- A computed key is no sequence: brackets hold one assignment. -/
theorem faithful_property {kind : PropertyKind} {computed shorthand isMethod : Bool} :
    (property key value kind computed shorthand isMethod).faithful noIn =
      (!(computed && key.isSequence) && key.faithful false && value.faithful false) := rfl

/-- An arrow trails when its body is an expression. -/
theorem trails_arrow {id : Option Node} : (function .arrow id ns body).trails = !body.isBlock := rfl

/-- A conditional trails through its alternative, unless that is put in parentheses. -/
theorem trails_conditional : (conditional test left right).trails =
    (!right.isSequence && right.trails) := rfl

/-- A declarator trails through its initializer, unless that is put in parentheses. -/
theorem trails_declarator : (declarator e (some right)).trails =
    (!right.isSequence && right.trails) := rfl

end Parts

section Optional

variable {noIn : Bool} {test body : Node} {init alternate argument step param handler : Option Node}
variable {finalizer id superclass : Option Node} {test' : Option Node} {ns : List Node}

/-- Both branches of an `if` are restricted as it is, and the condition is not. -/
theorem faithful_ifElse : (ifElse test body alternate).faithful noIn =
    (test.faithful false && body.faithful noIn && alternate.all (faithful noIn)) := by
  cases alternate <;> rfl

/-- In the head of a `for` loop the start is restricted always, the other parts as the loop is. -/
theorem faithful_forLoop : (forLoop init test' step body).faithful noIn =
    (init.all (faithful true) && test'.all (faithful noIn) && step.all (faithful noIn) &&
      body.faithful noIn) := by
  cases init <;> cases test' <;> cases step <;> rfl

/-- The value of a `return` is restricted as the statement is. -/
theorem faithful_returns : (returns argument).faithful noIn = argument.all (faithful noIn) := by
  cases argument <;> rfl

/-- The three blocks of a `try` are restricted as it is. -/
theorem faithful_tryCatch : (tryCatch body param handler finalizer).faithful noIn =
    (body.faithful noIn && handler.all (faithful noIn) && finalizer.all (faithful noIn)) := by
  cases handler <;> cases finalizer <;> rfl

/-- An initializer is restricted as the declarator is, unless it is put in parentheses. -/
theorem faithful_declarator : (declarator test init).faithful noIn =
    init.all fun n => n.faithful (noIn && !n.isSequence) := by
  cases init <;> rfl

/-- A superclass is no update; members start afresh. -/
theorem faithful_classDef {expression : Bool} :
    (classDef id superclass ns expression).faithful noIn =
      (superclass.all (fun n => !n.isUpdate && n.faithful false) && faithfulAll false ns) := by
  cases superclass <;> rfl

/-- The words of an `if`, with the `else` only where there is an alternate. -/
theorem words_ifElse : (ifElse test body alternate).words =
    .name "if" :: wrapped test.words ++ body.statementWords body.words ++
      alternate.elim [] fun n => .name "else" :: n.statementWords n.words := by
  cases alternate <;> rfl

/-- The words of a `for` loop; an absent part leaves nothing between its semicolons. -/
theorem words_forLoop : (forLoop init test' step body).words =
    .name "for" :: .punct .openParen :: init.elim [] words ++ .punct .semicolon ::
      test'.elim [] words ++ .punct .semicolon :: step.elim [] words ++
      .punct .closeParen :: body.statementWords body.words := by
  cases init <;> cases test' <;> cases step <;> rfl

/-- The words of a `for`-`in` or `for`-`of` loop. -/
theorem words_forEach {left right : Node} {overValues : Bool} :
    (forEach left right body overValues).words = .name "for" :: .punct .openParen :: left.words ++
      .name (if overValues then "of" else "in") :: right.words ++
      .punct .closeParen :: body.statementWords body.words := rfl

theorem words_returns : (returns argument).words =
    .name "return" :: argument.elim [] words ++ [.punct .semicolon] := by
  cases argument <;> rfl

/-- The words of a `try`, its handler and finalizer standing where they are present. -/
theorem words_tryCatch : (tryCatch body param handler finalizer).words =
    .name "try" :: body.words ++ (handler.elim [] fun n =>
      .name "catch" :: param.elim [] (fun p => wrapped p.words) ++ n.words) ++
      finalizer.elim [] fun n => .name "finally" :: n.words := by
  cases param <;> cases handler <;> cases finalizer <;> rfl

/-- The words of a declarator, with the sign only before an initializer. -/
theorem words_declarator : (declarator test init).words =
    test.words ++ init.elim [] fun n => .punct (.assign .plain) :: n.itemWords n.words := by
  cases init <;> rfl

/-- A function that is no arrow starts with its keyword and name. -/
theorem words_function {form : FunctionForm} (hForm : form ≠ .arrow) :
    (function form id ns body).words = .name "function" :: id.elim [] words ++
      wrapped (listWords ns (wordsAll ns)) ++ body.words := by
  cases id <;> cases form <;> first | rfl | contradiction

/-- The words of a class; its members stand in braces with nothing between them. -/
theorem words_classDef {expression : Bool} : (classDef id superclass ns expression).words =
    .name "class" :: id.elim [] words ++
      (superclass.elim [] fun n => .name "extends" :: n.operandWords n.words) ++
      bracketed .openBrace .closeBrace (wordsAll ns).flatten := by
  cases id <;> cases superclass <;> rfl

/-- The words of a unary operation; an update under a sign is put in parentheses, so that `- --x` is
not `---x`. -/
theorem words_unary {op : UnaryOp} : (unary op test).words =
    op.word :: (if !op.isWord && test.isUpdate then wrapped test.words
      else test.operandWords test.words) := rfl

theorem words_conditional {left right : Node} : (conditional test left right).words =
    test.operandWords test.words ++ .punct .question :: left.itemWords left.words ++
      .punct .colon :: right.itemWords right.words := rfl

/-- The words of a call; a function that is called is put in parentheses. -/
theorem words_call : (call test ns).words =
    (if test.isFunction then wrapped test.words else test.operandWords test.words) ++
      wrapped (commas (ns.map fun n => n.itemWords n.words)) := by
  rw [← listWords_eq]
  rfl

theorem words_sequence : (sequence ns).words = commas (ns.map words) := by
  rw [← wordsAll_eq_map]
  rfl

/-- The words of an array; one that ends with a hole needs a comma more. -/
theorem words_array : (array ns).words =
    bracketed .openBracket .closeBracket (commas (ns.map fun n => n.itemWords n.words) ++
      if endsWithHole ns then [.punct .comma] else []) := by
  rw [← listWords_eq]
  rfl

theorem words_object : (object ns).words =
    bracketed .openBrace .closeBrace (commas (ns.map words)) := by
  rw [← wordsAll_eq_map]
  rfl

/-- The words of a property with a value. -/
theorem words_property {key value : Node} {computed : Bool} :
    (property key value .init computed false false).words =
      (if computed then bracketed .openBracket .closeBracket key.words else key.words) ++
        .punct .colon :: value.itemWords value.words := by
  cases value <;> rfl

/-- The words of a method, a getter or a setter of an object: the function is printed without its
keyword. -/
theorem words_methodProperty {key : Node} {kind : PropertyKind} {computed : Bool}
    {form : FunctionForm} :
    (property key (function form id ns body) kind computed false (kind = .init)).words =
      propertyWords kind ++
        (if computed then bracketed .openBracket .closeBracket key.words else key.words) ++
        (wrapped (listWords ns (wordsAll ns)) ++ body.words) := by
  cases kind <;> rfl

end Optional

end Node

namespace Lexeme

open Node CodeShape.Parser

/-- The number of tokens that words are made of. -/
def weightOf : List Lexeme → Nat
  | [] => 0
  | w :: ws => w.weight + weightOf ws

@[simp] theorem weightOf_nil : weightOf [] = 0 := rfl

@[simp] theorem weightOf_cons (w : Lexeme) (ws : List Lexeme) :
    weightOf (w :: ws) = w.weight + weightOf ws := rfl

/-- Weights add up along a text. -/
@[simp] theorem weightOf_append (us vs : List Lexeme) :
    weightOf (us ++ vs) = weightOf us + weightOf vs := by
  induction us with
  | nil => rw [List.nil_append, weightOf_nil, Nat.zero_add]
  | cons w us ih => rw [List.cons_append, weightOf_cons, weightOf_cons, ih, Nat.add_assoc]

/-- The two signs around a text weigh one each. -/
@[simp] theorem weightOf_bracketed (p q : Punct) (ws : List Lexeme) :
    weightOf (bracketed p q ws) = weightOf ws + 2 := by
  simp only [bracketed, List.cons_append, weightOf_cons, weightOf_append, weightOf_nil, weight]
  omega

@[simp] theorem weightOf_wrapped (ws : List Lexeme) : weightOf (wrapped ws) = weightOf ws + 2 :=
  weightOf_bracketed _ _ ws

/-- An item is no heavier than the list it is in. -/
theorem weightOf_le_commas {ws : List Lexeme} {wss : List (List Lexeme)} (h : ws ∈ wss) :
    weightOf ws ≤ weightOf (commas wss) := by
  induction wss with
  | nil => cases h
  | cons vs wss ih =>
      cases wss with
      | nil => simp [List.mem_singleton.1 h]
      | cons us wss =>
          rw [commas_cons_cons, weightOf_append, weightOf_cons]
          rcases List.mem_cons.1 h with rfl | h
          · exact Nat.le_add_right _ _
          · have hRest := ih h
            omega

/-- An expression is lighter than the template it is in. -/
theorem weightOf_lt_template (quasis : List String) {ws : List Lexeme} {wss : List (List Lexeme)}
    (h : ws ∈ wss) : weightOf ws < (Lexeme.template quasis (wss.map partOf)).weight := by
  have hWords : wordsWeight (partOf ws).words = weightOf ws := by
    rw [partOf]
    clear h
    induction ws with
    | nil => rfl
    | cons w ws ih => rw [List.map_cons, wordsWeight, ih, weightOf_cons]
  suffices hParts : weightOf ws ≤ partsWeight (wss.map partOf) by
    rw [weight]
    omega
  induction wss with
  | nil => cases h
  | cons vs wss ih =>
      rw [List.map_cons, partsWeight]
      rcases List.mem_cons.1 h with rfl | h
      · omega
      · have hRest := ih h
        omega

/-- A part of a row of words is no heavier than the row. -/
theorem weightOf_le_flatten {ws : List Lexeme} {wss : List (List Lexeme)} (h : ws ∈ wss) :
    weightOf ws ≤ weightOf wss.flatten := by
  induction wss with
  | nil => cases h
  | cons vs wss ih =>
      rw [List.flatten_cons, weightOf_append]
      rcases List.mem_cons.1 h with rfl | h
      · exact Nat.le_add_right _ _
      · exact Nat.le_trans (ih h) (Nat.le_add_left _ _)

/-- The words of tokens are as heavy as the tokens. -/
theorem weightOf_plain (tokens : List Token) :
    weightOf (tokens.map (·.word.plain)) = wordsWeight tokens := by
  induction tokens with
  | nil => rfl
  | cons t tokens ih =>
      obtain ⟨word, span, flag⟩ := t
      rw [List.map_cons, weightOf_cons, weight_plain, ih, wordsWeight]

end Lexeme

end CodeShape
