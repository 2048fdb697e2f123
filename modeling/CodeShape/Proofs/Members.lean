import CodeShape.Proofs.Phrases

/-!
What the rules for functions, classes and object literals make of words. Their parts stand between
brackets and after keywords, so nothing that follows them matters, apart from the body of an arrow.
-/
namespace CodeShape

open CodeShape.Parser Lexeme

/-- What follows is no part of the statement: no `else` that it would take, and no `finally`. -/
structure Node.EndsStatement (n : Node) (next : Option Lexeme) : Prop where
  last : next.any (isName "finally") = false
  settled : n.dangles = true → next.any (isName "else") = false

/-- A word that a statement starts with: none that ends a block or goes on with the statement
before. -/
def Lexeme.startsStatement : Lexeme → Bool
  | .punct p => p != .closeBrace
  | .name text => text != "else" && text != "finally"
  | _ => true

/-- A word that the name of a member starts with. -/
def Lexeme.startsKey : Lexeme → Bool
  | .name _ | .number _ _ | .string _ _ | .punct .openBracket => true
  | _ => false

namespace Grammar

variable {g : Grammar} {noIn computed : Bool} {ws us vs ps : List Lexeme} {e body key value : Node}
variable {ns params : List Node} {F : Option Lexeme → Prop}

/-- What starts a statement ends the one before it. -/
theorem endsStatement_of_starts {n : Node} {next : Option Lexeme}
    (h : next.all Lexeme.startsStatement = true) : n.EndsStatement next := by
  cases next with
  | none => exact ⟨rfl, fun _ => rfl⟩
  | some w =>
      cases w with
      | name text =>
          simp only [Option.all_some, Lexeme.startsStatement, Bool.and_eq_true, bne_iff_ne] at h
          exact ⟨beq_eq_false_iff_ne.2 h.2, fun _ => beq_eq_false_iff_ne.2 h.1⟩
      | _ => exact ⟨rfl, fun _ => rfl⟩

/-- A block of statements. -/
theorem reads_block
    (h : ∀ n ∈ ns, Reads (g.statement noIn) (n.statementWords n.words) n n.EndsStatement)
    (hStarts : ∀ n ∈ ns, (n.statementWords n.words).head?.any Lexeme.startsStatement = true) :
    Reads (g.block noIn) (Node.bracketed .openBrace .closeBrace
      (ns.map fun n => n.statementWords n.words).flatten) (.block ns) fun _ => True := by
  refine .bind (u := [.punct .openBrace]) (F := fun _ => True) reads_expect ?_ fun _ _ => trivial
  refine (reads_each (G := Node.EndsStatement) (fun n hn => ?_) hStarts rfl fun n _ => ?_).done
  · have hNonempty := ne_nil_of_starts (hStarts n hn)
    exact .look (looks_atEnd (F := fun _ => True) hNonempty) (h n hn).done fun _ _ => trivial
  · rintro w (hw | rfl)
    · exact endsStatement_of_starts (by simpa using hw)
    · exact ⟨rfl, fun _ => rfl⟩

/-- Parameters, each with its default or spread. -/
theorem reads_parameters
    (h : ∀ n ∈ params, ReadsItem g.parameter .closeParen (n.itemWords n.words) n) :
    Reads g.parameters (Node.wrapped (Node.listWords params (Node.wordsAll params))) params
      fun _ => True := by
  refine .bind (u := [.punct .openParen]) (F := fun _ => True) reads_expect ?_ fun _ _ => trivial
  rw [Node.listWords_eq]
  refine reads_listed (by decide) ?_
  rw [List.forall₂_map_left_iff]
  exact List.forall₂_same.2 h

/-- A function is read from its parameters and its block. -/
theorem reads_functionRest {form : FunctionForm} {id : Option String}
    (hParams : Reads g.parameters us params fun _ => True)
    (hBody : Reads (g.block false) vs body fun _ => True) :
    Reads (g.functionRest form id) (us ++ vs) (.function form (id.map .ident) params body)
      fun _ => True :=
  hParams.bind hBody.done fun _ _ => trivial

/-- A parameter that is a name, starts with a name or is spread is no pattern. -/
theorem reads_parameter_name {name : String} (h : keywords.contains name = false) :
    ReadsItem g.parameter .closeParen [.name name] (.ident name) := by
  refine ⟨?_, rfl, nofun⟩
  refine .look (looks_seesAny (b := false)) ?_ fun _ _ => rfl
  simp only [Bool.false_eq_true, if_false]
  refine .bind (u := []) reads_eat_not ?_ fun _ _ => rfl
  simp only [Bool.false_eq_true, if_false]
  refine .bind (u := [.name name]) (F := fun _ => True) (reads_identifier h) ?_ fun _ _ => trivial
  refine .bind (u := []) (v := []) reads_eat_not .pure ?_
  rintro next (rfl | rfl) <;> rfl

/-- A parameter with a default is read by its name, the sign and the default. -/
theorem reads_parameter_default {name : String} (h : keywords.contains name = false)
    (hValue : Reads (g.assignment false) ws e (EndsExpression false)) :
    ReadsItem g.parameter .closeParen (.name name :: .punct (.assign .plain) :: ws)
      (.withDefault (.ident name) e) := by
  refine ⟨?_, rfl, nofun⟩
  refine .look (looks_seesAny (b := false)) ?_ fun _ _ => rfl
  simp only [Bool.false_eq_true, if_false]
  refine .bind (u := []) reads_eat_not ?_ fun _ _ => rfl
  simp only [Bool.false_eq_true, if_false]
  refine .bind (u := [.name name]) (F := fun _ => True) (reads_identifier h) ?_ fun _ _ => trivial
  refine .bind (u := [.punct (.assign .plain)]) (F := fun _ => True) reads_eat ?_ fun _ _ => trivial
  refine hValue.done.mono ?_
  rintro next (rfl | rfl) <;> rfl

theorem reads_parameter_rest {name : String} (h : keywords.contains name = false) :
    ReadsItem g.parameter .closeParen [.punct .ellipsis, .name name] (.spread (.ident name)) := by
  refine ⟨?_, rfl, nofun⟩
  refine .look (looks_seesAny (b := false)) ?_ fun _ _ => rfl
  simp only [Bool.false_eq_true, if_false]
  refine .bind (u := [.punct .ellipsis]) (F := fun _ => True) reads_eat ?_ fun _ _ => trivial
  exact (reads_identifier h).done

/-- A function with its keyword. -/
theorem reads_function {form : FunctionForm} {id : Option String}
    (hId : ∀ name ∈ id, keywords.contains name = false) (hForm : form = .declaration → id.isSome)
    (hParams : Reads g.parameters (Node.wrapped ps) params fun _ => True)
    (hBody : Reads (g.block false) vs body fun _ => True) :
    Reads (g.function form)
      (.name "function" :: (id.toList.map Lexeme.name ++ (Node.wrapped ps ++ vs)))
      (.function form (id.map .ident) params body) fun _ => True := by
  have hRest : Reads (g.functionRest form id) (Node.wrapped ps ++ vs)
      (.function form (id.map .ident) params body) fun _ => True := reads_functionRest hParams hBody
  unfold function
  refine .bind (u := [.name "function"]) (F := fun _ => True) reads_eatName ?_ fun _ _ => trivial
  cases id with
  | none =>
      refine .look (looks_sees (b := false)) ?_ fun _ _ => rfl
      refine .look (looks_seesWord (b := false)) ?_ fun _ _ => rfl
      have hNot : form ≠ .declaration := fun h => absurd (hForm h) nofun
      simp only [hNot, decide_false, Bool.or_self, Bool.false_eq_true, if_false]
      exact .bind (u := []) (F := fun _ => True) .pure hRest fun _ _ => trivial
  | some name =>
      refine .look (looks_sees (b := false)) ?_ fun _ _ => rfl
      refine .look (looks_seesWord (b := true)) ?_ fun _ _ => rfl
      simp only [Bool.or_true, if_true]
      exact .bind (u := [.name name]) (F := fun _ => True)
        (reads_identifier (hId name rfl)).map hRest fun _ _ => trivial

/-- The signs after the name of a member. -/
def keyEnds : List Punct := [.openParen, .colon, .comma, .closeBrace, .assign .plain, .semicolon]

/-- The words are the name of a member: one word, or an expression in brackets. -/
structure ReadsKey (g : Grammar) (ws : List Lexeme) (key : Node) (computed : Bool) : Prop where
  reads : Reads g.memberKey ws (key, computed) fun _ => True
  starts : ws.head?.any startsKey = true
  short : ws.head?.any isWord = true → ws.length = 1

namespace ReadsKey

variable {text raw : String}

theorem name : ReadsKey g [.name text] (.ident text) false :=
  ⟨.peek_word rfl reads_propertyName.done, rfl, fun _ => rfl⟩

theorem number {v : Number} : ReadsKey g [.number v raw] (.literal ⟨.number v, raw⟩) false :=
  ⟨.peek_word rfl (.bind (v := []) (F := fun _ => True) (reads_advance _) .pure fun _ h => h), rfl,
    fun _ => rfl⟩

theorem string : ReadsKey g [.string text raw] (.literal ⟨.string text, raw⟩) false :=
  ⟨.peek_word rfl (.bind (v := []) (F := fun _ => True) (reads_advance _) .pure fun _ h => h), rfl,
    fun _ => rfl⟩

/-- A key in brackets is computed. -/
theorem bracketed (h : Reads (g.assignment false) ws key (EndsExpression false)) :
    ReadsKey g (Node.bracketed .openBracket .closeBracket ws) key true := by
  refine ⟨.peek_word rfl ?_, rfl, nofun⟩
  refine .bind (u := [.punct .openBracket]) (F := fun _ => True) (reads_advance _) ?_
    fun _ _ => trivial
  refine .bind h (.bind (v := []) (F := fun _ => True) reads_expect .pure fun _ h => h) ?_
  exact fun _ _ => rfl

theorem nonempty (h : ReadsKey g ws key computed) : ws ≠ [] := ne_nil_of_starts h.starts

end ReadsKey

/-- Whether the word in front is a modifier is told by the word after it. -/
theorem looks_seesModifier {word : String} {w : Lexeme} {b : Bool} :
    Looks (seesModifier word) (w :: us) b fun next =>
      (w.isName word && !(us.head?.or next).any (isOneOf keyEnds)) = b := by
  intro tokens rest stop hs hNext
  obtain ⟨t, ts, rfl, rfl, hus⟩ := hs.exists_cons
  have hAny : ((ts ++ rest)[0]?.map Located.word).any (isOneOf keyEnds) =
      (us.head?.or (nextWord rest)).any (isOneOf keyEnds) := by
    rw [← hus.nextWord_append, nextWord, ← List.head?_eq_getElem?]
    cases (ts ++ rest).head? with
    | none => rfl
    | some t => exact (plain_test (isOneOf keyEnds) (fun _ _ _ _ => rfl) t.word).symm
  rw [watches_seesModifier, ← hNext, ← hAny,
    plain_test (isName word) (fun _ _ _ _ => rfl) t.word]
  rfl

/-- A word that is a modifier of the member. -/
theorem reads_eatModifier {word : String} :
    Reads (eatModifier word) [.name word] true fun next => next.any (isOneOf keyEnds) = false :=
  .look (looks_seesModifier (b := true)) (.bind (v := []) (F := fun _ => True) (reads_advance _)
    .pure fun _ _ => trivial) fun next hNext => by simp [isName, hNext]

/-- A word that is the member's own name is not taken for a modifier. -/
theorem looks_eatModifier {word : String} {w : Lexeme} :
    Looks (eatModifier word) (w :: us) false fun next =>
      (w.isName word && !(us.head?.or next).any (isOneOf keyEnds)) = false :=
  looks_seesModifier.bind .pure

/-- The name of a member is no modifier. -/
theorem ReadsKey.looks_eatModifier (h : ReadsKey g ws key computed) {word : String} :
    Looks (eatModifier word) (ws ++ us) false fun next =>
      (us.head?.or next).any (isOneOf keyEnds) = true := by
  obtain ⟨w, ws, rfl⟩ := List.exists_cons_of_ne_nil h.nonempty
  refine Grammar.looks_eatModifier.mono fun next hNext => ?_
  by_cases hWord : w.isWord = true
  · have hNil : ws = [] := by simpa using h.short hWord
    subst hNil
    change (w.isName word && !(us.head?.or next).any (isOneOf keyEnds)) = false
    rw [hNext, Bool.not_true, Bool.and_false]
  · have hName : w.isName word = false := by
      cases w <;> first | rfl | exact absurd rfl hWord
    rw [hName, Bool.false_and]

/-- The words in front of a member that tell its kind. -/
def IsKind {κ : Type} (get set other : κ) (ws : List Lexeme) (kind : κ) : Prop :=
  ws = [] ∧ kind = other ∨ ws = [.name "get"] ∧ kind = get ∨ ws = [.name "set"] ∧ kind = set

namespace IsKind

variable {κ : Type} {get set other kind : κ}

/-- The words of a member start like its name. -/
theorem starts (h : IsKind get set other us kind) (hKey : ReadsKey g ws key computed)
    (vs : List Lexeme) : (us ++ (ws ++ vs)).head?.any startsKey = true := by
  rcases h with ⟨rfl, -⟩ | ⟨rfl, -⟩ | ⟨rfl, -⟩
  · rw [List.nil_append]
    exact head?_append hKey.starts
  · rfl
  · rfl

theorem of_property (kind : PropertyKind) :
    IsKind .get .set .init (Node.propertyWords kind) kind := by
  cases kind
  · exact .inl ⟨rfl, rfl⟩
  · exact .inr (.inl ⟨rfl, rfl⟩)
  · exact .inr (.inr ⟨rfl, rfl⟩)

end IsKind

/-- The kind of a member is read from the words before its key. -/
theorem reads_memberKind {κ α : Type} {get set other kind : κ} {f : κ → Parser α} {a : α}
    {u v : List Lexeme} (hKind : IsKind get set other u kind) (hKey : ReadsKey g ws key computed)
    (hNext : ∀ next, F next → (v.head?.or next).any (isOneOf keyEnds) = true)
    (h : Reads (f kind) (ws ++ v) a F) :
    Reads (memberKind get set other >>= f) (u ++ (ws ++ v)) a F := by
  have hStarts : ∀ next : Option Lexeme,
      (((ws ++ v).head?).or next).any (isOneOf keyEnds) = false :=
    not_oneOf (by decide) (head?_append hKey.starts)
  rcases hKind with ⟨rfl, rfl⟩ | ⟨rfl, rfl⟩ | ⟨rfl, rfl⟩
  · have hLook : ∀ word, Looks (eatModifier word) (ws ++ v) false F :=
      fun word => hKey.looks_eatModifier.mono hNext
    exact .look ((hLook "get").bind ((hLook "set").bind .pure)) h fun _ hF => hF
  · refine .bind (u := [.name "get"]) (F := fun next => next.any (isOneOf keyEnds) = false) ?_ h
      fun next _ => hStarts next
    exact .bind (v := []) reads_eatModifier .pure fun _ hF => hF
  · refine .bind (u := [.name "set"]) (F := fun next => next.any (isOneOf keyEnds) = false) ?_ h
      fun next _ => hStarts next
    refine .look (looks_eatModifier.mono fun _ _ => rfl) ?_ fun _ h => h
    exact .bind (v := []) reads_eatModifier .pure fun _ hF => hF

/-- A member of an object literal that is a function. -/
theorem reads_methodProperty {kind : PropertyKind} (hKey : ReadsKey g ws key computed)
    (hParams : Reads g.parameters (Node.wrapped ps) params fun _ => True)
    (hBody : Reads (g.block false) vs body fun _ => True) :
    ReadsItem g.property .closeBrace
      (Node.propertyWords kind ++ (ws ++ (Node.wrapped ps ++ vs)))
      (.property key (.function .expression none params body) kind computed false (kind = .init)) := by
  have hStarts := (IsKind.of_property kind).starts hKey (Node.wrapped ps ++ vs)
  refine .of_starts (F := fun _ => True) ?_ trivial trivial rfl hStarts
  refine .bind (u := []) reads_eat_not ?_ fun next _ => not_sign rfl hStarts next
  refine reads_memberKind (.of_property kind) hKey (fun _ _ => rfl) ?_
  refine hKey.reads.bind ?_ fun _ _ => trivial
  refine .look (looks_sees (b := true)) ?_ fun _ _ => rfl
  exact (reads_functionRest hParams hBody).done

/-- A member of an object literal with a value. -/
theorem reads_property (hKey : ReadsKey g ws key computed)
    (hValue : Reads (g.assignment false) vs value (EndsExpression false)) :
    ReadsItem g.property .closeBrace (ws ++ .punct .colon :: vs)
      (.property key value .init computed false false) := by
  have hStarts : (ws ++ .punct .colon :: vs).head?.any startsKey = true :=
    head?_append hKey.starts
  refine .of_starts (F := EndsExpression false) ?_ rfl rfl rfl hStarts
  refine .bind (u := []) reads_eat_not ?_ fun next _ => not_sign rfl hStarts next
  refine reads_memberKind (u := []) (.inl ⟨rfl, rfl⟩) hKey (fun _ _ => rfl) ?_
  refine hKey.reads.bind ?_ fun _ _ => trivial
  refine .look (looks_sees (b := false)) ?_ fun _ _ => rfl
  refine .bind (u := [.punct .colon]) (F := fun _ => True) reads_eat hValue.done fun _ _ => trivial

/-- A member of an object literal whose value is the variable of the same name. -/
theorem reads_shorthand {text : String} : ReadsItem g.property .closeBrace [.name text]
    (.property (.ident text) (.ident text) .init false true false) := by
  refine ⟨?_, rfl, nofun⟩
  refine .bind (u := []) reads_eat_not ?_ fun _ _ => rfl
  have hKey : ReadsKey g [.name text] (.ident text) false := .name
  refine reads_memberKind (u := []) (v := []) (.inl ⟨rfl, rfl⟩) hKey ?_ ?_
  · rintro next (rfl | rfl) <;> rfl
  · refine hKey.reads.bind ?_ fun _ _ => trivial
    refine .look (looks_sees (b := false)) ?_ ?_
    · refine .bind (u := []) (v := []) reads_eat_not ?_ ?_
      · refine .look (looks_sees (b := false)) .pure ?_
        rintro next (rfl | rfl) <;> rfl
      · rintro next (rfl | rfl) <;> rfl
    · rintro next (rfl | rfl) <;> rfl

/-- A member of an object literal that is spread. -/
theorem reads_spreadProperty (h : Reads (g.assignment false) ws e (EndsExpression false)) :
    ReadsItem g.property .closeBrace (.punct .ellipsis :: ws) (.spread e) := by
  refine ⟨?_, rfl, nofun⟩
  refine .bind (u := [.punct .ellipsis]) (F := fun _ => True) reads_eat ?_ fun _ _ => trivial
  refine h.done.mono ?_
  rintro next (rfl | rfl) <;> rfl

/-- An object literal. -/
theorem reads_object {wss : List (List Lexeme)}
    (h : List.Forall₂ (ReadsItem g.property .closeBrace) wss ns) :
    Reads g.object (Node.bracketed .openBrace .closeBrace (commas wss)) (.object ns)
      fun _ => True :=
  .bind (u := [.punct .openBrace]) (F := fun _ => True) reads_expect
    (reads_listed (by decide) h).done fun _ _ => trivial

/-- The kind of a class member as the words in front of it tell, before its name is looked at. -/
theorem IsKind.of_method {kind : MethodKind} {isStatic : Bool}
    (hKind : kind = .get ∨ kind = .set ∨ kind =
      if key.ident? = some "constructor" && !isStatic then .constructor else .method) :
    ∃ kind', IsKind .get .set .method (Node.methodWords kind) kind' ∧
      (if key.ident? = some "constructor" && !isStatic && kind' = .method then .constructor
        else kind') = kind := by
  rcases hKind with rfl | rfl | rfl
  · exact ⟨.get, .inr (.inl ⟨rfl, rfl⟩), by simp⟩
  · exact ⟨.set, .inr (.inr ⟨rfl, rfl⟩), by simp⟩
  · refine ⟨.method, .inl ⟨?_, rfl⟩, by simp⟩
    split <;> rfl

theorem starts_method {kind : MethodKind} {isStatic : Bool} (hKey : ReadsKey g ws key computed)
    (hKind : kind = .get ∨ kind = .set ∨ kind =
      if key.ident? = some "constructor" && !isStatic then .constructor else .method) :
    ((if isStatic then [Lexeme.name "static"] else []) ++
      (Node.methodWords kind ++ (ws ++ vs))).head?.any startsKey = true := by
  obtain ⟨kind', hWords, -⟩ := IsKind.of_method hKind
  cases isStatic with
  | true => rfl
  | false => exact hWords.starts hKey vs

/-- A member of a class, after the word `static`. -/
def methodRest (g : Grammar) (isStatic : Bool) : Parser Node := do
  let kind : MethodKind ← memberKind .get .set .method
  if ← sees (.binary .mul) then unsupported .generators
  let (key, _) ← g.memberKey
  unless ← sees .openParen do unsupported .classFields
  let kind :=
    if key.ident? = some "constructor" && !isStatic && kind = .method then .constructor else kind
  let value ← g.functionRest .expression none
  return .method key value kind isStatic

theorem method_eq : g.method = (do g.methodRest (← eatModifier "static")) := rfl

/-- A member of a class. -/
theorem reads_method {kind : MethodKind} {isStatic : Bool} (hKey : ReadsKey g ws key computed)
    (hKind : kind = .get ∨ kind = .set ∨ kind =
      if key.ident? = some "constructor" && !isStatic then .constructor else .method)
    (hParams : Reads g.parameters (Node.wrapped ps) params fun _ => True)
    (hBody : Reads (g.block false) vs body fun _ => True) :
    Reads g.method ((if isStatic then [Lexeme.name "static"] else []) ++
        (Node.methodWords kind ++ (ws ++ (Node.wrapped ps ++ vs))))
      (.method key (.function .expression none params body) kind isStatic) fun _ => True := by
  obtain ⟨kind', hWords, hKind'⟩ := IsKind.of_method hKind
  have hStarts := hWords.starts hKey (Node.wrapped ps ++ vs)
  have hRest : Reads (g.methodRest isStatic)
      (Node.methodWords kind ++ (ws ++ (Node.wrapped ps ++ vs)))
      (.method key (.function .expression none params body) kind isStatic) fun _ => True := by
    refine reads_memberKind hWords hKey (fun _ _ => rfl) ?_
    refine .look (looks_sees (b := false)) ?_ fun next _ =>
      not_sign rfl (head?_append hKey.starts) next
    refine hKey.reads.bind ?_ fun _ _ => trivial
    refine .look (looks_sees (b := true)) ?_ fun _ _ => rfl
    have hFunction : Reads (g.functionRest .expression none) (Node.wrapped ps ++ vs)
        (.function .expression none params body) fun _ => True := reads_functionRest hParams hBody
    simp only [hKind']
    exact hFunction.done
  rw [method_eq]
  cases isStatic with
  | true =>
      refine .bind (u := [.name "static"]) reads_eatModifier hRest fun next _ => ?_
      exact not_oneOf (by decide) hStarts next
  | false =>
      refine .look (F := fun _ => True) ?_ hRest fun _ h => h
      rcases hWords with ⟨hNil, -⟩ | ⟨hGet, -⟩ | ⟨hSet, -⟩
      · rw [hNil]
        exact hKey.looks_eatModifier.mono fun _ _ => rfl
      · rw [hGet]
        exact looks_eatModifier.mono fun _ _ => rfl
      · rw [hSet]
        exact looks_eatModifier.mono fun _ _ => rfl

/-- The members of a class, of which a node is made. -/
def classBody (g : Grammar) (make : List Node → Node) : Parser Node := do
  expect .openBrace
  let members ← enclosed .closeBrace do
    if ← eat .semicolon then return [] else return [← g.method]
  return make members

theorem classDef_eq (expression : Bool) : g.classDef expression = (do
    unless ← eatName "class" do expected "class"
    let named := (← seesWord) && !(← seesName "extends")
    let id ←
      if named then some <$> identifier
      else if expression then pure none
      else expected "a class name"
    g.classRest expression id) := rfl

/-- The members of a class are read up to its brace. -/
theorem reads_classBody {make : List Node → Node} (h : ∀ n ∈ ns, Reads g.method n.words n fun _ => True)
    (hStarts : ∀ n ∈ ns, n.words.head?.any startsKey = true) :
    Reads (g.classBody make) (Node.bracketed .openBrace .closeBrace (ns.map Node.words).flatten)
      (make ns) fun _ => True := by
  refine .bind (u := [.punct .openBrace]) (F := fun _ => True) reads_expect ?_ fun _ _ => trivial
  refine (reads_each (G := fun _ _ => True) (fun n hn => ?_) hStarts rfl fun _ _ _ _ => trivial).done
  exact .bind (u := []) reads_eat_not (h n hn).done fun next _ => not_sign rfl (hStarts n hn) next

def classWords (superclass : Option Node) (members : List Node) : List Lexeme :=
  (superclass.elim [] fun n => .name "extends" :: n.operandWords n.words) ++
    Node.bracketed .openBrace .closeBrace (members.map Node.words).flatten

/-- A class is read from its superclass and its members. -/
theorem reads_classRest {id : Option String} {expression : Bool} {superclass : Option Node}
    (hSuperclass : ∀ n ∈ superclass, Reads g.call (n.operandWords n.words) n EndsOperand)
    (h : ∀ n ∈ ns, Reads g.method n.words n fun _ => True)
    (hStarts : ∀ n ∈ ns, n.words.head?.any startsKey = true) :
    Reads (g.classRest expression id) (classWords superclass ns)
      (.classDef (id.map .ident) superclass ns expression) fun _ => True := by
  cases superclass with
  | none => exact .bind (u := []) reads_eatName_not (.bind (u := []) (F := fun _ => True) .pure
      (reads_classBody h hStarts) fun _ _ => trivial) fun _ _ => rfl
  | some n =>
      refine .bind (u := [.name "extends"]) (F := fun _ => True) reads_eatName ?_ fun _ _ => trivial
      exact (hSuperclass n rfl).map.bind (reads_classBody h hStarts) fun _ _ => rfl

/-- A class with its keyword. -/
theorem reads_classDef {id : Option String} {expression : Bool} {superclass : Option Node}
    (hId : ∀ name ∈ id, keywords.contains name = false) (hNamed : expression = false → id.isSome)
    (hSuperclass : ∀ n ∈ superclass, Reads g.call (n.operandWords n.words) n EndsOperand)
    (h : ∀ n ∈ ns, Reads g.method n.words n fun _ => True)
    (hStarts : ∀ n ∈ ns, n.words.head?.any startsKey = true) :
    Reads (g.classDef expression)
      (.name "class" :: (id.toList.map Lexeme.name ++ classWords superclass ns))
      (.classDef (id.map .ident) superclass ns expression) fun _ => True := by
  have hRest : Reads (g.classRest expression id) (classWords superclass ns)
      (.classDef (id.map .ident) superclass ns expression) fun _ => True :=
    reads_classRest hSuperclass h hStarts
  rw [classDef_eq]
  refine .bind (u := [.name "class"]) (F := fun _ => True) reads_eatName ?_ fun _ _ => trivial
  cases id with
  | none =>
      have hExpression : expression = true := by
        cases expression
        · exact absurd (hNamed rfl) nofun
        · rfl
      subst hExpression
      cases superclass with
      | none =>
          refine .look (looks_seesWord (b := false)) ?_ fun _ _ => rfl
          refine .look (looks_seesName (b := false)) ?_ fun _ _ => rfl
          exact .bind (u := []) (F := fun _ => True) .pure hRest fun _ _ => trivial
      | some n =>
          refine .look (looks_seesWord (b := true)) ?_ fun _ _ => rfl
          refine .look (looks_seesName (b := true)) ?_ fun _ _ => rfl
          exact .bind (u := []) (F := fun _ => True) .pure hRest fun _ _ => trivial
  | some name =>
      have hExtends : name ≠ "extends" := by
        rintro rfl
        exact absurd (hId _ rfl) (by decide)
      refine .look (looks_seesWord (b := true)) ?_ fun _ _ => rfl
      refine .look (looks_seesName (b := false)) ?_ fun _ _ => beq_eq_false_iff_ne.2 hExtends
      exact .bind (u := [.name name]) (F := fun _ => True) (reads_identifier (hId name rfl)).map hRest
        fun _ _ => trivial

/-- An arrow function, whose body is a block or an expression. -/
theorem reads_arrow {b : Bool} {G : Option Lexeme → Prop} (hNested : Nested ps)
    (hParams : Reads g.parameters (Node.wrapped ps) params fun _ => True)
    (hBrace : ∀ next : Option Lexeme, (vs.head?.or next).any (isSign .openBrace) = b)
    (hBody : Reads (if b then g.block noIn else g.assignment false) vs body G) :
    Reads (g.assignmentRule noIn) (Node.wrapped ps ++ .punct .arrow :: vs)
      (.function .arrow none params body) G := by
  have hArrow := (looks_seesArrow hNested (b := true)).append (v := .punct .arrow :: vs) (G := G)
    fun _ _ => rfl
  refine .look hArrow ?_ fun _ h => h
  simp only [if_true]
  refine .look (looks_sees (b := true)) ?_ fun _ _ => rfl
  refine hParams.bind ?_ fun _ _ => trivial
  refine .bind (u := [.punct .arrow]) (F := fun _ => True) reads_expect ?_ fun _ _ => trivial
  refine .look (looks_sees (b := b)) ?_ fun next _ => hBrace next
  cases b with
  | true => exact hBody.done
  | false => exact hBody.done

end Grammar

end CodeShape
