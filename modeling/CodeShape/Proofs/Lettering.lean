import CodeShape.Proofs.Formation
import CodeShape.Proofs.Scanning
import CodeShape.Proofs.Wording

/-! The text of a tree spells the words of the tree. -/
namespace CodeShape

open Unread

namespace Unread

/-- Neither a name nor a number goes on with the character. -/
def endsBefore (c : Char) : Bool := !isNamePart c && c != '.' && c != '+' && c != '-'

/-- A text that starts so that no number goes on ends a number, whatever comes after it. -/
theorem endsNumber_append {t rest : List Char} (ht : t.head?.any endsBefore = true) :
    EndsNumber (t ++ rest) := by
  intro d hd
  cases t with
  | nil => cases ht
  | cons e t =>
      cases hd
      simpa [endsBefore, and_assoc] using ht

/-- A text that starts with no part of a name ends a name, whatever comes after it. -/
theorem endsName_append {t rest : List Char} (ht : t.head?.any (!isNamePart ·) = true) :
    EndsName (t ++ rest) := by
  intro d hd
  cases t with
  | nil => cases ht
  | cons e t =>
      cases hd
      simpa using ht

/-- A space ends every sign. -/
theorem endsSign_space (p : Punct) (hp : p ∈ Punct.all) (rest : List Char) :
    EndsSign p (' ' :: rest) := by
  obtain ⟨c, cs, hCons, -⟩ := exists_cons_of_sign hp
  intro d hd
  cases hd
  refine ⟨Punct.goesOn_eq_false (by rw [hCons]; nofun) (by decide), fun _ => by decide, fun _ => ?_⟩
  decide

namespace Spells

variable {s t : List Char} {us vs : List Lexeme} {C D : List Char → Prop}

/-- A text that anything may follow, and one after it. -/
theorem followed (hs : Spells s us fun _ => True) (ht : Spells t vs D) :
    Spells (s ++ t) (us ++ vs) D :=
  hs.append ht fun _ _ => trivial

/-- A text that may end with a number, and one after it. -/
theorem ended (hs : Spells s us EndsNumber) (ht : Spells t vs D)
    (hHead : t.head?.any endsBefore = true) : Spells (s ++ t) (us ++ vs) D :=
  hs.append ht fun _ _ => endsNumber_append hHead

/-- After a space anything may follow. -/
theorem thenSpace (h : Spells s us C) (hC : ∀ rest, C (' ' :: rest)) :
    Spells (s ++ [' ']) us fun _ => True := by
  simpa using @append _ _ _ [] _ _ h (space (C := fun _ => True)) fun rest _ => hC rest

/-- A space before a text spells nothing. -/
theorem afterSpace (h : Spells s us C) : Spells (' ' :: s) us C := by
  simpa using @followed _ _ [] _ _ space h

/-- A separator ends itself: no other sign goes on with it. -/
theorem separator {p : Punct} (hp : p ∈ Punct.separators) (hOpen : p ≠ .openBrace)
    (hClose : p ≠ .closeBrace) : Spells p.text.toList [.punct p] fun _ => True :=
  (sign ((by decide : ∀ q ∈ Punct.separators, q ∈ Punct.all) p hp) hOpen hClose).mono fun rest _ =>
    endsSign_of_separator hp rest

/-- A sign and a space. -/
theorem signSpace {p : Punct} (hp : p ∈ Punct.all) (hOpen : p ≠ .openBrace)
    (hClose : p ≠ .closeBrace) : Spells (p.text.toList ++ [' ']) [.punct p] fun _ => True :=
  (sign hp hOpen hClose).thenSpace (endsSign_space p hp)

/-- A name and a space. -/
theorem nameSpace {text : String} (h : IsName text) :
    Spells (text.toList ++ [' ']) [.name text] fun _ => True :=
  (name h).thenSpace fun _ => endsName_append (t := [' ']) (by decide)

theorem semicolon : Spells [';'] [.punct .semicolon] fun _ => True :=
  separator (p := .semicolon) (by decide) nofun nofun

theorem comma : Spells [','] [.punct .comma] fun _ => True :=
  separator (p := .comma) (by decide) nofun nofun

theorem openParen : Spells ['('] [.punct .openParen] fun _ => True :=
  separator (p := .openParen) (by decide) nofun nofun

theorem closeParen : Spells [')'] [.punct .closeParen] fun _ => True :=
  separator (p := .closeParen) (by decide) nofun nofun

/-- A text in parentheses, after which anything may follow. -/
theorem wrapped {text : String} (h : Spells text.toList us EndsNumber) :
    Spells (Node.parenthesised text).toList (Node.wrapped us) fun _ => True := by
  simpa [Node.parenthesised, Node.wrapped, Node.bracketed] using
    (openParen.followed h).ended closeParen (by decide)

/-- A text in square brackets, after which anything may follow. -/
theorem bracketed (h : Spells s us EndsNumber) :
    Spells ('[' :: s ++ [']']) (Node.bracketed .openBracket .closeBracket us) fun _ => True := by
  have hOpen : Spells ['['] [.punct .openBracket] fun _ => True :=
    separator (p := .openBracket) (by decide) nofun nofun
  have hClose : Spells [']'] [.punct .closeBracket] fun _ => True :=
    separator (p := .closeBracket) (by decide) nofun nofun
  simpa [Node.bracketed] using (hOpen.followed h).ended hClose (by decide)

/-- A text in braces, after which anything may follow. -/
theorem braced {text : String} (h : Spells text.toList us EndsNumber) :
    Spells (Node.braced text).toList (Node.bracketed .openBrace .closeBrace us) fun _ => True := by
  simpa [Node.braced, Node.bracketed] using
    h.braces fun _ => endsNumber_append (t := ['\x7d']) (by decide)

end Spells

end Unread

namespace Node

/-- Operands whose texts do not end with a number. -/
def isSolid : Node → Bool
  | call _ _ | construct _ _ | member _ _ _ | array _ | template _ _ | ident _ | this
  | classDef _ _ _ _ | update _ _ _ => true
  | _ => false

/-- What may follow the text of a node. -/
def EndsAt (n : Node) (rest : List Char) : Prop :=
  if n.isSolid then EndsName rest else EndsNumber rest

/-- What ends a number ends any node, a solid one too. -/
theorem endsAt_of_endsNumber {n : Node} {rest : List Char} (h : EndsNumber rest) :
    n.EndsAt rest := by
  unfold EndsAt
  split
  · exact h.endsName
  · exact h

/-- The text of a node spells its words. -/
def Lettered (n : Node) : Prop := Spells n.bare.toList n.words n.EndsAt

namespace Lettered

variable {n : Node}

/-- A lettered node is spelled where a number would end. -/
theorem spells (h : n.Lettered) : Spells n.bare.toList n.words EndsNumber :=
  h.mono fun _ => endsAt_of_endsNumber

/-- A node that is not solid may end with a number. -/
theorem of_endsNumber (h : Spells n.bare.toList n.words EndsNumber) (hn : n.isSolid = false) :
    n.Lettered :=
  h.mono fun rest hRest => by rwa [EndsAt, hn, if_neg Bool.false_ne_true] at hRest

/-- A node that ends with a name is lettered, solid or not. -/
theorem of_endsName (h : Spells n.bare.toList n.words EndsName) : n.Lettered :=
  h.mono fun rest hRest => by
    unfold EndsAt at hRest
    split at hRest
    · exact hRest
    · exact hRest.endsName

/-- A node that closes itself is lettered. -/
theorem of_closed (h : Spells n.bare.toList n.words fun _ => True) : n.Lettered :=
  h.mono fun _ _ => trivial

/-- A solid node is spelled where a name would end, so a dot may follow it. -/
theorem solid (h : n.Lettered) (hSolid : n.isSolid = true) :
    Spells n.bare.toList n.words EndsName :=
  h.mono fun _ hRest => by rwa [EndsAt, if_pos hSolid]

theorem wrapped (h : n.Lettered) :
    Spells (parenthesised n.bare).toList (wrapped n.words) fun _ => True :=
  h.spells.wrapped

/-- An operand is spelled with the parentheses that it is printed in. -/
theorem operand (h : n.Lettered) (hn : n.isDeclaration = false) :
    Spells (n.operand n.bare).toList (n.operandWords n.words) EndsNumber := by
  unfold Node.operand operandWords whole
  rw [hn]
  split
  · exact h.wrapped.mono fun _ _ => trivial
  · exact h.spells

/-- An item of a list is spelled with the parentheses that it is printed in. -/
theorem item (h : n.Lettered) (hn : n.isDeclaration = false) :
    Spells (n.item n.bare).toList (n.itemWords n.words) EndsNumber := by
  unfold Node.item itemWords whole
  rw [hn]
  split
  · exact h.wrapped.mono fun _ _ => trivial
  · exact h.spells

/-- A statement is spelled with the semicolon that it is printed with. -/
theorem statement (h : n.Lettered) (hn : n.isWildcard = false) :
    Spells (n.statement n.bare).toList (n.statementWords n.words) EndsNumber := by
  unfold Node.statement statementWords whole
  rw [hn]
  split
  · contradiction
  · split
    · rw [String.toList_append]
      exact (h.spells.ended .semicolon (by decide)).mono fun _ _ => trivial
    · exact h.spells

end Lettered

theorem bareAll_eq_map (ns : List Node) : bareAll ns = ns.map bare := by
  induction ns with
  | nil => rfl
  | cons n ns ih => exact congrArg (n.bare :: ·) ih

/-- Only a declaration is printed otherwise where it stands alone. -/
theorem whole_eq {n : Node} {s : String} (hd : n.isDeclaration = false) : n.whole s = s := by
  rw [whole, hd, if_neg Bool.false_ne_true]

theorem map_whole {ns : List Node} (hd : ∀ n ∈ ns, n.isDeclaration = false) :
    ns.map (fun n => n.whole n.bare) = ns.map bare :=
  List.map_congr_left fun n hn => whole_eq (hd n hn)

theorem bare_function {form : FunctionForm} (hForm : form ≠ .arrow) (id : Option Node)
    (ns : List Node) (body : Node) :
    (function form id ns body).bare = "function " ++ (id.elim "" fun n => n.whole n.bare) ++
      parenthesised (placed item ", " ns (bareAll ns)) ++ " " ++ body.whole body.bare := by
  cases id <;> cases form <;> first | rfl | contradiction

theorem bare_classDef (id superclass : Option Node) (ns : List Node) (expression : Bool) :
    (classDef id superclass ns expression).bare =
      "class" ++ (id.elim "" fun n => " " ++ n.whole n.bare) ++
        (superclass.elim "" fun n => " extends " ++ n.operand n.bare) ++ " " ++
        braced (" " ++ placed whole " " ns (bareAll ns) ++ " ") := by
  cases id <;> cases superclass <;> rfl

theorem elim_whole {part : Option Node} (hd : ∀ n ∈ part, n.isDeclaration = false)
    (text : String → String) :
    (part.elim "" fun n => text (n.whole n.bare)) = part.elim "" fun n => text n.bare := by
  cases part with
  | none => rfl
  | some n => exact congrArg text (whole_eq (hd n rfl))

/-- Texts put together with commas spell their words with commas between them. -/
theorem spells_commas {ns : List Node} {text : Node → String} {ws : Node → List Lexeme}
    (h : ∀ n ∈ ns, Spells (text n).toList (ws n) EndsNumber) :
    Spells (", ".intercalate (ns.map text)).toList (Parser.commas (ns.map ws)) EndsNumber := by
  induction ns with
  | nil => exact .nil
  | cons n ns ih =>
      cases ns with
      | nil => simpa using h n List.mem_cons_self
      | cons n' ns =>
          have hComma : Spells [',', ' '] [.punct .comma] fun _ => True :=
            Spells.comma.thenSpace fun _ => trivial
          have hFirst := (h n List.mem_cons_self).ended hComma (by decide)
          have hRest := ih fun m hm => h m (List.mem_cons_of_mem _ hm)
          simpa using hFirst.followed hRest

/-- Texts put together with spaces spell their words one after the other. -/
theorem spells_spaced {ns : List Node} {text : Node → String} {ws : Node → List Lexeme}
    (h : ∀ n ∈ ns, Spells (text n).toList (ws n) EndsNumber) :
    Spells (" ".intercalate (ns.map text)).toList (ns.map ws).flatten EndsNumber := by
  induction ns with
  | nil => exact .nil
  | cons n ns ih =>
      cases ns with
      | nil => simpa using h n List.mem_cons_self
      | cons n' ns =>
          have hFirst := (h n List.mem_cons_self).thenSpace fun _ =>
            endsNumber_append (t := [' ']) (by decide)
          have hRest := ih fun m hm => h m (List.mem_cons_of_mem _ hm)
          simpa using hFirst.followed hRest

end Node

namespace Node.Lettered

variable {n e test body consequent other left right key value : Node}
variable {ns : List Node}

/-- An expression statement is its expression and a semicolon. -/
theorem expr (h : e.Lettered) (he : e.isDeclaration = false) : (Node.expr e).Lettered := by
  refine .of_closed ?_
  have hText : Spells (if e.opensStatement then parenthesised e.bare else e.bare).toList
      (if e.opensStatement then Node.wrapped e.words else e.words) EndsNumber := by
    split
    · exact h.wrapped.mono fun _ _ => trivial
    · exact h.spells
  change Spells ((if e.opensStatement then parenthesised (e.whole e.bare) else e.whole e.bare) ++
    ";").toList _ _
  rw [whole_eq he, String.toList_append]
  exact hText.ended .semicolon (by decide)

theorem empty : Node.empty.Lettered := .of_closed .semicolon

/-- A statement after something and a space. -/
theorem headed {s : List Char} {us : List Lexeme} (hHead : Spells s us fun _ => True)
    (hBody : Spells (body.statement body.bare).toList (body.statementWords body.words) EndsNumber) :
    Spells (s ++ ' ' :: (body.statement body.bare).toList)
      (us ++ body.statementWords body.words) EndsNumber :=
  hHead.followed hBody.afterSpace

/-- An `if` without an `else` ends with its branch. -/
theorem ifElse_none (hTest : test.Lettered) (ht : test.isDeclaration = false)
    (hConsequent : consequent.Lettered) (hc : consequent.isWildcard = false) :
    (Node.ifElse test consequent none).Lettered := by
  refine .of_endsNumber ?_ rfl
  change Spells ("if (" ++ test.whole test.bare ++ ") " ++ consequent.statement consequent.bare ++
    "").toList (.name "if" :: Node.wrapped test.words ++
      consequent.statementWords consequent.words ++ []) _
  simpa [whole_eq ht, parenthesised] using headed
    ((Spells.nameSpace (show IsName "if" by decide)).followed hTest.wrapped) (hConsequent.statement hc)

/-- The word `else` stands between spaces, so that it ends the first branch. -/
theorem ifElse_some (hTest : test.Lettered) (ht : test.isDeclaration = false)
    (hConsequent : consequent.Lettered) (hc : consequent.isWildcard = false)
    (hOther : other.Lettered) (ho : other.isWildcard = false) :
    (Node.ifElse test consequent (some other)).Lettered := by
  refine .of_endsNumber ?_ rfl
  have hIf := headed ((Spells.nameSpace (show IsName "if" by decide)).followed hTest.wrapped)
    (hConsequent.statement hc)
  have hElse := ((Spells.nameSpace (show IsName "else" by decide)).followed
    (hOther.statement ho)).afterSpace
  change Spells ("if (" ++ test.whole test.bare ++ ") " ++ consequent.statement consequent.bare ++
    (" else " ++ other.statement other.bare)).toList (.name "if" :: Node.wrapped test.words ++
      consequent.statementWords consequent.words ++
      .name "else" :: other.statementWords other.words) _
  simpa [whole_eq ht, parenthesised] using hIf.ended hElse rfl

theorem whileLoop (hTest : test.Lettered) (ht : test.isDeclaration = false) (hBody : body.Lettered)
    (hb : body.isWildcard = false) : (Node.whileLoop test body).Lettered := by
  refine .of_endsNumber ?_ rfl
  change Spells ("while (" ++ test.whole test.bare ++ ") " ++ body.statement body.bare).toList
    (.name "while" :: Node.wrapped test.words ++ body.statementWords body.words) _
  simpa [whole_eq ht, parenthesised] using headed
    ((Spells.nameSpace (show IsName "while" by decide)).followed hTest.wrapped) (hBody.statement hb)

/-- The word `while` after the body of a `do` stands between spaces. -/
theorem doWhile (hBody : body.Lettered) (hb : body.isWildcard = false) (hTest : test.Lettered)
    (ht : test.isDeclaration = false) : (Node.doWhile body test).Lettered := by
  refine .of_closed ?_
  have hDo := (Spells.nameSpace (show IsName "do" by decide)).followed (hBody.statement hb)
  have hWhile := (((Spells.nameSpace (show IsName "while" by decide)).followed hTest.wrapped).followed
    .semicolon).afterSpace
  change Spells ("do " ++ body.statement body.bare ++ " while (" ++ test.whole test.bare ++
    ");").toList (.name "do" :: body.statementWords body.words ++
      .name "while" :: Node.wrapped test.words ++ [Lexeme.punct .semicolon]) _
  simpa [whole_eq ht, parenthesised] using hDo.ended hWhile rfl

/-- A keyword, an expression and a semicolon. -/
theorem clause {text : String} (hText : IsName text) (h : e.Lettered) :
    Spells (text.toList ++ ' ' :: (e.bare.toList ++ [';']))
      (.name text :: e.words ++ [.punct .semicolon]) fun _ => True := by
  simpa using (Spells.nameSpace hText).followed (h.spells.ended .semicolon (by decide))

/-- A statement that is one word. -/
theorem bareword {text : String} (hText : IsName text) :
    Spells (text.toList ++ [';']) [.name text, .punct .semicolon] fun _ => True := by
  simpa using (Spells.name hText).append .semicolon fun _ _ => endsName_append (by decide)

theorem returns_none : (Node.returns none).Lettered :=
  .of_closed (bareword (show IsName "return" by decide))

theorem returns_some (h : e.Lettered) (he : e.isDeclaration = false) :
    (Node.returns (some e)).Lettered := by
  refine .of_closed ?_
  change Spells ("return " ++ e.whole e.bare ++ ";").toList
    (.name "return" :: e.words ++ [Lexeme.punct .semicolon]) _
  simpa [whole_eq he] using clause (show IsName "return" by decide) h

theorem throws (h : e.Lettered) (he : e.isDeclaration = false) : (Node.throws e).Lettered := by
  refine .of_closed ?_
  change Spells ("throw " ++ e.whole e.bare ++ ";").toList
    (.name "throw" :: e.words ++ [Lexeme.punct .semicolon]) _
  simpa [whole_eq he] using clause (show IsName "throw" by decide) h

theorem breaks : Node.breaks.Lettered := .of_closed (bareword (show IsName "break" by decide))

theorem continues : Node.continues.Lettered :=
  .of_closed (bareword (show IsName "continue" by decide))

/-- Elements with commas between them. -/
theorem list (h : ∀ n ∈ ns, n.Lettered) (hd : ∀ n ∈ ns, n.isDeclaration = false) :
    Spells (placed Node.item ", " ns (bareAll ns)).toList (listWords ns (wordsAll ns))
      EndsNumber := by
  simpa [placed, listWords, bareAll_eq_map, wordsAll_eq_map, zipWith_map_self] using
    spells_commas fun n hn => (h n hn).item (hd n hn)

/-- Nodes with commas between them. -/
theorem wholes (h : ∀ n ∈ ns, n.Lettered) (hd : ∀ n ∈ ns, n.isDeclaration = false) :
    Spells (placed whole ", " ns (bareAll ns)).toList (Parser.commas (wordsAll ns)) EndsNumber := by
  simpa [placed, bareAll_eq_map, wordsAll_eq_map, zipWith_map_self, map_whole hd] using
    spells_commas fun n hn => (h n hn).spells

/-- Statements with spaces between them. -/
theorem statements (h : ∀ n ∈ ns, n.Lettered) (hw : ∀ n ∈ ns, n.isWildcard = false) :
    Spells (placed Node.statement " " ns (bareAll ns)).toList (bodyWords ns (wordsAll ns))
      EndsNumber := by
  simpa [placed, bodyWords, bareAll_eq_map, wordsAll_eq_map, zipWith_map_self] using
    spells_spaced fun n hn => (h n hn).statement (hw n hn)

/-- Words between braces, with spaces inside. -/
theorem roomy {text : String} {us : List Lexeme} (h : Spells text.toList us EndsNumber) :
    Spells (braced (" " ++ text ++ " ")).toList (bracketed .openBrace .closeBrace us)
      fun _ => True := by
  refine Spells.braced ?_
  simpa using (h.thenSpace fun _ => endsNumber_append (t := [' ']) (by decide)).afterSpace.mono
    fun _ _ => trivial

/-- The statements of a block are spelled one after the other. -/
theorem block (h : ∀ n ∈ ns, n.Lettered) (hw : ∀ n ∈ ns, n.isWildcard = false) :
    (Node.block ns).Lettered := by
  refine .of_closed ?_
  change Spells (if ns.isEmpty then Node.braced ""
    else Node.braced (" " ++ placed Node.statement " " ns (bareAll ns) ++ " ")).toList
    (bracketed .openBrace .closeBrace (bodyWords ns (wordsAll ns))) _
  split
  · next hEmpty =>
      rw [List.isEmpty_iff] at hEmpty
      subst hEmpty
      exact Spells.braced .nil
  · exact roomy (statements h hw)

/-- An operation with spaces around its sign. -/
theorem infixed {s t o : List Char} {us vs : List Lexeme} {w : Lexeme} {D : List Char → Prop}
    (hs : Spells s us EndsNumber) (hw : Spells (o ++ [' ']) [w] fun _ => True)
    (ht : Spells t vs D) : Spells (s ++ ' ' :: (o ++ ' ' :: t)) (us ++ w :: vs) D := by
  simpa using hs.ended (hw.followed ht).afterSpace rfl

/-- Every sign of assignment is spelled before a space. -/
theorem assignSign (op : AssignOp) :
    Spells (op.text.toList ++ [' ']) [.punct (.assign op)] fun _ => True :=
  Spells.signSpace (p := .assign op) (by cases op <;> decide) nofun nofun

/-- Every binary operator, a word or a sign, is spelled before a space. -/
theorem binarySign (op : BinaryOp) :
    Spells (op.text.toList ++ [' ']) [op.word] fun _ => True := by
  cases op with
  | isIn => exact Spells.nameSpace (show IsName "in" by decide)
  | instanceOf => exact Spells.nameSpace (show IsName "instanceof" by decide)
  | _ => exact Spells.signSpace (p := .binary _) (by decide) nofun nofun

/-- Every logical operator is spelled before a space. -/
theorem logicalSign (op : LogicalOp) :
    Spells (op.text.toList ++ [' ']) [.punct (.logical op)] fun _ => True :=
  Spells.signSpace (p := .logical op) (by cases op <;> decide) nofun nofun

/-- No sign goes on with `++` or `--`. -/
theorem updateSign (op : UpdateOp) :
    Spells op.text.toList [.punct (.update op)] fun _ => True :=
  Spells.separator (p := .update op) (by cases op <;> decide) nofun nofun

/-- A part of a loop head, which may be left out. -/
theorem optional {part : Option Node} (h : ∀ n ∈ part, n.Lettered) :
    Spells (part.elim "" bare).toList (part.elim [] words) EndsNumber := by
  cases part with
  | none => exact .nil
  | some n => exact (h n rfl).spells

/-- The parts of the head of a `for` loop stand between semicolons, a declaration among them printed
without its own. -/
theorem forLoop {init test step : Option Node} (hInit : ∀ n ∈ init, n.Lettered)
    (hTest : ∀ n ∈ test, n.Lettered) (ht : ∀ n ∈ test, n.isDeclaration = false)
    (hStep : ∀ n ∈ step, n.Lettered) (hs : ∀ n ∈ step, n.isDeclaration = false)
    (hBody : body.Lettered) (hb : body.isWildcard = false) :
    (Node.forLoop init test step body).Lettered := by
  refine .of_endsNumber ?_ rfl
  have hSemicolon : Spells [';', ' '] [.punct .semicolon] fun _ => True :=
    Spells.semicolon.thenSpace fun _ => trivial
  have hHead := ((Spells.nameSpace (show IsName "for" by decide)).followed .openParen).followed
    (((optional hInit).ended hSemicolon rfl).followed
      (((optional hTest).ended hSemicolon rfl).followed ((optional hStep).ended .closeParen rfl)))
  have hText : (Node.forLoop init test step body).bare = "for (" ++ init.elim "" bare ++ "; " ++
      test.elim "" bare ++ "; " ++ step.elim "" bare ++ ") " ++ body.statement body.bare := by
    rw [← elim_whole ht fun s => s, ← elim_whole hs fun s => s]
    cases init <;> cases test <;> cases step <;> rfl
  simpa [hText, words_forLoop] using headed hHead (hBody.statement hb)

/-- The word between the two sides of the head stands between spaces. -/
theorem forEach {overValues : Bool} (hLeft : left.Lettered) (hRight : right.Lettered)
    (hr : right.isDeclaration = false) (hBody : body.Lettered) (hb : body.isWildcard = false) :
    (Node.forEach left right body overValues).Lettered := by
  refine .of_endsNumber ?_ rfl
  have hWord : Spells ((if overValues then "of" else "in").toList ++ [' '])
      [.name (if overValues then "of" else "in")] fun _ => True :=
    Spells.nameSpace (by cases overValues <;> decide)
  have hHead := ((Spells.nameSpace (show IsName "for" by decide)).followed .openParen).followed
    ((infixed hLeft.spells hWord hRight.spells).ended .closeParen rfl)
  have hText : (if overValues then " of " else " in ") =
      " " ++ (if overValues then "of" else "in") ++ " " := by
    cases overValues <;> rfl
  change Spells ("for (" ++ left.bare ++ (if overValues then " of " else " in ") ++
    right.whole right.bare ++ ") " ++ body.statement body.bare).toList
    (.name "for" :: .punct .openParen :: left.words ++
      .name (if overValues then "of" else "in") :: right.words ++
      .punct .closeParen :: body.statementWords body.words) _
  simpa [whole_eq hr, hText] using headed hHead (hBody.statement hb)

/-- The words of a `try` stand between spaces, so that the blocks need no sign after them. -/
theorem tryCatch {param handler finalizer : Option Node} (hBody : body.Lettered)
    (hb : body.isDeclaration = false) (hParam : ∀ n ∈ param, n.Lettered)
    (hp : ∀ n ∈ param, n.isDeclaration = false) (hHandler : ∀ n ∈ handler, n.Lettered)
    (hh : ∀ n ∈ handler, n.isDeclaration = false) (hFinalizer : ∀ n ∈ finalizer, n.Lettered)
    (hf : ∀ n ∈ finalizer, n.isDeclaration = false) :
    (Node.tryCatch body param handler finalizer).Lettered := by
  refine .of_endsNumber ?_ rfl
  have hTry := (Spells.nameSpace (show IsName "try" by decide)).followed hBody.spells
  have hCatch := (Spells.nameSpace (show IsName "catch" by decide)).afterSpace
  have hFinally := (Spells.nameSpace (show IsName "finally" by decide)).afterSpace
  have hEnd : Spells (finalizer.elim "" fun n => " finally " ++ n.bare).toList
      (finalizer.elim [] fun n => .name "finally" :: n.words) EndsNumber := by
    cases finalizer with
    | none => exact .nil
    | some n => simpa using hFinally.followed (hFinalizer n rfl).spells
  have hMiddle : Spells
      (handler.elim "" fun n =>
        " catch " ++ param.elim "" (fun p => parenthesised p.bare ++ " ") ++ n.bare).toList
      (handler.elim [] fun n =>
        .name "catch" :: param.elim [] (fun p => Node.wrapped p.words) ++ n.words)
      EndsNumber := by
    cases handler with
    | none => exact .nil
    | some n =>
        cases param with
        | none => simpa using hCatch.followed (hHandler n rfl).spells
        | some p =>
            have hName := (hParam p rfl).wrapped.thenSpace fun _ => trivial
            simpa using hCatch.followed (hName.followed (hHandler n rfl).spells)
  have hText : (Node.tryCatch body param handler finalizer).bare = "try " ++ body.bare ++
      (handler.elim "" fun n =>
        " catch " ++ param.elim "" (fun p => parenthesised p.bare ++ " ") ++ n.bare) ++
      finalizer.elim "" fun n => " finally " ++ n.bare := by
    rw [← elim_whole hp (parenthesised · ++ " "), ← elim_whole hf (" finally " ++ ·),
      ← whole_eq (s := body.bare) hb]
    cases handler with
    | none => cases finalizer <;> rfl
    | some n =>
        rw [Option.elim_some, ← whole_eq (s := n.bare) (hh n rfl)]
        cases param <;> cases finalizer <;> rfl
  have hAfter := hMiddle.append hEnd fun rest hRest => by
    cases finalizer with
    | none => exact hRest
    | some n => exact endsNumber_append (by simp; decide)
  have hAll := hTry.append hAfter fun rest hRest => by
    cases handler with
    | none =>
        cases finalizer with
        | none => exact hRest
        | some n => exact endsNumber_append (by simp; decide)
    | some n => exact endsNumber_append (by simp; decide)
  simpa [hText, words_tryCatch] using hAll

/-- A declaration is its keyword, a space and the declarators with commas between them. -/
theorem declaration {kind : DeclarationKind} (h : ∀ n ∈ ns, n.Lettered)
    (hd : ∀ n ∈ ns, n.isDeclaration = false) : (Node.declaration kind ns).Lettered := by
  refine .of_endsNumber ?_ rfl
  have hKind := Spells.nameSpace (show IsName kind.text by cases kind <;> decide)
  change Spells (kind.text ++ " " ++ placed Node.item ", " ns (bareAll ns)).toList
    (.name kind.text :: listWords ns (wordsAll ns)) _
  simpa using hKind.followed (list h hd)

theorem declarator_none {id : Node} (h : id.Lettered) (hd : id.isDeclaration = false) :
    (Node.declarator id none).Lettered := by
  refine .of_endsNumber ?_ rfl
  change Spells (id.whole id.bare ++ "").toList (id.words ++ []) _
  simpa [whole_eq hd] using h.spells

/-- The sign of a declarator stands between spaces. -/
theorem declarator_some {id : Node} (h : id.Lettered) (hd : id.isDeclaration = false)
    (hValue : value.Lettered) (hv : value.isDeclaration = false) :
    (Node.declarator id (some value)).Lettered := by
  refine .of_endsNumber ?_ rfl
  change Spells (id.whole id.bare ++ (" = " ++ value.item value.bare)).toList
    (id.words ++ .punct (.assign .plain) :: value.itemWords value.words) _
  simpa [whole_eq hd, AssignOp.text] using infixed h.spells (assignSign .plain) (hValue.item hv)

theorem withDefault (hLeft : left.Lettered) (hl : left.isDeclaration = false)
    (hRight : right.Lettered) (hr : right.isDeclaration = false) :
    (Node.withDefault left right).Lettered := by
  refine .of_endsNumber ?_ rfl
  change Spells (left.whole left.bare ++ " = " ++ right.item right.bare).toList
    (left.words ++ .punct (.assign .plain) :: right.itemWords right.words) _
  simpa [whole_eq hl, AssignOp.text] using infixed hLeft.spells (assignSign .plain) (hRight.item hr)

/-- The parameters and the body of a function. -/
theorem functionRest (hParams : ∀ n ∈ ns, n.Lettered) (hp : ∀ n ∈ ns, n.isDeclaration = false)
    (hBody : body.Lettered) :
    Spells ((parenthesised (placed Node.item ", " ns (bareAll ns))).toList ++ ' ' :: body.bare.toList)
      (Node.wrapped (listWords ns (wordsAll ns)) ++ body.words) EndsNumber :=
  (list hParams hp).wrapped.followed hBody.spells.afterSpace

/-- A function that is no arrow is spelled from its keyword to the brace of its body. -/
theorem function {form : FunctionForm} {id : Option Node} (hForm : form ≠ .arrow)
    (hId : ∀ n ∈ id, n.Lettered) (hi : ∀ n ∈ id, n.isDeclaration = false)
    (hParams : ∀ n ∈ ns, n.Lettered) (hp : ∀ n ∈ ns, n.isDeclaration = false)
    (hBody : body.Lettered) (hb : body.isDeclaration = false) :
    (Node.function form id ns body).Lettered := by
  refine .of_endsNumber ?_ rfl
  have hHead := (Spells.nameSpace (show IsName "function" by decide)).followed
    ((optional hId).ended (functionRest hParams hp hBody) (by simp [parenthesised]; decide))
  have hText : (Node.function form id ns body).bare = "function " ++ id.elim "" bare ++
      parenthesised (placed Node.item ", " ns (bareAll ns)) ++ " " ++ body.bare := by
    rw [bare_function hForm, elim_whole hi fun s => s, whole_eq hb]
  simpa [hText, words_function hForm] using hHead

/-- The sign of an arrow stands between spaces. -/
theorem arrow (hParams : ∀ n ∈ ns, n.Lettered) (hp : ∀ n ∈ ns, n.isDeclaration = false)
    (hBody : body.Lettered) (hb : body.isDeclaration = false) :
    (Node.function .arrow none ns body).Lettered := by
  refine .of_endsNumber ?_ rfl
  have hArrow : Spells ['=', '>', ' '] [.punct .arrow] fun _ => True :=
    Spells.signSpace (p := .arrow) (by decide) nofun nofun
  have hText : Spells (if body.opensBody then parenthesised body.bare else body.bare).toList
      (if body.opensBody then Node.wrapped body.words else body.words) EndsNumber := by
    split
    · exact hBody.wrapped.mono fun _ _ => trivial
    · exact hBody.spells
  change Spells (parenthesised (placed Node.item ", " ns (bareAll ns)) ++ " => " ++
      (if body.opensBody then parenthesised (body.whole body.bare) else body.whole body.bare)).toList
    (Node.wrapped (listWords ns (wordsAll ns)) ++ .punct .arrow ::
      (if body.opensBody then Node.wrapped body.words else body.words)) _
  simpa [whole_eq hb] using (list hParams hp).wrapped.followed (hArrow.afterSpace.followed hText)

/-- The sign of an assignment stands between spaces and its right side is printed as it is. -/
theorem assign {op : AssignOp} (hLeft : left.Lettered) (hl : left.isDeclaration = false)
    (hRight : right.Lettered) (hr : right.isDeclaration = false) :
    (Node.assign op left right).Lettered := by
  refine .of_endsNumber ?_ rfl
  change Spells (left.whole left.bare ++ " " ++ op.text ++ " " ++ right.whole right.bare).toList
    (left.words ++ .punct (.assign op) :: right.words) _
  simpa [whole_eq hl, whole_eq hr] using infixed hLeft.spells (assignSign op) hRight.spells

/-- A binary operator stands between spaces and its operands are fenced. -/
theorem binary {op : BinaryOp} (hLeft : left.Lettered) (hl : left.isDeclaration = false)
    (hRight : right.Lettered) (hr : right.isDeclaration = false) :
    (Node.binary op left right).Lettered := by
  refine .of_endsNumber ?_ rfl
  change Spells (left.operand left.bare ++ " " ++ op.text ++ " " ++ right.operand right.bare).toList
    (left.operandWords left.words ++ op.word :: right.operandWords right.words) _
  simpa using infixed (hLeft.operand hl) (binarySign op) (hRight.operand hr)

theorem logical {op : LogicalOp} (hLeft : left.Lettered) (hl : left.isDeclaration = false)
    (hRight : right.Lettered) (hr : right.isDeclaration = false) :
    (Node.logical op left right).Lettered := by
  refine .of_endsNumber ?_ rfl
  change Spells (left.operand left.bare ++ " " ++ op.text ++ " " ++ right.operand right.bare).toList
    (left.operandWords left.words ++ .punct (.logical op) :: right.operandWords right.words) _
  simpa using infixed (hLeft.operand hl) (logicalSign op) (hRight.operand hr)

/-- The two signs of a conditional stand between spaces. -/
theorem conditional (hTest : test.Lettered) (ht : test.isDeclaration = false)
    (hLeft : left.Lettered) (hl : left.isDeclaration = false) (hRight : right.Lettered)
    (hr : right.isDeclaration = false) : (Node.conditional test left right).Lettered := by
  refine .of_endsNumber ?_ rfl
  have hQuestion : Spells ['?', ' '] [.punct .question] fun _ => True :=
    Spells.signSpace (p := .question) (by decide) nofun nofun
  have hColon : Spells [':', ' '] [.punct .colon] fun _ => True :=
    Spells.signSpace (p := .colon) (by decide) nofun nofun
  change Spells (test.operand test.bare ++ " ? " ++ left.item left.bare ++ " : " ++
      right.item right.bare).toList
    (test.operandWords test.words ++ .punct .question :: left.itemWords left.words ++
      .punct .colon :: right.itemWords right.words) _
  simpa using infixed (o := ['?']) (hTest.operand ht) hQuestion
    (infixed (o := [':']) (hLeft.item hl) hColon (hRight.item hr))

/-- The items of a sequence are put together with commas. -/
theorem sequence (h : ∀ n ∈ ns, n.Lettered) (hd : ∀ n ∈ ns, n.isDeclaration = false) :
    (Node.sequence ns).Lettered :=
  .of_endsNumber (wholes h hd) rfl

/-- An array that ends with a hole is printed with one comma more, as it is read. -/
theorem array (h : ∀ n ∈ ns, n.Lettered) (hd : ∀ n ∈ ns, n.isDeclaration = false) :
    (Node.array ns).Lettered := by
  refine .of_closed ?_
  have hElements : Spells
      ((placed Node.item ", " ns (bareAll ns)).toList ++ if endsWithHole ns then [','] else [])
      (listWords ns (wordsAll ns) ++ if endsWithHole ns then [.punct .comma] else [])
      EndsNumber := by
    split
    · exact ((list h hd).ended .comma rfl).mono fun _ _ => trivial
    · simpa using list h hd
  have hText : (if endsWithHole ns then "," else "").toList =
      if endsWithHole ns then [','] else [] := by
    split <;> rfl
  change Spells ("[" ++ placed Node.item ", " ns (bareAll ns) ++
      (if endsWithHole ns then "," else "") ++ "]").toList
    (Node.bracketed .openBracket .closeBracket
      (listWords ns (wordsAll ns) ++ if endsWithHole ns then [.punct .comma] else [])) _
  simpa [hText] using hElements.bracketed

theorem object (h : ∀ n ∈ ns, n.Lettered) (hd : ∀ n ∈ ns, n.isDeclaration = false) :
    (Node.object ns).Lettered :=
  .of_closed (wholes h hd).braced

/-- Three dots and an item. -/
theorem spread (h : e.Lettered) (hd : e.isDeclaration = false) : (Node.spread e).Lettered := by
  refine .of_endsNumber ?_ rfl
  have hSign : Spells ['.', '.', '.'] [.punct .ellipsis] fun _ => True :=
    Spells.separator (p := .ellipsis) (by decide) nofun nofun
  change Spells ("..." ++ e.item e.bare).toList (.punct .ellipsis :: e.itemWords e.words) _
  simpa using hSign.followed (h.item hd)

theorem ident {text : String} (h : IsName text) : (Node.ident text).Lettered :=
  .of_endsName (Spells.name h)

theorem this : Node.this.Lettered := .of_endsName (Spells.name (show IsName "this" by decide))

theorem hole : Node.hole.Lettered := .of_closed .nil

/-- A numeral is spelled by its own text. It is no solid text, as a dot would go on with it. -/
theorem number {value : Number} {raw : String} (h : IsNumeral value raw) :
    (Node.literal ⟨.number value, raw⟩).Lettered :=
  .of_endsNumber (Spells.number h) rfl

/-- A quotation is spelled by its own text. -/
theorem string {value raw : String} (h : IsQuotation value raw) :
    (Node.literal ⟨.string value, raw⟩).Lettered :=
  .of_closed (Spells.string h)

theorem bool (b : Bool) : (Node.literal ⟨.bool b, if b then "true" else "false"⟩).Lettered :=
  .of_endsName (Spells.name (by cases b <;> decide))

theorem null : (Node.literal ⟨.null, "null"⟩).Lettered :=
  .of_endsName (Spells.name (by decide))

/-- A class is spelled from its keyword to the brace after its members. -/
theorem classDef {id superclass : Option Node} {expression : Bool} (hId : ∀ n ∈ id, n.Lettered)
    (hi : ∀ n ∈ id, n.isDeclaration = false) (hSuper : ∀ n ∈ superclass, n.Lettered)
    (hs : ∀ n ∈ superclass, n.isDeclaration = false) (hMembers : ∀ n ∈ ns, n.Lettered)
    (hm : ∀ n ∈ ns, n.isDeclaration = false) :
    (Node.classDef id superclass ns expression).Lettered := by
  refine .of_closed ?_
  have hName : Spells (id.elim "" fun n => " " ++ n.bare).toList (id.elim [] words) EndsNumber := by
    cases id with
    | none => exact .nil
    | some n => simpa using (hId n rfl).spells.afterSpace
  have hExtends : Spells (superclass.elim "" fun n => " extends " ++ n.operand n.bare).toList
      (superclass.elim [] fun n => .name "extends" :: n.operandWords n.words) EndsNumber := by
    cases superclass with
    | none => exact .nil
    | some n =>
        have hWord := (Spells.nameSpace (show IsName "extends" by decide)).afterSpace
        simpa using hWord.followed ((hSuper n rfl).operand (hs n rfl))
  have hText : (Node.classDef id superclass ns expression).bare =
      "class" ++ (id.elim "" fun n => " " ++ n.bare) ++
        (superclass.elim "" fun n => " extends " ++ n.operand n.bare) ++ " " ++
        braced (" " ++ " ".intercalate (ns.map bare) ++ " ") := by
    have hMemberTexts : placed whole " " ns (bareAll ns) = " ".intercalate (ns.map bare) := by
      rw [placed, bareAll_eq_map, zipWith_map_self, map_whole hm]
    rw [bare_classDef, elim_whole hi (" " ++ ·), hMemberTexts]
  have hBody := (roomy (spells_spaced fun n hn => (hMembers n hn).spells)).afterSpace
  have hRest := hExtends.ended hBody rfl
  have hStart : ∀ rest, EndsNumber
      (((superclass.elim "" fun n => " extends " ++ n.operand n.bare).toList ++
        ' ' :: (braced (" " ++ " ".intercalate (ns.map bare) ++ " ")).toList) ++ rest) := by
    intro rest
    cases superclass with
    | none => exact endsNumber_append (by simp; decide)
    | some n => exact endsNumber_append (by simp; decide)
  have hAll := (Spells.name (show IsName "class" by decide)).append
    (hName.append hRest fun rest _ => hStart rest) fun rest _ => by
      cases id with
      | none => exact (hStart rest).endsName
      | some n => exact endsName_append (by simp; decide)
  simpa [hText, words_classDef, wordsAll_eq_map] using hAll

/-- A method is spelled from its key to the brace of its body. -/
theorem method {kind : MethodKind} {isStatic : Bool} {form : FunctionForm} {id : Option Node}
    (hKey : key.Lettered) (hk : key.isDeclaration = false) (hParams : ∀ n ∈ ns, n.Lettered)
    (hp : ∀ n ∈ ns, n.isDeclaration = false) (hBody : body.Lettered)
    (hb : body.isDeclaration = false) :
    (Node.method key (.function form id ns body) kind isStatic).Lettered := by
  refine .of_endsNumber ?_ rfl
  have hStatic : Spells (if isStatic then "static " else "").toList
      (if isStatic then [.name "static"] else []) fun _ => True := by
    split
    · exact Spells.nameSpace (show IsName "static" by decide)
    · exact .nil
  have hWord : Spells (methodWord kind).toList (methodWords kind) fun _ => True := by
    cases kind with
    | get => exact Spells.nameSpace (show IsName "get" by decide)
    | set => exact Spells.nameSpace (show IsName "set" by decide)
    | _ => exact .nil
  have hRest := hKey.spells.ended (functionRest hParams hp hBody) (by simp [parenthesised]; decide)
  change Spells ((if isStatic then "static " else "") ++ methodWord kind ++ key.whole key.bare ++
      (parenthesised (placed Node.item ", " ns (bareAll ns)) ++ " " ++ body.whole body.bare)).toList
    ((if isStatic then [.name "static"] else []) ++ methodWords kind ++ key.words ++
      (Node.wrapped (listWords ns (wordsAll ns)) ++ body.words)) _
  simpa [whole_eq hk, whole_eq hb] using hStatic.followed (hWord.followed hRest)

/-- The name of an object member. -/
theorem name (computed : Bool) (hKey : key.Lettered) :
    Spells (if computed then "[" ++ key.bare ++ "]" else key.bare).toList
      (if computed then bracketed .openBracket .closeBracket key.words else key.words)
      EndsNumber := by
  split
  · simpa using hKey.spells.bracketed.mono fun _ _ => trivial
  · exact hKey.spells

/-- A shorthand property is its name alone. -/
theorem shorthand {text : String} (h : IsName text) :
    (Node.property (.ident text) (.ident text) .init false true false).Lettered :=
  .of_endsName (Spells.name h)

/-- The colon of a property ends its key. -/
theorem property {computed : Bool} (hKey : key.Lettered) (hk : key.isDeclaration = false)
    (hValue : value.Lettered) (hv : value.isDeclaration = false) :
    (Node.property key value .init computed false false).Lettered := by
  refine .of_endsNumber ?_ rfl
  have hColon : Spells [':', ' '] [.punct .colon] fun _ => True :=
    Spells.signSpace (p := .colon) (by decide) nofun nofun
  have hText : (Node.property key value .init computed false false).bare =
      (if computed then "[" ++ key.bare ++ "]" else key.bare) ++ ": " ++ value.item value.bare := by
    rw [← whole_eq (s := key.bare) hk]
    cases value <;> rfl
  have hAll := (name computed hKey).ended (hColon.followed (hValue.item hv)) rfl
  rw [hText, words_property]
  simpa using hAll

/-- A method of an object is spelled from its kind to the brace of its body. -/
theorem methodProperty {kind : PropertyKind} {computed : Bool} {form : FunctionForm}
    {id : Option Node} (hKey : key.Lettered) (hk : key.isDeclaration = false)
    (hParams : ∀ n ∈ ns, n.Lettered) (hp : ∀ n ∈ ns, n.isDeclaration = false)
    (hBody : body.Lettered) (hb : body.isDeclaration = false) :
    (Node.property key (.function form id ns body) kind computed false (kind = .init)).Lettered := by
  refine .of_endsNumber ?_ rfl
  have hWord : Spells (propertyWord kind).toList (propertyWords kind) fun _ => True := by
    cases kind with
    | get => exact Spells.nameSpace (show IsName "get" by decide)
    | set => exact Spells.nameSpace (show IsName "set" by decide)
    | init => exact .nil
  have hRest := (name computed hKey).ended (functionRest hParams hp hBody)
    (by simp [parenthesised]; decide)
  have hText : (Node.property key (.function form id ns body) kind computed false
      (kind = .init)).bare = propertyWord kind ++
        (if computed then "[" ++ key.bare ++ "]" else key.bare) ++
        (parenthesised (placed Node.item ", " ns (bareAll ns)) ++ " " ++ body.bare) := by
    rw [← whole_eq (s := key.bare) hk, ← whole_eq (s := body.bare) hb]
    cases kind <;> rfl
  rw [hText, words_methodProperty]
  simpa using hWord.followed hRest

/-- The operand of an update is a target, so its text starts and ends with no sign. -/
theorem update {op : UpdateOp} {before : Bool} (hTarget : Grammar.isTarget e = true)
    (h : e.Lettered) : (Node.update op before e).Lettered := by
  have hSolid : e.isSolid = true := by cases e <;> first | rfl | cases hTarget
  have hOperand : e.isOperation = false := by cases e <;> first | rfl | cases hTarget
  have hDeclaration : e.isDeclaration = false := by cases e <;> first | rfl | cases hTarget
  cases before with
  | true =>
      refine .of_endsName ?_
      change Spells (op.text ++ e.operand e.bare).toList
        (.punct (.update op) :: e.operandWords e.words) _
      simpa [Node.operand, operandWords, hOperand, whole_eq hDeclaration] using
        (updateSign op).followed (h.solid hSolid)
  | false =>
      refine .of_closed ?_
      have hText : ∀ rest, EndsName (op.text.toList ++ rest) := fun rest =>
        endsName_append (by cases op <;> decide)
      change Spells (e.operand e.bare ++ op.text).toList
        (e.operandWords e.words ++ [Lexeme.punct (.update op)]) _
      simpa [Node.operand, operandWords, hOperand, whole_eq hDeclaration] using
        (h.solid hSolid).append (updateSign op) fun rest _ => hText rest

/-- Characters that no sign in front of an operand goes on with. -/
def opensOperand (c : Char) : Bool := c != '=' && c != '+' && c != '-'

/-- The signs that stand in front of an operand. -/
def unarySigns : List Punct := [.binary .sub, .binary .add, .not, .bitNot]

/-- No unary sign goes on with a character that opens an operand. -/
theorem goesOn_of_opensOperand {p : Punct} (hp : p ∈ unarySigns) {c : Char}
    (hc : c ∈ Punct.further) (h : opensOperand c = true) : p.goesOn c = false := by
  have hAll : (unarySigns.all fun p => Punct.further.all fun c => !(opensOperand c && p.goesOn c)) =
      true := by
    decide +kernel
  simpa [h] using List.all_eq_true.1 (List.all_eq_true.1 hAll p hp) c hc

/-- A text that opens an operand ends a unary sign. -/
theorem endsSign_append {p : Punct} (hp : p ∈ unarySigns) {t rest : List Char}
    (ht : t.head?.any opensOperand = true) : EndsSign p (t ++ rest) := by
  intro c hc
  cases t with
  | nil => cases ht
  | cons d t =>
      cases hc
      have hNot : p ≠ .dot ∧ p ≠ .binary .div ∧ p.text.toList ≠ [] := by
        revert p
        decide
      refine ⟨?_, fun h => absurd h hNot.1, fun h => absurd h hNot.2.1⟩
      by_cases hFurther : c ∈ Punct.further
      · exact goesOn_of_opensOperand hp hFurther (by simpa using ht)
      · exact Punct.goesOn_eq_false hNot.2.2 hFurther

/-- A unary sign needs its operand's text to open an operand. A word is printed with a space. -/
theorem unary {op : UnaryOp} (h : e.Lettered) (hd : e.isDeclaration = false)
    (hHead : e.isOperation = false → e.isUpdate = false →
      e.bare.toList.head?.any opensOperand = true) : (Node.unary op e).Lettered := by
  refine .of_endsNumber ?_ rfl
  by_cases hWord : op.isWord = true
  · have hSign : Spells (op.text.toList ++ [' ']) [op.word] fun _ => True := by
      cases op with
      | typeOf => exact Spells.nameSpace (show IsName "typeof" by decide)
      | void => exact Spells.nameSpace (show IsName "void" by decide)
      | delete => exact Spells.nameSpace (show IsName "delete" by decide)
      | _ => cases hWord
    have hText : (Node.unary op e).bare = op.text ++ " " ++ e.operand e.bare := if_pos hWord
    have hWords : (Node.unary op e).words = op.word :: e.operandWords e.words := by
      rw [words_unary, hWord, Bool.not_true, Bool.false_and, if_neg Bool.false_ne_true]
    simpa [hText, hWords] using hSign.followed (h.operand hd)
  · obtain ⟨p, hp, hText, hOpWord⟩ : ∃ p ∈ unarySigns, op.text = p.text ∧ op.word = .punct p := by
      cases op with
      | neg => exact ⟨.binary .sub, by decide, rfl, rfl⟩
      | plus => exact ⟨.binary .add, by decide, rfl, rfl⟩
      | not => exact ⟨.not, by decide, rfl, rfl⟩
      | bitNot => exact ⟨.bitNot, by decide, rfl, rfl⟩
      | _ => exact absurd rfl hWord
    have hOperand : Spells
        (if e.isUpdate then parenthesised e.bare else e.operand e.bare).toList
        (if e.isUpdate then Node.wrapped e.words else e.operandWords e.words) EndsNumber := by
      split
      · exact h.wrapped.mono fun _ _ => trivial
      · exact h.operand hd
    have hFirst : ((if e.isUpdate then parenthesised e.bare else e.operand e.bare).toList).head?.any
        opensOperand = true := by
      split
      · simp [parenthesised]; decide
      · rw [Node.operand]
        split
        · simp [parenthesised]; decide
        · simpa [whole, hd] using hHead (by simp_all) (by simp_all)
    have hSign : Spells p.text.toList [.punct p] (EndsSign p) := by
      have hp' : p ∈ Punct.all ∧ p ≠ .openBrace ∧ p ≠ .closeBrace := by
        clear hText hOpWord
        revert p
        decide
      exact Spells.sign hp'.1 hp'.2.1 hp'.2.2
    have hAll := hSign.append hOperand fun rest _ => endsSign_append hp hFirst
    have hEq : (Node.unary op e).bare = p.text ++
        if e.isUpdate then parenthesised e.bare else e.operand e.bare := by
      refine (if_neg hWord).trans ?_
      rw [hText, whole_eq hd]
      split <;> rfl
    simpa [hEq, words_unary, hWord, hOpWord] using hAll

/-- An operand in parentheses, or by itself. -/
theorem fenced (h : e.Lettered) (hd : e.isDeclaration = false) (fence : Bool) :
    Spells (if fence then parenthesised (e.whole e.bare) else e.operand e.bare).toList
      (if fence then Node.wrapped e.words else e.operandWords e.words) EndsNumber := by
  split
  · simpa [whole, hd] using h.wrapped.mono fun _ _ => trivial
  · exact h.operand hd

/-- Arguments in parentheses end what is called. -/
theorem call (h : e.Lettered) (hd : e.isDeclaration = false) (hArguments : ∀ n ∈ ns, n.Lettered)
    (ha : ∀ n ∈ ns, n.isDeclaration = false) : (Node.call e ns).Lettered := by
  refine .of_closed ?_
  change Spells ((if e.isFunction then parenthesised (e.whole e.bare) else e.operand e.bare) ++
      parenthesised (placed Node.item ", " ns (bareAll ns))).toList
    ((if e.isFunction then Node.wrapped e.words else e.operandWords e.words) ++
      Node.wrapped (listWords ns (wordsAll ns))) _
  rw [String.toList_append]
  exact (fenced h hd e.isFunction).ended (list hArguments ha).wrapped
    (by simp [parenthesised]; decide)

/-- The keyword is printed with a space, and parentheses end what is constructed. -/
theorem construct (h : e.Lettered) (hd : e.isDeclaration = false)
    (hArguments : ∀ n ∈ ns, n.Lettered) (ha : ∀ n ∈ ns, n.isDeclaration = false) :
    (Node.construct e ns).Lettered := by
  refine .of_closed ?_
  have hNew := Spells.nameSpace (show IsName "new" by decide)
  change Spells ("new " ++ e.operand e.bare ++
      parenthesised (placed Node.item ", " ns (bareAll ns))).toList
    (.name "new" :: e.operandWords e.words ++ Node.wrapped (listWords ns (wordsAll ns))) _
  simpa using hNew.followed ((h.operand hd).ended (list hArguments ha).wrapped
    (by simp [parenthesised]; decide))

/-- A key in brackets ends the object. -/
theorem computedMember (h : e.Lettered) (hd : e.isDeclaration = false) (hKey : key.Lettered)
    (hk : key.isDeclaration = false) : (Node.member e key true).Lettered := by
  refine .of_closed ?_
  change Spells (e.operand e.bare ++ "[" ++ key.whole key.bare ++ "]").toList
    (e.operandWords e.words ++ Node.bracketed .openBracket .closeBracket key.words) _
  simpa [whole_eq hk] using (h.operand hd).ended hKey.spells.bracketed rfl

theorem isNameStart_of_mem_further {c : Char} (hc : c ∈ Punct.further) : isNameStart c = false := by
  have hAll : (Punct.further.all fun c => !isNameStart c) = true := by decide
  simpa using List.all_eq_true.1 hAll c hc

/-- A point in front of a name is a sign by itself. -/
theorem endsSign_dot {text : String} {rest : List Char} (h : IsName text) :
    EndsSign .dot (text.toList ++ rest) := by
  obtain ⟨c, cs, hText, hStart, -⟩ := h
  rw [hText]
  rintro d ⟨⟩
  refine ⟨Punct.goesOn_eq_false (by decide) fun hc => ?_, fun _ => ?_, nofun⟩
  · rw [isNameStart_of_mem_further hc] at hStart
    cases hStart
  · by_contra hDigit
    rw [isNameStart_eq_false_of_isDigit (by simpa using hDigit)] at hStart
    cases hStart

/-- A dot ends an object only if it is solid or in parentheses. -/
theorem member {text : String} (h : e.Lettered) (hd : e.isDeclaration = false)
    (hSolid : e.needsFence = false → e.isOperation = false → e.isSolid = true) (hKey : IsName text) :
    (Node.member e (.ident text) false).Lettered := by
  refine .of_endsName ?_
  have hOwner : Spells
      (if e.needsFence then parenthesised (e.whole e.bare) else e.operand e.bare).toList
      (if e.needsFence then Node.wrapped e.words else e.operandWords e.words) EndsName := by
    split
    · simpa [whole, hd] using h.wrapped.mono fun _ _ => trivial
    · rw [Node.operand, operandWords]
      split
      · exact h.wrapped.mono fun _ _ => trivial
      · simpa [whole, hd] using h.solid (hSolid (by simp_all) (by simp_all))
  have hDot : Spells ['.'] [.punct .dot] (EndsSign .dot) :=
    Spells.sign (p := .dot) (by decide) nofun nofun
  have hName := hDot.append (Spells.name hKey) fun rest _ => endsSign_dot hKey
  change Spells ((if e.needsFence then parenthesised (e.whole e.bare) else e.operand e.bare) ++ "." ++
      text).toList
    ((if e.needsFence then Node.wrapped e.words else e.operandWords e.words) ++
      [.punct .dot, .name text]) _
  simpa using hOwner.append hName fun rest _ => endsName_append rfl

/-- The pieces of a template with the texts of expressions between them. -/
theorem pieces {quasis : List String} (rest : List Char)
    (hLength : quasis.length = ns.length + 1) (hQuasis : ∀ q ∈ quasis, isQuasi q.toList = true)
    (h : ∀ n ∈ ns, n.Lettered) :
    ScansPieces ((interleaved quasis (ns.map bare)).toList ++ '\x60' :: rest) quasis
      (ns.map fun n => partOf n.words) rest := by
  induction ns generalizing quasis with
  | nil =>
      obtain ⟨q, rfl⟩ := List.length_eq_one_iff.1 hLength
      simpa [interleaved] using ScansPieces.last (hQuasis q List.mem_cons_self)
  | cons n ns ih =>
      cases quasis with
      | nil => cases hLength
      | cons q quasis =>
          have hMore := ih (by simpa using hLength)
            (fun q' hq' => hQuasis q' (List.mem_cons_of_mem _ hq'))
            fun n' hn' => h n' (List.mem_cons_of_mem _ hn')
          have hPart := (h n List.mem_cons_self).spells true 0 ('\x7d' ::
            ((interleaved quasis (ns.map bare)).toList ++ '\x60' :: rest)) []
            ((interleaved quasis (ns.map bare)).toList ++ '\x60' :: rest)
            (endsNumber_append (t := ['\x7d']) (by decide)) .close
          rw [List.append_nil] at hPart
          simpa [interleaved, Node.braced, partOf, Function.comp_def] using
            ScansPieces.more (hQuasis q List.mem_cons_self) (by simp; omega) hPart hMore

/-- The strings of a template are kept as they are, between its expressions in braces. -/
theorem template {quasis : List String} (hLength : quasis.length = ns.length + 1)
    (hQuasis : ∀ q ∈ quasis, isQuasi q.toList = true) (h : ∀ n ∈ ns, n.Lettered)
    (hd : ∀ n ∈ ns, n.isDeclaration = false) : (Node.template quasis ns).Lettered := by
  refine .of_closed ?_
  have hText : List.zipWith whole ns (bareAll ns) = ns.map bare := by
    rw [bareAll_eq_map, zipWith_map_self, map_whole hd]
  have hPieces := Spells.template (C := fun _ => True)
    (s := (interleaved quasis (ns.map bare)).toList ++ ['\x60']) fun rest => by
      simpa using pieces rest hLength hQuasis h
  change Spells ("\x60" ++ interleaved quasis (List.zipWith whole ns (bareAll ns)) ++ "\x60").toList
    [.template quasis ((wordsAll ns).map partOf)] _
  simpa [hText, wordsAll_eq_map, Function.comp_def] using hPieces

end Node.Lettered

namespace Formed

open Node Node.Lettered

/-- The grammar forms no wildcards; they come into a tree only as it is compiled to a pattern. -/
theorem isWildcard {place : Place} {n : Node} (h : Formed place n) : n.isWildcard = false := by
  induction h <;> first | rfl | assumption

/-- A declaration is formed in few places only. -/
theorem isDeclaration {place : Place} {n : Node} (h : Formed place n)
    (hPlace : place.mayDeclare = false) : n.isDeclaration = false := by
  induction h with
  | blockStatement | declarationStatement | startDeclaration | startExpression => cases hPlace
  | declaration => cases hPlace
  | parameter _ ih | arrowBlock _ ih | arrowExpression _ ih | argument _ ih | element _ ih
  | computedKey _ ih => exact ih rfl
  | _ => rfl

/-- A binding is a name, which holds no `in` and no statement. -/
theorem faithful_of_binding (noIn : Bool) {n : Node} (h : Formed .binding n) :
    n.faithful noIn = true := by
  cases h
  rfl

/-- A key that names a method is faithful under every restriction. -/
theorem faithful_of_namesMethod (noIn : Bool) {n : Node} (h : n.namesMethod = true) :
    n.faithful noIn = true := by
  cases n <;> first | rfl | cases h

/-- A name opens an operand. -/
theorem opensOperand_of_isName {text : String} (h : IsName text) :
    text.toList.head?.any opensOperand = true := by
  obtain ⟨c, cs, hText, hStart, -⟩ := h
  have hNot : ∀ d, isNameStart d = false → c ≠ d := by
    rintro d hd rfl
    rw [hStart] at hd
    cases hd
  simp [hText, opensOperand, hNot '=' (by decide), hNot '+' (by decide), hNot '-' (by decide)]

/-- An operand at the start of a text is in parentheses, or starts as by itself. -/
theorem opensOperand_fenced {n : Node} {rest : List Char} (fence : Bool)
    (hd : n.isDeclaration = false)
    (hn : n.isOperation = false → n.bare.toList.head?.any opensOperand = true) :
    ((if fence then parenthesised (n.whole n.bare) else n.operand n.bare).toList ++
      rest).head?.any opensOperand = true := by
  split
  · simp [parenthesised]; decide
  · rw [Node.operand]
    split
    · simp [parenthesised]; decide
    · next hOperation =>
        rw [whole_eq hd]
        have hFirst := hn (by simpa using hOperation)
        cases hText : n.bare.toList <;> simp_all

/-- No sign goes on with the first character of an operand. -/
theorem opensOperand_bare {free : Bool} {n : Node} (h : Formed (.expression free) n)
    (hFaithful : n.faithful false = true) (hOperation : n.isOperation = false)
    (hUpdate : n.isUpdate = false) : n.bare.toList.head?.any opensOperand = true := by
  generalize hPlace : Place.expression free = place at h
  induction h with
  | ident h _ => exact opensOperand_of_isName h.isName
  | @number _ _ raw h =>
      obtain ⟨c, cs, hCons, hFirst⟩ := exists_cons_of_isNumeral h
      have hNot : ∀ d : Char, d ≠ '.' → d.isDigit = false → c ≠ d := by
        rintro d hd hd' rfl
        rcases hFirst with rfl | h
        · exact hd rfl
        · rw [h] at hd'
          cases hd'
      change raw.toList.head?.any _ = true
      simp [hCons, opensOperand, hNot '=', hNot '+', hNot '-']
  | @string _ _ raw h =>
      obtain ⟨quote, cs, hCons, hQuote, -⟩ := exists_cons_of_isQuotation h
      change raw.toList.head?.any _ = true
      rw [hCons]
      rcases hQuote with rfl | rfl <;> rfl
  | bool b => cases b <;> decide
  | this | null => decide
  | @call _ callee arguments hCallee _ ih _ =>
      simp only [faithful_call, Bool.and_eq_true, Bool.not_eq_true'] at hFaithful
      have hd := hCallee.isDeclaration (by rw [← hPlace]; rfl)
      change ((if callee.isFunction then parenthesised (callee.whole callee.bare)
        else callee.operand callee.bare) ++ _).toList.head?.any _ = true
      rw [String.toList_append]
      exact opensOperand_fenced _ hd fun ho => ih hFaithful.1.2 ho hFaithful.1.1.1 hPlace
  | @member _ owner text hOwner _ ih =>
      simp only [faithful_member, Bool.and_eq_true, Bool.not_eq_true'] at hFaithful
      have hd := hOwner.isDeclaration (by rw [← hPlace]; rfl)
      change ((if owner.needsFence then parenthesised (owner.whole owner.bare)
        else owner.operand owner.bare) ++ "." ++ text).toList.head?.any _ = true
      simp only [String.toList_append, List.append_assoc]
      exact opensOperand_fenced _ hd fun ho => ih hFaithful.1.2 ho hFaithful.1.1 hPlace
  | @computedMember _ owner key hOwner _ ih _ =>
      simp only [faithful_member, Bool.and_eq_true, Bool.not_eq_true'] at hFaithful
      have hd := hOwner.isDeclaration (by rw [← hPlace]; rfl)
      change (owner.operand owner.bare ++ "[" ++ key.whole key.bare ++ "]").toList.head?.any _ = true
      simp only [String.toList_append, List.append_assoc]
      exact opensOperand_fenced false hd fun ho => ih hFaithful.1.2 ho hFaithful.1.1 hPlace
  | array =>
      change ("[" ++ _ ++ _ ++ "]").toList.head?.any _ = true
      simp; decide
  | object =>
      change ("\x7b" ++ _ ++ "\x7d").toList.head?.any _ = true
      simp; decide
  | template =>
      change ("\x60" ++ _ ++ "\x60").toList.head?.any _ = true
      simp; decide
  | function =>
      rw [bare_function (show FunctionForm.expression ≠ .arrow from nofun)]
      simp; decide
  | classExpression =>
      rw [bare_classDef]
      simp; decide
  | construct =>
      change ("new " ++ _ ++ _).toList.head?.any _ = true
      simp; decide
  | arrow | assign | binary | logical | unary | conditional | sequence => cases hOperation
  | update => cases hUpdate
  | _ => cases hPlace

/-- The text of a tree spells its words. -/
theorem lettered {place : Place} {n : Node} (h : Formed place n) {noIn : Bool}
    (hFaithful : n.faithful noIn = true) : n.Lettered := by
  -- by the rule that forms the node; the restriction on the word `in` changes from a node to its
  -- parts, so it is general
  induction h generalizing noIn with
  | block hBody ih =>
      rw [faithful_block, faithfulAll_eq_true] at hFaithful
      exact .block (fun n hn => ih n hn (hFaithful n hn)) fun n hn => (hBody n hn).isWildcard
  | blockStatement _ ih | declarationStatement _ ih | startDeclaration _ ih | startExpression _ ih
  | parameter _ ih | arrowBlock _ ih | arrowExpression _ ih | argument _ ih | element _ ih
  | computedKey _ ih => exact ih hFaithful
  | expr h ih =>
      rw [faithful_expr, Bool.and_eq_true] at hFaithful
      exact .expr (ih hFaithful.2) (h.isDeclaration rfl)
  | empty => exact .empty
  | @ifElse test consequent alternate hTest hConsequent hAlternate _ ihTest ihConsequent
      ihAlternate =>
      simp only [faithful_ifElse, Bool.and_eq_true, Option.all_eq_true] at hFaithful
      obtain ⟨⟨hTest', hConsequent'⟩, hAlternate'⟩ := hFaithful
      cases alternate with
      | none =>
          exact .ifElse_none (ihTest hTest') (hTest.isDeclaration rfl) (ihConsequent hConsequent')
            hConsequent.isWildcard
      | some other =>
          exact .ifElse_some (ihTest hTest') (hTest.isDeclaration rfl) (ihConsequent hConsequent')
            hConsequent.isWildcard (ihAlternate other rfl (hAlternate' other rfl))
            (hAlternate other rfl).isWildcard
  | @forLoop init test step body _ hTest hStep hBody ihInit ihTest ihStep ihBody =>
      simp only [faithful_forLoop, Bool.and_eq_true, Option.all_eq_true] at hFaithful
      obtain ⟨⟨⟨hInit, hTest'⟩, hStep'⟩, hBody'⟩ := hFaithful
      exact .forLoop (fun n hn => ihInit n hn (hInit n hn)) (fun n hn => ihTest n hn (hTest' n hn))
        (fun n hn => (hTest n hn).isDeclaration rfl) (fun n hn => ihStep n hn (hStep' n hn))
        (fun n hn => (hStep n hn).isDeclaration rfl) (ihBody hBody') hBody.isWildcard
  | forEach _ hRight hBody ihLeft ihRight ihBody =>
      simp only [faithful_forEach, Bool.and_eq_true] at hFaithful
      exact .forEach (ihLeft hFaithful.1.1.2) (ihRight hFaithful.1.2) (hRight.isDeclaration rfl)
        (ihBody hFaithful.2) hBody.isWildcard
  | whileLoop hTest hBody ihTest ihBody =>
      rw [faithful_whileLoop, Bool.and_eq_true] at hFaithful
      exact .whileLoop (ihTest hFaithful.1) (hTest.isDeclaration rfl) (ihBody hFaithful.2)
        hBody.isWildcard
  | doWhile hBody hTest ihBody ihTest =>
      rw [faithful_doWhile, Bool.and_eq_true] at hFaithful
      exact .doWhile (ihBody hFaithful.2) hBody.isWildcard (ihTest hFaithful.1)
        (hTest.isDeclaration rfl)
  | @returns argument h ih =>
      cases argument with
      | none => exact .returns_none
      | some n => exact .returns_some (ih n rfl hFaithful) ((h n rfl).isDeclaration rfl)
  | breaks => exact .breaks
  | continues => exact .continues
  | throws h ih => exact .throws (ih hFaithful) (h.isDeclaration rfl)
  | tryCatch hBody hParam hHandler hFinalizer _ _ ihBody ihParam ihHandler ihFinalizer =>
      simp only [faithful_tryCatch, Bool.and_eq_true, Option.all_eq_true] at hFaithful
      obtain ⟨⟨hBody', hHandler'⟩, hFinalizer'⟩ := hFaithful
      exact .tryCatch (ihBody hBody') (hBody.isDeclaration rfl)
        (fun n hn => ihParam n hn (faithful_of_binding false (hParam n hn)))
        (fun n hn => (hParam n hn).isDeclaration rfl) (fun n hn => ihHandler n hn (hHandler' n hn))
        (fun n hn => (hHandler n hn).isDeclaration rfl)
        (fun n hn => ihFinalizer n hn (hFinalizer' n hn))
        (fun n hn => (hFinalizer n hn).isDeclaration rfl)
  | functionDeclaration hId hParams hBody ihId ihParams ihBody =>
      simp only [faithful_function, Bool.and_eq_true, faithfulAll_eq_true] at hFaithful
      refine .function nofun ?_ ?_ (fun n hn => ihParams n hn (hFaithful.1.1 n hn))
        (fun n hn => (hParams n hn).isDeclaration rfl) (ihBody hFaithful.2)
        (hBody.isDeclaration rfl)
      · rintro n ⟨⟩
        exact ihId (faithful_of_binding false hId)
      · rintro n ⟨⟩
        exact hId.isDeclaration rfl
  | function hId hParams hBody ihId ihParams ihBody =>
      simp only [faithful_function, Bool.and_eq_true, faithfulAll_eq_true] at hFaithful
      refine .function nofun ?_ (fun n hn => (hId n hn).isDeclaration rfl)
        (fun n hn => ihParams n hn (hFaithful.1.1 n hn))
        (fun n hn => (hParams n hn).isDeclaration rfl) (ihBody hFaithful.2)
        (hBody.isDeclaration rfl)
      exact fun n hn => ihId n hn (faithful_of_binding false (hId n hn))
  | arrow hParams hBody ihParams ihBody =>
      simp only [faithful_function, Bool.and_eq_true, faithfulAll_eq_true] at hFaithful
      exact .arrow (fun n hn => ihParams n hn (hFaithful.1.1 n hn))
        (fun n hn => (hParams n hn).isDeclaration rfl) (ihBody hFaithful.2)
        (hBody.isDeclaration rfl)
  | classDeclaration hId hSuperclass hMembers ihId ihSuperclass ihMembers =>
      simp only [faithful_classDef, Bool.and_eq_true, Option.all_eq_true, faithfulAll_eq_true]
        at hFaithful
      refine .classDef ?_ ?_ (fun n hn => ihSuperclass n hn (hFaithful.1 n hn).2)
        (fun n hn => (hSuperclass n hn).isDeclaration rfl)
        (fun n hn => ihMembers n hn (hFaithful.2 n hn))
        (fun n hn => (hMembers n hn).isDeclaration rfl)
      · rintro n ⟨⟩
        exact ihId (faithful_of_binding false hId)
      · rintro n ⟨⟩
        exact hId.isDeclaration rfl
  | classExpression hId hSuperclass hMembers ihId ihSuperclass ihMembers =>
      simp only [faithful_classDef, Bool.and_eq_true, Option.all_eq_true, faithfulAll_eq_true]
        at hFaithful
      exact .classDef (fun n hn => ihId n hn (faithful_of_binding false (hId n hn)))
        (fun n hn => (hId n hn).isDeclaration rfl)
        (fun n hn => ihSuperclass n hn (hFaithful.1 n hn).2)
        (fun n hn => (hSuperclass n hn).isDeclaration rfl)
        (fun n hn => ihMembers n hn (hFaithful.2 n hn))
        (fun n hn => (hMembers n hn).isDeclaration rfl)
  | declaration _ hDeclarators ih =>
      rw [faithful_declaration, faithfulAll_eq_true] at hFaithful
      exact .declaration (fun n hn => ih n hn (hFaithful n hn))
        fun n hn => (hDeclarators n hn).isDeclaration rfl
  | @declarator id init hId hInit ihId ihInit =>
      simp only [faithful_declarator, Option.all_eq_true] at hFaithful
      cases init with
      | none => exact .declarator_none (ihId (faithful_of_binding false hId)) (hId.isDeclaration rfl)
      | some n =>
          exact .declarator_some (ihId (faithful_of_binding false hId)) (hId.isDeclaration rfl)
            (ihInit n rfl (hFaithful n rfl)) ((hInit n rfl).isDeclaration rfl)
  | binding h => exact .ident h.isName
  | withDefault hLeft hRight ihLeft ihRight =>
      exact .withDefault (ihLeft (faithful_of_binding false hLeft)) (hLeft.isDeclaration rfl)
        (ihRight hFaithful) (hRight.isDeclaration rfl)
  | restParameter h ih | spread h ih | spreadProperty h ih =>
      exact .spread (ih hFaithful) (h.isDeclaration rfl)
  | ident h _ => exact .ident h.isName
  | nameKey h => exact .ident h
  | this => exact .this
  | number h | numberKey h => exact .number h
  | string h | stringKey h => exact .string h
  | bool b => exact .bool b
  | null => exact .null
  | hole => exact .hole
  | template hLength hQuasis hExpressions ih =>
      rw [faithful_template, faithfulAll_eq_true] at hFaithful
      exact .template hLength hQuasis (fun n hn => ih n hn (hFaithful n hn))
        fun n hn => (hExpressions n hn).isDeclaration rfl
  | array hElements ih =>
      rw [faithful_array, faithfulAll_eq_true] at hFaithful
      exact .array (fun n hn => ih n hn (hFaithful n hn))
        fun n hn => (hElements n hn).isDeclaration rfl
  | object hMembers ih =>
      rw [faithful_object, faithfulAll_eq_true] at hFaithful
      exact .object (fun n hn => ih n hn (hFaithful n hn))
        fun n hn => (hMembers n hn).isDeclaration rfl
  | sequence _ hItems ih =>
      rw [faithful_sequence, Bool.and_eq_true, faithfulAll_eq_true] at hFaithful
      exact .sequence (fun n hn => ih n hn (hFaithful.2 n hn))
        fun n hn => (hItems n hn).isDeclaration rfl
  | call hCallee hArguments ihCallee ihArguments =>
      simp only [faithful_call, Bool.and_eq_true, faithfulAll_eq_true] at hFaithful
      exact .call (ihCallee hFaithful.1.2) (hCallee.isDeclaration rfl)
        (fun n hn => ihArguments n hn (hFaithful.2 n hn))
        fun n hn => (hArguments n hn).isDeclaration rfl
  | construct hCallee hArguments ihCallee ihArguments =>
      simp only [faithful_construct, Bool.and_eq_true, faithfulAll_eq_true] at hFaithful
      exact .construct (ihCallee hFaithful.1.2) (hCallee.isDeclaration rfl)
        (fun n hn => ihArguments n hn (hFaithful.2 n hn))
        fun n hn => (hArguments n hn).isDeclaration rfl
  | member hOwner h ih =>
      simp only [faithful_member, Bool.and_eq_true] at hFaithful
      refine .member (ih hFaithful.1.2) (hOwner.isDeclaration rfl) ?_ h
      intro hFence hOperation
      cases hOwner <;> first | rfl | (cases hFence; done) | cases hOperation
  | computedMember hOwner hKey ihOwner ihKey =>
      simp only [faithful_member, Bool.and_eq_true] at hFaithful
      exact .computedMember (ihOwner hFaithful.1.2) (hOwner.isDeclaration rfl) (ihKey hFaithful.2)
        (hKey.isDeclaration rfl)
  | assign _ hLeft hRight ihLeft ihRight =>
      simp only [faithful_assign, Bool.and_eq_true] at hFaithful
      exact .assign (ihLeft hFaithful.1.1) (hLeft.isDeclaration rfl) (ihRight hFaithful.2)
        (hRight.isDeclaration rfl)
  | update hTarget _ ih => exact .update hTarget (ih hFaithful)
  | binary hLeft hRight ihLeft ihRight =>
      simp only [faithful_binary, Bool.and_eq_true] at hFaithful
      exact .binary (ihLeft hFaithful.1.2) (hLeft.isDeclaration rfl) (ihRight hFaithful.2)
        (hRight.isDeclaration rfl)
  | logical hLeft hRight ihLeft ihRight =>
      simp only [faithful_logical, Bool.and_eq_true] at hFaithful
      exact .logical (ihLeft hFaithful.1) (hLeft.isDeclaration rfl) (ihRight hFaithful.2)
        (hRight.isDeclaration rfl)
  | unary hArgument ih =>
      exact .unary (ih hFaithful) (hArgument.isDeclaration rfl)
        (hArgument.opensOperand_bare hFaithful)
  | conditional hTest hConsequent hAlternate ihTest ihConsequent ihAlternate =>
      simp only [faithful_conditional, Bool.and_eq_true] at hFaithful
      exact .conditional (ihTest hFaithful.1.1) (hTest.isDeclaration rfl)
        (ihConsequent hFaithful.1.2) (hConsequent.isDeclaration rfl) (ihAlternate hFaithful.2)
        (hAlternate.isDeclaration rfl)
  | shorthand h => exact .shorthand h
  | property hKey hValue ihKey ihValue =>
      simp only [faithful_property, Bool.and_eq_true] at hFaithful
      exact .property (ihKey hFaithful.1.2) (hKey.isDeclaration rfl) (ihValue hFaithful.2)
        (hValue.isDeclaration rfl)
  | methodProperty hKey hParams hBody ihKey ihParams ihBody =>
      simp only [faithful_property, faithful_function, Bool.and_eq_true, faithfulAll_eq_true] at hFaithful
      exact .methodProperty (ihKey hFaithful.1.2) (hKey.isDeclaration rfl)
        (fun n hn => ihParams n hn (hFaithful.2.1.1 n hn))
        (fun n hn => (hParams n hn).isDeclaration rfl) (ihBody hFaithful.2.2)
        (hBody.isDeclaration rfl)
  | method hKey hParams hBody _ ihKey ihParams ihBody =>
      simp only [faithful_method, faithful_function, Bool.and_eq_true, faithfulAll_eq_true] at hFaithful
      exact .method (ihKey (faithful_of_namesMethod false hFaithful.1)) (hKey.isDeclaration rfl)
        (fun n hn => ihParams n hn (hFaithful.2.1.1 n hn))
        (fun n hn => (hParams n hn).isDeclaration rfl) (ihBody hFaithful.2.2)
        (hBody.isDeclaration rfl)

end Formed

end CodeShape
