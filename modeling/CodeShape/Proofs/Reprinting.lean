import CodeShape.Node.Equality
import CodeShape.Proofs.Forming
import CodeShape.Proofs.Rereading

/-!
Programs that are printed and parsed again. The text of a program has its statements on lines of
their own; the scanner gives the words of each statement, of which the first stands on a new line,
and the parser reads them as the statement.
-/
namespace CodeShape

open CodeShape.Parser Lexeme Node Grammar Unread

section Lines

/-- The words of lines of text. -/
def onLines : List (List Lexeme) → List (Lexeme × Bool)
  | [] => []
  | ws :: wss => ws.map (·, false) ++ flagged true (onLines wss)

/-- Tokens on lines, each of which spells words of its own. -/
inductive Lined : List Token → List (List Lexeme) → Prop where
  | nil : Lined [] []
  | cons {tokens tokens' : List Token} {ws : List Lexeme} {wss : List (List Lexeme)}
      (hLine : Spelled tokens ws) (hMore : Lined tokens' wss) :
      Lined (tokens ++ tokens') (ws :: wss)

variable {tokens : List Token} {wss : List (List Lexeme)} {ns : List Node} {f : Node → String}
variable {u : Node → List Lexeme}

theorem Lined.of_flagged {lineEnd : Bool} (hNonempty : ∀ ws ∈ wss, ws ≠ [])
    (h : tokens.map (fun t => (t.word.plain, t.afterLineEnd)) = flagged lineEnd (onLines wss)) :
    Lined tokens wss := by
  induction wss generalizing tokens lineEnd with
  | nil =>
      cases List.map_eq_nil_iff.1 h
      exact .nil
  | cons ws wss ih =>
      rw [List.forall_mem_cons] at hNonempty
      have hFlag : flagged lineEnd (onLines (ws :: wss)) =
          flagged lineEnd (ws.map (·, false)) ++ flagged true (onLines wss) := by
        cases ws with
        | nil => exact absurd rfl hNonempty.1
        | cons => rfl
      rw [hFlag] at h
      obtain ⟨line, more, rfl, hLine, hMore⟩ := List.map_eq_append_iff.1 h
      exact .cons (.of_flagged hLine) (ih hNonempty.2 hMore)

theorem Lined.words_eq (h : Lined tokens wss) : tokens.map (·.word.plain) = wss.flatten := by
  induction h with
  | nil => rfl
  | cons hLine _ ih => rw [List.map_append, hLine.words_eq, ih, List.flatten_cons]

/-- A line goes on with no word of the next one, since a line end is between them. -/
theorem scans_lines (h : ∀ n ∈ ns, Spells (f n).toList (u n) EndsNumber) :
    Scans false 0 ("\n".intercalate (ns.map f)).toList (onLines (ns.map u)) [] := by
  induction ns with
  | nil => exact .nil
  | cons n ns ih =>
      rw [List.forall_mem_cons] at h
      have hMore := ih h.2
      cases ns with
      | nil => simpa [onLines, flagged] using h.1 false 0 [] [] [] (fun _ hc => by cases hc) .nil
      | cons n' ns =>
          have hLine := h.1 false 0 ('\n' :: ("\n".intercalate ((n' :: ns).map f)).toList) _ _
            (endsNumber_append (t := ['\n']) (by decide)) (.gap (n := 0) (l := true) rfl hMore)
          simpa [onLines] using hLine

/-- Lines that spell words are scanned as these words. -/
theorem exists_lined (h : ∀ n ∈ ns, Spells (f n).toList (u n) EndsNumber)
    (hNonempty : ∀ n ∈ ns, u n ≠ []) :
    ∃ stream, TokenStream.ofText ("\n".intercalate (ns.map f)) = .ok stream ∧
      Lined stream.words (ns.map u) := by
  obtain ⟨stream, last, hTokens, hWords, -⟩ := scans_lines h _ (Nat.lt_succ_self _) none rfl 0
  rw [← flagged_false (onLines _)] at hWords
  refine ⟨stream, ?_, .of_flagged (by simpa using hNonempty) hWords⟩
  rw [TokenStream.ofText, hTokens]
  rfl

end Lines

section Statements

variable {ns : List Node} {tokens : List Token} {stop : Text.Span}

/-- What stands after a statement starts the next one. -/
theorem Lined.startsStatement (h : Lined tokens (ns.map fun n => n.statementWords n.words))
    (hStarts : ∀ n ∈ ns, (n.statementWords n.words).head?.any Lexeme.startsStatement = true) :
    (nextWord tokens).all Lexeme.startsStatement = true := by
  cases ns with
  | nil =>
      cases h
      rfl
  | cons n ns =>
      have hFirst := hStarts n List.mem_cons_self
      cases h with
      | cons hLine hMore =>
          rw [hLine.nextWord_append, head?_or (ne_nil_of_starts hFirst)]
          cases hWords : n.statementWords n.words with
          | nil => rfl
          | cons w ws =>
              rw [hWords] at hFirst
              exact hFirst

/-- Statements on lines of their own are taken one by one. -/
theorem Lined.collect_eq {step : Parser (Option Node)}
    (h : Lined tokens (ns.map fun n => n.statementWords n.words))
    (hStarts : ∀ n ∈ ns, (n.statementWords n.words).head?.any Lexeme.startsStatement = true)
    (hReads : ∀ n ∈ ns, Reads step (n.statementWords n.words) (some n) n.EndsStatement)
    (hStop : step ⟨[], stop⟩ = .ok (none, ⟨[], stop⟩)) {limit : Nat}
    (hLimit : tokens.length < limit) :
    collect step limit ⟨tokens, stop⟩ = .ok (ns, ⟨[], stop⟩) := by
  induction ns generalizing tokens limit with
  | nil =>
      cases h
      cases limit with
      | zero => exact absurd hLimit (Nat.not_lt_zero _)
      | succ limit =>
          change (step ⟨[], stop⟩ >>= _) = _
          rw [hStop]
          rfl
  | cons n ns ih =>
      rw [List.forall_mem_cons] at hStarts hReads
      cases h with
      | @cons line more _ _ hLine hMore =>
          have hLength : 0 < line.length := by
            rw [hLine.length_eq]
            exact List.length_pos_iff.2 (ne_nil_of_starts hStarts.1)
          rw [List.length_append] at hLimit
          cases limit with
          | zero => exact absurd hLimit (Nat.not_lt_zero _)
          | succ limit =>
              have hStep := hReads.1 line more stop hLine
                (endsStatement_of_starts (hMore.startsStatement hStarts.2))
              have hCollect : collect step limit ⟨more, stop⟩ = .ok (ns, ⟨[], stop⟩) :=
                ih hMore hStarts.2 hReads.2 (by omega)
              change (step ⟨line ++ more, stop⟩ >>= fun r => _) = _
              rw [hStep]
              change (collect step limit ⟨more, stop⟩ >>= fun r => _) = _
              rw [hCollect]
              rfl

end Statements

namespace Node

/-- A formed program whose text has the parentheses that it needs survives printing and parsing. -/
theorem parseProgram_render_of_formed {body : List Node} (h : ∀ n ∈ body, Formed .statement n)
    (hFaithful : (program body).faithful false = true) :
    parseProgram (program body).render = .ok (program body) := by
  rw [faithful_program, faithfulAll_eq_true] at hFaithful
  have hStarts := fun n hn => (h n hn).startsStatement (hFaithful n hn)
  obtain ⟨stream, hStream, hLined⟩ := exists_lined
    (f := fun n => n.statement n.bare) (u := fun n => n.statementWords n.words)
    (fun n hn => ((h n hn).lettered (hFaithful n hn)).statement (h n hn).isWildcard)
    fun n hn => ne_nil_of_starts (hStarts n hn)
  have hText : (program body).render = "\n".intercalate (body.map fun n => n.statement n.bare) := by
    change "\n".intercalate (List.zipWith Node.statement body (bareAll body)) = _
    rw [bareAll_eq_map, zipWith_map_self]
  let step : Parser (Option Node) := do
    if ← atEnd then return none else return some (← stream.grammar.statement false)
  have hReads : ∀ n ∈ body, Reads step (n.statementWords n.words) (some n) n.EndsStatement := by
    intro n hn
    have hWeight := weightOf_le_flatten
      (List.mem_map_of_mem (f := fun n => n.statementWords n.words) hn)
    rw [← hLined.words_eq, weightOf_plain] at hWeight
    have hStatement : RereadsStatement n := (h n hn).rereads
    exact .look (looks_atEnd (F := fun _ => True) (ne_nil_of_starts (hStarts n hn)))
      (hStatement.reads (hFaithful n hn) (Nat.lt_succ_of_le hWeight)).done fun _ _ => trivial
  have hRun : many step stream = .ok (body, ⟨[], stream.stop⟩) :=
    hLined.collect_eq hStarts hReads rfl (Nat.lt_succ_self _)
  rw [hText, parseProgram, hStream]
  change (many step stream >>= fun r => pure (program r.1)) = _
  rw [hRun]
  rfl

/-- Parsing undoes printing for every tree that a text holds, unless the text of the tree lacks
parentheses. -/
theorem parseProgram_render {text : String} {t : Node} (h : parseProgram text = .ok t)
    (hFaithful : t.faithful false = true) : parseProgram t.render = .ok t := by
  obtain ⟨body, rfl, hBody⟩ := formed_of_parseProgram h
  exact parseProgram_render_of_formed hBody hFaithful

/-- The text of the tree has semicolons and parentheses of its own. -/
theorem parseProgram_render_arrow :
    ∃ text t, text = "if (a) b\nelse c = d => (\x7b\x7d)" ∧ parseProgram text = .ok t ∧
      t.faithful false = true ∧ t.render = "if (a) b; else c = (d) => (\x7b\x7d);" ∧
      parseProgram t.render = .ok t := by
  generalize hText : "if (a) b\nelse c = d => (\x7b\x7d)" = text
  have hOk : (parseProgram text).toOption.any (fun t => t.faithful false &&
      t.render == "if (a) b; else c = (d) => (\x7b\x7d);") = true := by
    rw [← hText]
    decide +kernel
  cases hParse : parseProgram text with
  | error fault => simp [hParse, Except.toOption] at hOk
  | ok t =>
      simp only [hParse, Except.toOption, Option.any_some, Bool.and_eq_true, beq_iff_eq] at hOk
      exact ⟨text, t, rfl, hParse, hOk.1, hOk.2, parseProgram_render hParse hOk.1⟩

/-- Whether a text is a program whose own text is a program with an equal tree. -/
def reprints (text : String) : Bool :=
  match parseProgram text with
  | .ok t =>
    match parseProgram t.render with
    | .ok t' => t' == t
    | .error _ => false
  | .error _ => false

/-- An unprotected sequence, update, function or object is read as something else: the texts are
programs, but the texts of their trees are none or have other trees. -/
theorem reprints_differ :
    ["a = (b, c);", "(a, b), c;", "new (f())();", "(a++).x;", "(function() {})[x];", "({}) + x;",
      "class A { [a + b]() {} }", "for (x of (a, b)) ;", "for (x = (a in b); ;) ;", "(async)(x);"].all
      (fun text => (parseProgram text).toOption.isSome && !reprints text) = true := by
  simp only [List.all_cons, List.all_nil, Bool.and_eq_true, Bool.and_true]
  -- one text at a time
  refine ⟨?_, ?_, ?_, ?_, ?_, ?_, ?_, ?_, ?_, ?_⟩ <;> decide +kernel

end Node

end CodeShape
