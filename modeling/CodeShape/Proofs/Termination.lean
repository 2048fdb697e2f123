import CodeShape.Proofs.Faults
import CodeShape.Proofs.Progress
import CodeShape.Proofs.Wrapping

/-!
Parsing comes to an end. The rules of the grammar are defined level by level, the loops go round a
limited number of times and the scanner has a budget. None of these bounds is ever felt: there is
just one grammar whose rules are built over themselves, every loop stops by itself, and the budget
does not matter once it covers the text.
-/
namespace CodeShape

open CodeShape.Parser

namespace Parser

variable {α β : Type}

/-- Whenever the parser gives a value, it has taken a word, and has not gone past the end. -/
def Progresses (p : Parser α) : Prop := ∀ s a rest, p s = .ok (a, rest) → s.Leaves true rest

/-- What takes a word under every limit goes forward. -/
theorem progresses_of_takes {p q : Parser α} (h : ∀ limit, Takes (limit + 1) p q) :
    Progresses p :=
  fun s a rest hRun => ((h s.weight).from_start (Nat.lt_succ_self _)).2 a rest hRun

section Loops

variable {step : Parser (Option α)} {grown : α → Parser (Option α)}

/-- Whenever the step gives something, it has taken a word. -/
def Consumes (step : Parser (Option α)) : Prop :=
  ∀ s a rest, step s = .ok (some a, rest) → s.Leaves true rest

/-- A step that has taken a word wherever it goes on consumes. -/
theorem consumes_of_advances
    (h : ∀ limit, Advances (limit + 1) false false step step fun o => false || o.isSome) :
    Consumes step :=
  fun s a rest hRun => ((h s.weight).from_start (Nat.lt_succ_self _)).2 (some a) rest hRun

/-- What comes after a step that gives something only has to agree on shorter streams. -/
theorem Consumes.bind_congr (h : Consumes step) {f f' : Option α → Parser β} {s : TokenStream}
    (hNone : f none = f' none)
    (hSome : ∀ a rest, rest.words.length < s.words.length → f (some a) rest = f' (some a) rest) :
    (step >>= f) s = (step >>= f') s := by
  change (step s >>= fun r => f r.1 r.2) = (step s >>= fun r => f' r.1 r.2)
  cases hStep : step s with
  | error fault => rfl
  | ok r =>
      obtain ⟨o, rest⟩ := r
      cases o with
      | none => exact congrFun hNone rest
      | some a => exact hSome a rest (h s a rest hStep).length_lt

/-- Going round a loop comes to an end, and the loop goes round until then. -/
structure Halts (step : Parser (Option α)) : Prop where
  wellFounded : WellFounded fun rest s => ∃ a, step s = .ok (some a, rest)
  many_eq : many step = do
    match ← step with
    | none => return []
    | some a => return a :: (← many step)

/-- A loop has no use for more rounds than there are words. -/
theorem Consumes.collect_eq (h : Consumes step) {rounds rounds' : Nat} {s : TokenStream}
    (hRounds : s.words.length < rounds) (hRounds' : s.words.length < rounds') :
    collect step rounds s = collect step rounds' s := by
  induction rounds generalizing rounds' s with
  | zero => omega
  | succ rounds ih =>
      obtain ⟨rounds', rfl⟩ := Nat.exists_eq_succ_of_ne_zero (by omega : rounds' ≠ 0)
      rw [collect, collect]
      apply h.bind_congr
      · rfl
      · intro a rest hShorter
        have hRest : collect step rounds rest = collect step rounds' rest :=
          ih (by omega) (by omega)
        change (collect step rounds rest >>= _) = (collect step rounds' rest >>= _)
        rw [hRest]

/-- A repetition of a step that consumes ends before its bound. -/
theorem Consumes.halts (h : Consumes step) : Halts step where
  wellFounded := by
    apply Subrelation.wf _ (measure fun s : TokenStream => s.words.length).wf
    intro rest s hRound
    obtain ⟨a, hStep⟩ := hRound
    exact (h s a rest hStep).length_lt
  many_eq := by
    funext s
    change collect step (s.words.length + 1) s = _
    rw [collect]
    apply h.bind_congr
    · rfl
    · intro a rest hShorter
      have hRest : collect step s.words.length rest = many step rest :=
        h.collect_eq hShorter (Nat.lt_succ_self _)
      change (collect step s.words.length rest >>= _) = (many step rest >>= _)
      rw [hRest]

/-- Extending a value comes to an end, and the value is extended until then. -/
structure GrowthHalts (grown : α → Parser (Option α)) : Prop where
  wellFounded : WellFounded fun next now : α × TokenStream =>
    grown now.1 now.2 = .ok (some next.1, next.2)
  grow_eq : ∀ a, grow grown a = do
    match ← grown a with
    | none => return a
    | some b => grow grown b

/-- An extension by steps that consume is the same under all bounds that are large enough. -/
theorem extend_eq (h : ∀ a, Consumes (grown a)) (a : α) {rounds rounds' : Nat} {s : TokenStream}
    (hRounds : s.words.length < rounds) (hRounds' : s.words.length < rounds') :
    extend grown a rounds s = extend grown a rounds' s := by
  induction rounds generalizing rounds' s a with
  | zero => omega
  | succ rounds ih =>
      obtain ⟨rounds', rfl⟩ := Nat.exists_eq_succ_of_ne_zero (by omega : rounds' ≠ 0)
      rw [extend, extend]
      apply (h a).bind_congr
      · rfl
      · intro b rest hShorter
        exact ih b (by omega) (by omega)

theorem growthHalts (h : ∀ a, Consumes (grown a)) : GrowthHalts grown where
  wellFounded := by
    apply Subrelation.wf _ (measure fun now : α × TokenStream => now.2.words.length).wf
    intro next now hRound
    exact (h now.1 now.2 next.1 next.2 hRound).length_lt
  grow_eq a := by
    funext s
    change extend grown a (s.words.length + 1) s = _
    rw [extend]
    apply (h a).bind_congr
    · rfl
    · intro b rest hShorter
      exact extend_eq h b hShorter (Nat.lt_succ_self _)

/-- After something else, the parser goes through the loop of a step, which halts, and makes a value
of what the loop gives. -/
def LoopsOver (step : Parser (Option α)) (p : Parser β) : Prop :=
  Halts step ∧ ∃ (γ : Type) (before : Parser γ) (make : γ → List α → β),
    p = do return make (← before) (← many step)

/-- The parser extends a value by a step, which halts. -/
def Grows (grown : α → Parser (Option α)) (p : Parser α) : Prop :=
  GrowthHalts grown ∧ ∃ before, p = before >>= grow grown

end Loops

end Parser

namespace Grammar

/-- The rules without a bound: every stream is read at a level that it cannot exhaust. -/
def unbounded : Grammar where
  statement noIn := fun s => s.grammar.statement noIn s
  assignment noIn := fun s => s.grammar.assignment noIn s
  binary noIn power := fun s => s.grammar.binary noIn power s
  unary := fun s => s.grammar.unary s
  call := fun s => s.grammar.call s
  constructed := fun s => s.grammar.constructed s

/-- A level is the ground with the rules built over it that many times. -/
theorem level_eq_iterate (n : Nat) : level n = lifted^[n] ground := by
  induction n with
  | zero => rfl
  | succ n ih => rw [Function.iterate_succ_apply', ← ih, level]

/-- Two levels run alike on streams that are lighter than both. -/
theorem linked_level {limit n k : Nat} (hn : limit ≤ n) (hk : limit ≤ k) :
    (level n).Linked limit (level k) := by
  obtain ⟨n, rfl⟩ := Nat.exists_eq_add_of_le hn
  obtain ⟨k, rfl⟩ := Nat.exists_eq_add_of_le hk
  rw [level_eq_iterate, level_eq_iterate, Function.iterate_add_apply, Function.iterate_add_apply]
  exact linked_iterate _ _ limit

/-- A stream is read alike at every level that it cannot exhaust. -/
theorem takes_unbounded {α : Type} {rule : Grammar → Parser α}
    (h : ∀ limit g g', Linked limit g g' → Takes limit (rule g) (rule g')) (n : Nat) :
    Takes n (rule (level n)) fun s => rule s.grammar s := by
  intro start s hLight hLeaves _
  have hWeight := hLeaves.weight_le
  have hLinked : (level n).Linked (s.weight + 1) s.grammar :=
    linked_level (by omega) (Nat.le_refl _)
  obtain ⟨hSame, hOk⟩ := (h _ _ _ hLinked).from_start (Nat.lt_succ_self _)
  exact ⟨hSame, fun a rest hRun => hLeaves.trans (hOk a rest hRun)⟩

theorem level_linked_unbounded (n : Nat) : (level n).Linked n unbounded where
  statement noIn := takes_unbounded (fun _ _ _ h => h.statement noIn) n
  assignment noIn := takes_unbounded (fun _ _ _ h => h.assignment noIn) n
  binary noIn power := takes_unbounded (fun _ _ _ h => h.binary noIn power) n
  unary := takes_unbounded (fun _ _ _ h => h.unary) n
  call := takes_unbounded (fun _ _ _ h => h.call) n
  constructed := takes_unbounded (fun _ _ _ h => h.constructed) n

/-- Grammars that all levels are linked with are the same. -/
theorem eq_of_linked {g g' : Grammar} (h : ∀ n, (level n).Linked n g)
    (h' : ∀ n, (level n).Linked n g') : g = g' := by
  have hSame : ∀ {α : Type} {level p q : Parser α} {s : TokenStream},
      Takes (s.weight + 1) level p → Takes (s.weight + 1) level q → p s = q s := by
    intro α level p q s hp hq
    rw [← (hp.from_start (Nat.lt_succ_self _)).1, ← (hq.from_start (Nat.lt_succ_self _)).1]
  cases g
  cases g'
  rw [mk.injEq]
  refine ⟨?_, ?_, ?_, ?_, ?_, ?_⟩
  · funext noIn s
    exact hSame ((h _).statement noIn) ((h' _).statement noIn)
  · funext noIn s
    exact hSame ((h _).assignment noIn) ((h' _).assignment noIn)
  · funext noIn power s
    exact hSame ((h _).binary noIn power) ((h' _).binary noIn power)
  · funext s
    exact hSame (h _).unary (h' _).unary
  · funext s
    exact hSame (h _).call (h' _).call
  · funext s
    exact hSame (h _).constructed (h' _).constructed

/-- Every grammar that is built over itself runs as the levels do. -/
theorem linked_level_of_lifted {g : Grammar} (h : g.lifted = g) (n : Nat) :
    (level n).Linked n g := by
  have hLinked := linked_iterate ground g n
  rwa [← level_eq_iterate, Function.iterate_fixed h] at hLinked

/-- The rules without a bound are built over themselves. -/
theorem unbounded_lifted : unbounded.lifted = unbounded := by
  apply eq_of_linked _ level_linked_unbounded
  intro n
  cases n with
  | zero => exact linked_zero _ _
  | succ n => exact (level_linked_unbounded n).lifted

/-- No other grammar is built over itself. -/
theorem eq_unbounded_of_lifted {g : Grammar} (h : g.lifted = g) : g = unbounded :=
  eq_of_linked (linked_level_of_lifted h) level_linked_unbounded

/-- Whatever levels are built on, they read the streams that are lighter than their number without a
bound. -/
theorem linked_unbounded (g : Grammar) (n : Nat) : (lifted^[n] g).Linked n unbounded := by
  have hLinked := linked_iterate g unbounded n
  rwa [Function.iterate_fixed unbounded_lifted] at hLinked

theorem unbounded_linked (n : Nat) : unbounded.Linked n unbounded := by
  have hLinked := linked_unbounded unbounded n
  rwa [Function.iterate_fixed unbounded_lifted] at hLinked

/-- The rules that loops and other rules rely on go forward. -/
structure GoesForward (g : Grammar) : Prop where
  statement (noIn : Bool) : Progresses (g.statement noIn)
  expression (noIn : Bool) : Progresses (g.expression noIn)
  assignment (noIn : Bool) : Progresses (g.assignment noIn)
  primary : Progresses g.primary
  property : Progresses g.property
  method : Progresses g.method
  block (noIn : Bool) : Progresses (g.block noIn)

/-- Every rule of the grammar goes forward. -/
theorem goesForward_unbounded : unbounded.GoesForward where
  statement noIn := progresses_of_takes fun n => (unbounded_linked (n + 1)).statement noIn
  expression noIn := progresses_of_takes fun n => (unbounded_linked (n + 1)).expression noIn
  assignment noIn := progresses_of_takes fun n => (unbounded_linked (n + 1)).assignment noIn
  primary := progresses_of_takes fun n => (unbounded_linked n).primary
  property := progresses_of_takes fun n => (unbounded_linked n).property
  method := progresses_of_takes fun n => (unbounded_linked n).method
  block noIn := progresses_of_takes fun n => (unbounded_linked n).block noIn

def program (g : Grammar) : Parser Node := do return .program (← many g.programStep)

def single (g : Grammar) : Parser Node := do
  let e ← g.assignment false
  discard (eat .semicolon)
  if ← atEnd then return e else expected endOfInput

/-- Programs are read alike by grammars that are linked. -/
theorem Linked.program {limit : Nat} {g g' : Grammar} (h : g.Linked limit g') :
    Advances limit false false g.program g'.program fun _ => false := by
  refine .bind (.many ?_) fun _ => .pure nofun
  exact .atEnd (.pure nofun) (.bind (h.statement false).anywhere fun _ => .pure nofun)

/-- Single expressions are read alike by grammars that are linked. -/
theorem Linked.single {limit : Nat} {g g' : Grammar} (h : g.Linked limit g') :
    Takes limit g.single g'.single := by
  refine .bind (h.assignment false) fun e => .mapped .eats fun _ => ?_
  refine .watch watches_atEnd fun _ => .ite (fun _ => .pure fun _ => rfl) fun _ => ?_
  exact (fails_expected _).advances

/-- What stands between the name of a class and its members. -/
def classHead (g : Grammar) : Parser (Option Node) := do
  let superclass ← if ← eatName "extends" then some <$> g.call else pure none
  expect .openBrace
  return superclass

/-- Every loop of the grammar comes to an end by itself. -/
structure LoopsEnd (g : Grammar) : Prop where
  program : LoopsOver g.programStep g.program
  block (noIn : Bool) :
    LoopsOver (enclosedStep .closeBrace (g.statementItem noIn)) (g.block noIn)
  arguments :
    LoopsOver (enclosedStep .closeParen (listItem .closeParen (spreadable (g.assignment false))))
      g.arguments
  parameters : LoopsOver (enclosedStep .closeParen (listItem .closeParen g.parameter)) g.parameters
  object : LoopsOver (enclosedStep .closeBrace (listItem .closeBrace g.property)) g.object
  array : LoopsOver (enclosedStep .closeBracket g.element) g.array
  classRest (expression : Bool) (id : Option String) :
    LoopsOver (enclosedStep .closeBrace g.memberItem) (g.classRest expression id)
  assignments (noIn : Bool) :
    LoopsOver (commaStep (g.assignment noIn)) (commaSeparated (g.assignment noIn))
  declarators (noIn : Bool) :
    LoopsOver (commaStep (g.declarator noIn)) (commaSeparated (g.declarator noIn))
  constructed : Grows g.accessStep g.constructedRule
  call : Grows g.operandStep g.callRule
  binary (noIn : Bool) (power : Nat) : Grows (g.operatorStep noIn power) (g.binaryRule noIn power)

section Loops

variable {α β γ : Type} {before : Parser γ} {item : Parser (List α)} {close : Punct}

/-- Items up to a closing sign are a loop, if each of them takes a word. -/
theorem loopsOver_enclosed (h : ∀ limit, Takes (limit + 1) item item)
    (make : γ → List α → β) :
    LoopsOver (enclosedStep close item) (do return make (← before) (← enclosed close item)) := by
  refine ⟨(consumes_of_advances fun limit => .enclosedStep (h limit)).halts,
    γ, before, fun c as => make c as.flatten, ?_⟩
  congr 1
  funext c
  rw [enclosed, bind_map_left]
  rfl

/-- A loop at the end of a parser. -/
theorem loopsOver_last (h : ∀ limit, Takes (limit + 1) item item) :
    LoopsOver (enclosedStep close item) (before >>= fun _ => enclosed close item) := by
  have hLoop : (before >>= fun _ => enclosed close item) =
      do return (fun _ as => as) (← before) (← enclosed close item) := by
    simp only [bind_pure]
  rw [hLoop]
  exact loopsOver_enclosed h _

/-- A list without brackets is a loop that ends. -/
theorem loopsOver_commaSeparated {item : Parser α} (h : ∀ limit, Takes (limit + 1) item item) :
    LoopsOver (commaStep item) (commaSeparated item) :=
  ⟨(consumes_of_advances fun limit => .commaStep (h limit)).halts, α, item, List.cons, rfl⟩

end Loops

/-- Every loop of the grammar ends. -/
theorem loopsEnd_unbounded : unbounded.LoopsEnd where
  program := by
    refine ⟨(consumes_of_advances fun n => ?_).halts, PUnit, pure ⟨⟩, fun _ => .program, rfl⟩
    exact .atEnd (.pure nofun) (.done ((unbounded_linked (n + 1)).statement false).anywhere)
  block noIn := loopsOver_enclosed (fun n => (unbounded_linked (n + 1)).statementItem noIn) _
  arguments := loopsOver_last fun n =>
    .listItem (takes_spreadable ((unbounded_linked (n + 1)).assignment false))
  parameters := loopsOver_last fun n => .listItem (unbounded_linked n).parameter
  object := loopsOver_enclosed (fun n => .listItem (unbounded_linked n).property) _
  array := loopsOver_enclosed (fun n => (unbounded_linked (n + 1)).element) _
  classRest expression id := by
    have hBody : unbounded.classRest expression id = (do
        return Node.classDef (id.map .ident) (← unbounded.classHead)
          (← enclosed .closeBrace unbounded.memberItem) expression) := by
      rw [classRest, classHead, bind_assoc]
      congr 1
      funext hasSuperclass
      cases hasSuperclass with
      | true =>
          simp only [if_true, bind_assoc, pure_bind]
          rfl
      | false =>
          simp only [Bool.false_eq_true, if_false, bind_assoc, pure_bind]
          rfl
    rw [hBody]
    exact loopsOver_enclosed (fun n => (unbounded_linked n).memberItem)
      fun superclass members => Node.classDef (id.map .ident) superclass members expression
  assignments noIn := loopsOver_commaSeparated fun n => (unbounded_linked (n + 1)).assignment noIn
  declarators noIn := loopsOver_commaSeparated fun n => (unbounded_linked n).declarator noIn
  constructed :=
    ⟨growthHalts fun e => consumes_of_advances fun n => (unbounded_linked n).accessStep e, _, rfl⟩
  call :=
    ⟨growthHalts fun e => consumes_of_advances fun n => (unbounded_linked n).operandStep e, _, rfl⟩
  binary noIn power :=
    ⟨growthHalts fun e => consumes_of_advances fun n =>
      (unbounded_linked n).operatorStep noIn power e, _, rfl⟩

/-- The look past brackets for an arrow, by kinds of brackets. -/
theorem arrowAfter_bracket (depth : Nat) (t : Token) (ts : List Token) :
    arrowAfter depth (t :: ts) =
      if t.word.isOpening then arrowAfter (depth + 1) ts
      else if t.word.isClosing then
        if depth = 1 then (ts[0]?.map Located.word).any (Lexeme.isSign .arrow)
        else arrowAfter (depth - 1) ts
      else arrowAfter depth ts := by
  obtain ⟨word, span, flag⟩ := t
  rw [arrowAfter_cons]
  cases word with
  | punct sign => cases sign <;> rfl
  | _ => rfl

/-- The look for an arrow with the number of the last word that it looks at. There is no answer if a
bracket is closed while none is open. -/
def arrowSearch (depth reach : Nat) : List Token → Option (Bool × Nat)
  | [] => some (false, reach)
  | t :: ts =>
    if t.word.isOpening then arrowSearch (depth + 1) (reach + 1) ts
    else if t.word.isClosing then
      if depth = 0 then none
      else if depth = 1 then
        some ((ts[0]?.map Located.word).any (Lexeme.isSign .arrow), reach + 1)
      else arrowSearch (depth - 1) (reach + 1) ts
    else arrowSearch depth (reach + 1) ts

/-- As long as a bracket is open there is an answer, and the look does not go past the end. -/
theorem exists_arrowSearch {depth : Nat} (hDepth : 0 < depth) (reach : Nat) (ts : List Token) :
    ∃ last ≤ reach + ts.length, arrowSearch depth reach ts = some (arrowAfter depth ts, last) := by
  induction ts generalizing depth reach with
  | nil => exact ⟨reach, Nat.le_refl _, rfl⟩
  | cons t ts ih =>
      rw [arrowSearch, arrowAfter_bracket, List.length_cons]
      split
      · obtain ⟨last, hLast, hSearch⟩ := ih (Nat.succ_pos depth) (reach + 1)
        exact ⟨last, by omega, hSearch⟩
      · split
        · rw [if_neg (Nat.ne_of_gt hDepth)]
          split
          · exact ⟨reach + 1, by omega, rfl⟩
          · have hOpen : 0 < depth - 1 := by omega
            obtain ⟨last, hLast, hSearch⟩ := ih hOpen (reach + 1)
            exact ⟨last, by omega, hSearch⟩
        · obtain ⟨last, hLast, hSearch⟩ := ih hDepth (reach + 1)
          exact ⟨last, by omega, hSearch⟩

/-- The look for an arrow starts at an opening bracket, so it never closes more than are open, and
it stops at the end at the latest. -/
theorem seesArrow_eq_arrowSearch {s : TokenStream} (h : s.next? = some (.punct .openParen)) :
    ∃ answer last, arrowSearch 0 0 s.words = some (answer, last) ∧ last ≤ s.words.length ∧
      seesArrow s = .ok (answer, s) := by
  obtain ⟨words, stop⟩ := s
  cases words with
  | nil => cases h
  | cons t ts =>
      have hWord : t.word = .punct .openParen := Option.some.inj h
      obtain ⟨last, hLast, hSearch⟩ := exists_arrowSearch Nat.one_pos 1 ts
      refine ⟨arrowAfter 1 ts, last, ?_, ?_, ?_⟩
      · rw [arrowSearch, hWord]
        exact hSearch
      · rw [List.length_cons]
        omega
      · rw [watches_seesArrow]
        simp [hWord, arrowAfter_bracket, Lexeme.isSign, Lexeme.isOpening]

end Grammar

namespace Unread

variable {source : String} {u v : Unread}

/-- What is left to read gets no longer. -/
theorem Passes.length_le {cs : List Char} (h : u.Passes cs v) :
    v.chars.length ≤ u.chars.length := by
  rw [h.chars, List.length_append]
  omega

/-- A token takes at least one character. -/
theorem shorter_of_token {budget : Nat} {c : Char} {cs : List Char} {w : Lexeme}
    (hu : u.EndsIn source) (hc : u.chars = c :: cs) (h : token budget u c = .ok (w, v)) :
    v.EndsIn source ∧ v.chars.length < u.chars.length := by
  rcases exists_of_token h with ⟨rfl, quasis, parts, hPieces, rfl⟩ | ⟨-, n, hPlain, rfl⟩
  · have hTick := Passes.advance_one hc
    obtain ⟨⟨taken, hTaken⟩, -⟩ :=
      (fills_of_scan source budget).2 _ _ _ _ _ (hu.passes hTick) hPieces
    refine ⟨(hu.passes hTick).passes hTaken, ?_⟩
    rw [hTick.chars, List.length_append, List.length_singleton]
    have := hTaken.length_le
    omega
  · obtain ⟨hn, -⟩ := fills_of_plain hu hc hPlain
    refine ⟨hu.passes (.advance u n), ?_⟩
    rw [advance, List.length_drop, hc, List.length_cons]
    omega

/-- Scans with two budgets are alike where both budgets cover what is to be read. -/
structure ScansAlike (source : String) (budget budget' : Nat) : Prop where
  tokens : ∀ opening depth u, u.EndsIn source → u.chars.length < budget →
    u.chars.length < budget' → tokens budget opening depth u = tokens budget' opening depth u
  pieces : ∀ start u, u.EndsIn source → u.chars.length < budget →
    u.chars.length < budget' → pieces budget start u = pieces budget' start u

namespace ScansAlike

variable {budget budget' : Nat} (h : ScansAlike source budget budget')

include h

/-- After a gap, a token is taken before the rest is scanned. -/
theorem resume_eq (opening : Option Nat) (depth : Nat) (lineEnd : Bool) (hu : u.EndsIn source)
    (hBudget : u.chars.length < budget + 1) (hBudget' : u.chars.length < budget' + 1) :
    resume budget opening depth lineEnd u = resume budget' opening depth lineEnd u := by
  cases hc : u.chars with
  | nil => simp only [resume, hc]
  | cons c cs =>
      have hTick := Passes.advance_one hc
      have hRest : (u.advance 1).chars.length + 1 = u.chars.length := by
        rw [hTick.chars, List.length_append, List.length_singleton, Nat.add_comm]
      have hToken : token budget u c = token budget' u c := by
        rw [token, token, h.pieces _ _ (hu.passes hTick) (by omega) (by omega)]
      simp only [resume, hc, hToken]
      cases hNext : token budget' u c with
      | error fault => rfl
      | ok t =>
          obtain ⟨hEnds, hShorter⟩ := shorter_of_token hu hc hNext
          simp only [bind, Except.bind, h.tokens _ _ _ hEnds (by omega) (by omega)]

/-- Two budgets that are large enough give the same words. -/
theorem tokens_succ (opening : Option Nat) (depth : Nat) (hu : u.EndsIn source)
    (hBudget : u.chars.length < budget + 1) (hBudget' : u.chars.length < budget' + 1) :
    Unread.tokens (budget + 1) opening depth u = Unread.tokens (budget' + 1) opening depth u := by
  rw [Unread.tokens_succ, Unread.tokens_succ]
  cases hSkip : u.skipGaps false with
  | error fault => rfl
  | ok r =>
      obtain ⟨gap, hPasses, -⟩ := exists_of_skipGaps hSkip
      have hLength := hPasses.length_le
      exact h.resume_eq opening depth r.1 (hu.passes hPasses) (by omega) (by omega)

/-- Two budgets that are large enough give the same pieces of a template. -/
theorem pieces_succ (start : Nat) (hu : u.EndsIn source)
    (hBudget : u.chars.length < budget + 1) (hBudget' : u.chars.length < budget' + 1) :
    Unread.pieces (budget + 1) start u = Unread.pieces (budget' + 1) start u := by
  have hQuasi := Passes.advance u (quasiLength u.chars)
  have hLength := hQuasi.length_le
  have hEnds := hu.passes hQuasi
  rw [Unread.pieces, Unread.pieces]
  dsimp only
  generalize u.advance (quasiLength u.chars) = v at hLength hEnds
  split
  · rfl
  · next cs hNext =>
      have hInside : (v.advance 2).EndsIn source := hEnds.passes (.advance v 2)
      have hShorter : (v.advance 2).chars.length + 2 = v.chars.length := by
        rw [hNext, advance, List.length_drop, hNext, List.length_cons, List.length_cons]
        omega
      rw [h.tokens _ _ _ hInside (by omega) (by omega)]
      cases hTokens : Unread.tokens budget' (some (v.advance 2).offset) 0 (v.advance 2) with
      | error fault => rfl
      | ok r =>
          obtain ⟨⟨taken, hTaken⟩, -⟩ :=
            (fills_of_scan source budget').1 _ _ _ _ _ hInside hTokens
          have hLeft := hTaken.length_le
          have hPieces := h.pieces start r.2 (hInside.passes hTaken) (by omega) (by omega)
          change (Unread.pieces budget start r.2 >>= _) = (Unread.pieces budget' start r.2 >>= _)
          rw [hPieces]
  · rfl

end ScansAlike

/-- The budget of a scan makes no difference once it covers what is to be read. -/
theorem scansAlike (source : String) (budget budget' : Nat) :
    ScansAlike source budget budget' := by
  induction budget generalizing budget' with
  | zero =>
      refine ⟨?_, ?_⟩
      · intro _ _ _ _ hBudget
        omega
      · intro _ _ _ hBudget
        omega
  | succ budget ih =>
      cases budget' with
      | zero =>
          refine ⟨?_, ?_⟩
          · intro _ _ _ _ _ hBudget'
            omega
          · intro _ _ _ _ hBudget'
            omega
      | succ budget' =>
          refine ⟨?_, ?_⟩
          · intro opening depth u hu
            exact (ih budget').tokens_succ opening depth hu
          · intro start u hu
            exact (ih budget').pieces_succ start hu

end Unread

namespace TokenStream

/-- The scanner's own budget is large enough. -/
theorem ofText_eq_tokens {text : String} {budget : Nat} (h : text.toList.length < budget) :
    (Unread.tokens budget none 0 ⟨0, text.toList⟩).map Prod.fst = ofText text := by
  have hScan := (Unread.scansAlike text budget (text.toList.length + 1)).tokens none 0
    ⟨0, text.toList⟩ (.start text) h (Nat.lt_succ_self _)
  rw [ofText, hScan]
  cases Unread.tokens (text.toList.length + 1) none 0 ⟨0, text.toList⟩ <;> rfl

end TokenStream

namespace Node

open Grammar

/-- The tree that a parser makes of the tokens of a text. -/
def parseWith (p : Parser Node) (text : String) : Except Fault Node := do
  let stream ← TokenStream.ofText text
  let (n, _) ← p.run stream
  return n

/-- The level of the parser's grammar is not felt on programs. -/
theorem parseProgram_eq (text : String) : parseProgram text = parseWith unbounded.program text := by
  apply bind_congr
  intro stream
  have hLinked := level_linked_unbounded (stream.weight + 1)
  have hSame : stream.grammar.program stream = unbounded.program stream :=
    (hLinked.program.from_start (Nat.lt_succ_self _)).1
  rw [StateT.run, ← hSame]
  change _ = ((many stream.grammar.programStep stream >>= _) >>= _)
  rw [bind_assoc]
  rfl

/-- The level of the parser's grammar is not felt on expressions. -/
theorem parseExpression_eq (text : String) :
    parseExpression text = parseWith unbounded.single text := by
  apply bind_congr
  intro stream
  have hLinked := level_linked_unbounded (stream.weight + 1)
  have hSame : stream.grammar.single stream = unbounded.single stream :=
    (hLinked.single.from_start (Nat.lt_succ_self _)).1
  rw [StateT.run.eq_def unbounded.single, ← hSame]
  rfl

/-- A tree, or a fault at a place in the text. -/
def Settles (text : String) (outcome : Except Fault Node) : Prop :=
  (∃ n, outcome = .ok n) ∨ ∃ fault, outcome = .error fault ∧ fault.span.LiesIn text

/-- Parsing always goes forward and comes to an end. There is one grammar that is built over itself,
and levels of rules, whatever they are built on, read streams of a lower weight just like it. Its
rules take a word whenever they give something, and no more than there are; the look for an arrow
stops in time; and every loop ends. Texts are read by this grammar, which gives a tree or points at
a place in the text. -/
theorem parsing_ends :
    (unbounded.lifted = unbounded ∧ ∀ g : Grammar, g.lifted = g → g = unbounded) ∧
    (∀ (g : Grammar) (n : Nat), (lifted^[n] g).Linked n unbounded) ∧
    unbounded.GoesForward ∧ unbounded.LoopsEnd ∧
    (∀ s : TokenStream, s.next? = some (.punct .openParen) →
      ∃ answer last, arrowSearch 0 0 s.words = some (answer, last) ∧ last ≤ s.words.length ∧
        seesArrow s = .ok (answer, s)) ∧
    ∀ text : String,
      (∀ budget, text.toList.length < budget →
        (Unread.tokens budget none 0 ⟨0, text.toList⟩).map Prod.fst = TokenStream.ofText text) ∧
      (parseProgram text = parseWith unbounded.program text ∧ Settles text (parseProgram text)) ∧
      (parseExpression text = parseWith unbounded.single text ∧
        Settles text (parseExpression text)) := by
  refine ⟨⟨unbounded_lifted, fun g => eq_unbounded_of_lifted⟩, linked_unbounded,
    goesForward_unbounded, loopsEnd_unbounded, fun s => seesArrow_eq_arrowSearch, fun text => ?_⟩
  refine ⟨fun budget => TokenStream.ofText_eq_tokens, ⟨parseProgram_eq text, ?_⟩,
    parseExpression_eq text, ?_⟩
  · cases hRun : parseProgram text with
    | ok n => exact .inl ⟨n, rfl⟩
    | error fault => exact .inr ⟨fault, rfl, liesIn_of_parseProgram hRun⟩
  · cases hRun : parseExpression text with
    | ok n => exact .inl ⟨n, rfl⟩
    | error fault => exact .inr ⟨fault, rfl, liesIn_of_parseExpression hRun⟩

/-- A call whose arguments break off inside of a bracket. The look for an arrow gets to the end with
two brackets open, and the parser points there. -/
theorem parsing_ends_truncated :
    ∃ text fault, text = "f((a, [b" ∧ parseProgram text = .error fault ∧
      fault.span.LiesIn text ∧ fault.span = ⟨8, 8⟩ := by
  generalize hText : "f((a, [b" = text
  have hSpan : (match parseProgram text with
      | .error fault => some fault.span
      | .ok _ => none) = some ⟨8, 8⟩ := by
    rw [← hText]
    decide +kernel
  obtain ⟨-, -, -, -, -, hTexts⟩ := parsing_ends
  rcases (hTexts text).2.1.2 with ⟨n, hRun⟩ | ⟨fault, hRun, hLies⟩
  · simp [hRun] at hSpan
  · simp only [hRun, Option.some.injEq] at hSpan
    exact ⟨text, fault, rfl, hRun, hLies, hSpan⟩

end Node

end CodeShape
