import CodeShape.Proofs.Names
import CodeShape.Proofs.Symmetry

/-! Declarations that take two statements. The two halves of a declaration are patterns of their
own, so the first may be matched with a declaration of more variables or with a value, and only the
name of the variable ties the second one to it. -/
namespace CodeShape

namespace Node

/-- Whether a pattern for a variable stands for the same variable wherever it is used: the variable
itself, or a wildcard with a name. -/
def isNamed : Node → Bool
  | .ident _ => true
  | .wildcard w => w.name.isSome
  | _ => false

/-- Whether the statement declares one variable that has a name. -/
def declaresNamed : Node → Bool
  | .declaration _ [.declarator id _] => id.isNamed
  | _ => false

/-- Whether the statement declares one variable, with an operation on that variable as its value. -/
def declaresFromItself : Node → Bool
  | .declaration _ [.declarator id (some (.binary op left right))] =>
    left == id || op.commutative && right == id
  | _ => false

/-- Whether a declaration declares variables and an assignment is to no statement, as in every
text. -/
def isProper : Node → Bool
  | .declaration _ declarators => declarators.all fun
    | .declarator (.ident _) _ => true
    | _ => false
  | .expr (.assign _ (.expr _) _) => false
  | _ => true

/-- The expression of a statement that is just an expression. -/
def unwrapped : Node → Node
  | .expr e => e
  | n => n

/-- A proper declaration declares names. -/
theorem exists_ident_of_isProper {kind : DeclarationKind} {declarators : List Node} {id : Node}
    {init : Option Node} (h : (Node.declaration kind declarators).isProper)
    (hMem : .declarator id init ∈ declarators) : ∃ x, id = .ident x := by
  have hDeclarator := List.all_eq_true.1 h _ hMem
  cases id with
  | ident x => exact ⟨x, rfl⟩
  | _ => cases hDeclarator

theorem unwrapped_of_isProper {op : AssignOp} {target value : Node}
    (h : (Node.expr (.assign op target value)).isProper) : target.unwrapped = target := by
  cases target with
  | expr e => cases h
  | _ => rfl

theorem seeksBelow_of_isNamed {id : Node} (h : id.isNamed) : ListMatcher.seeksBelow id = false := by
  cases id with
  | ident | wildcard => rfl
  | _ => cases h

/-- Only what equals a variable is equivalent to it. -/
theorem beq_of_equivalent_ident {rules : Option Rules} {a b : Node} {x : String}
    (ha : equivalent rules a (.ident x)) (hb : equivalent rules a b) : b == .ident x := by
  have hFirm : (Node.ident x).firm := firm_iff.2 ⟨rfl, fun _ hc => nomatch hc⟩
  cases rules with
  | none => exact BEq.trans (BEq.symm hb) ha
  | some rules =>
      have hSame : a == .ident x := beq_of_firm (.inr hFirm) ha
      have hOther : a == b := beq_of_firm (.inl (firm_of_beq (BEq.symm hSame) hFirm)) hb
      exact BEq.trans (BEq.symm hOther) hSame

/-- Only a name equals a name. -/
theorem eq_ident_of_beq {n : Node} {x : String} (h : n == .ident x) : n = .ident x := by
  rcases Label.beq_iff.1 (beq_iff.1 h).1 with hLabel | ⟨_, _, _, hValue, _⟩
  · cases n with
    | ident y =>
        cases hLabel
        rfl
    | _ => cases hLabel
  · cases hValue

/-- Where a variable is not declared from itself, its value holds no operand beside it. -/
theorem operandBeside?_of_declaresFromItself {kind : DeclarationKind} {id init : Node}
    (h : ¬ (Node.declaration kind [.declarator id (some init)]).declaresFromItself)
    (op : BinaryOp) : operandBeside? id op init = none := by
  rw [Option.eq_none_iff_forall_ne_some]
  intro operand hOperand
  obtain ⟨l, r, rfl, hSide⟩ := operandBeside?_iff.1 hOperand
  apply h
  rcases hSide with ⟨hl, -⟩ | ⟨-, ⟨hOp, hr⟩, -⟩
  · simp [declaresFromItself, hl]
  · simp [declaresFromItself, hOp, hr]

end Node

namespace Conditions

variable {conditions : Conditions} {b b' b'' : Branch}

/-- A value agrees with one place if it is at one place with an equivalent node. -/
theorem exists_site_of_agree {old : Binding} {w : Wildcard} {c : Site}
    (h : conditions.agree old (w.valueAt c)) :
    ∃ o : Site, old.sites = [o] ∧
      Node.equivalent conditions.rules o.node.unwrapped c.node.unwrapped := by
  unfold agree at h
  extract_lets bare as bs at h
  have hBare : ∀ n, bare n = n.unwrapped := by
    intro n
    cases n <;> rfl
  simp only [as, bs, w.sites_valueAt, hBare] at h
  match hOld : old.sites with
  | [] => simp [hOld] at h
  | [o] => exact ⟨o, rfl, by simpa [hOld] using h⟩
  | _ :: _ :: _ => simp [hOld] at h

/-- A name that was bound to a place has a value that agrees with the place. -/
theorem Binds.exists_bound {w : Wildcard} {name : String} (hName : w.name = some name) {c : Site}
    (h : conditions.Binds w (w.valueAt c) b b') :
    ∃ old, b'.find? name = some old ∧ ∃ o : Site, old.sites = [o] ∧
      Node.equivalent conditions.rules o.node.unwrapped c.node.unwrapped := by
  cases h with
  | nameless hNone =>
      rw [hName] at hNone
      cases hNone
  | again hSame hOld hAgree =>
      cases hName.symm.trans hSame
      exact ⟨_, hOld, exists_site_of_agree hAgree⟩
  | fresh hSame hNew hPass =>
      cases hName.symm.trans hSame
      refine ⟨w.valueAt c, ?_, c, w.sites_valueAt c, Node.equivalent_refl conditions.rules _⟩
      rw [Branch.find?_snoc, hNew]
      simp

/-- After a wildcard with a name was bound to a variable, it is only bound to that variable. -/
theorem Binds.same_variable {w : Wildcard} (hName : w.name.isSome) {x : String} {c d : Site}
    (hc : c.node = .ident x) (first : conditions.Binds w (w.valueAt c) b b')
    (second : conditions.Binds w (w.valueAt d) b' b'') : d.node.unwrapped == .ident x := by
  obtain ⟨name, hName⟩ := Option.isSome_iff_exists.1 hName
  obtain ⟨old, hOld, o, hSites, hFirst⟩ := first.exists_bound hName
  rw [hc] at hFirst
  cases second with
  | nameless hNone =>
      rw [hName] at hNone
      cases hNone
  | again hSame hFound hAgree =>
      cases hName.symm.trans hSame
      cases hOld.symm.trans hFound
      obtain ⟨o', hSites', hSecond⟩ := exists_site_of_agree hAgree
      cases List.singleton_inj.1 (hSites.symm.trans hSites')
      exact Node.beq_of_equivalent_ident hFirst hSecond
  | fresh hSame hNew hPass =>
      cases hName.symm.trans hSame
      rw [hOld] at hNew
      cases hNew

/-- What is not sought below a place has to be there. -/
theorem Solves.here {p : Node} {c : Site} (hSeek : ListMatcher.seeksBelow p = false)
    (h : conditions.Solves (.duty (.below p c)) b b') : conditions.Solves (.node p c) b b' := by
  cases h with
  | within hd hHere done =>
      rcases hHere with rfl | hBelow
      · exact done
      · rw [hSeek] at hBelow
        cases hBelow

/-- What a pattern is matched with if no rule gives it another form. -/
theorem Solves.own_form {p : Node} {c : Site} (hp : p.isConcrete)
    (hOwn : ∀ form ∈ conditions.forms p c.node, form = p)
    (h : conditions.Solves (.node p c) b b') :
    p.sameShape c.node ∧ ∃ duties, Duty.ofNodes? p c = some duties ∧
      conditions.Solves (.duties duties) b b' := by
  cases h with
  | wildcard hBind => cases hp
  | hole => cases hp
  | form _ hForm hShape hDuties done =>
      obtain rfl := hOwn _ hForm
      exact ⟨hShape, _, hDuties, done⟩

/-- What the rules do not rewrite has one form. -/
theorem eq_of_mem_forms_of_fixed {p c form : Node} (hFixed : ∀ form, ¬ Node.Rewrites p form)
    (h : form ∈ conditions.forms p c) : form = p :=
  (mem_forms h).resolve_right (hFixed form)

/-- A name is matched by itself only. -/
theorem Solves.eq_ident {x : String} {c : Site} (h : conditions.Solves (.node (.ident x) c) b b') :
    c.node = .ident x := by
  obtain ⟨hShape, -⟩ := h.own_form rfl fun _ => eq_of_mem_forms_of_fixed (by rintro _ ⟨⟩)
  obtain ⟨path, n⟩ := c
  cases n with
  | ident y =>
      have hName : x = y := beq_iff_eq.1 hShape
      rw [hName]
  | _ => cases hShape

/-- An expression statement is matched by one. -/
theorem Solves.exists_expr {p : Node} {c : Site} (h : conditions.Solves (.node (.expr p) c) b b') :
    ∃ e : Site, c.node = .expr e.node ∧ conditions.Solves (.node p e) b b' := by
  obtain ⟨hShape, duties, hDuties, done⟩ :=
    h.own_form rfl fun _ => eq_of_mem_forms_of_fixed (by rintro _ ⟨⟩)
  obtain ⟨path, n⟩ := c
  cases n with
  | expr e =>
      cases hDuties
      cases done with
      | consDuties first rest =>
          cases rest
          cases first with
          | exact done => exact ⟨_, rfl, done⟩
  | _ => cases hShape

/-- A bare declarator is matched by any declarator of the name. -/
theorem Solves.exists_declarator {id : Node} {c : Site}
    (h : conditions.Solves (.node (.declarator id none) c) b b') :
    ∃ (x : Site) (init : Option Node), c.node = .declarator x.node init ∧
      conditions.Solves (.duty (.below id x)) b b' := by
  obtain ⟨hShape, duties, hDuties, done⟩ :=
    h.own_form rfl fun _ => eq_of_mem_forms_of_fixed (by rintro _ ⟨⟩)
  obtain ⟨path, n⟩ := c
  cases n with
  | declarator x init =>
      cases hDuties
      cases done with
      | consDuties first rest =>
          cases rest
          exact ⟨_, init, rfl, first⟩
  | _ => cases hShape

/-- A list of one pattern is matched with a list that has a match for it. -/
theorem Solves.exists_of_scan {p : Node} {cs : List Site} (hGlob : p.glob? = none)
    (h : conditions.Solves (.scan false [p] cs) b b') :
    ∃ c ∈ cs, ∃ b₁, conditions.Solves (.node p c) b₁ b' := by
  cases h with
  | scanCons _ hSpot first rest =>
      cases first with
      | whole done =>
          cases rest
          exact ⟨_, Spot.site_mem_of_mem_along hSpot, _, done⟩
  | scanLast hRun hBind =>
      rw [hGlob] at hRun
      cases hRun

/-- A declaration of one variable is matched with a declaration that has it among its own. -/
theorem Solves.exists_declaration {kind : DeclarationKind} {id : Node} {init : Option Node}
    {c : Site} (h : conditions.Solves (.node (.declaration kind [.declarator id init]) c) b b') :
    ∃ (declarators : List Node) (d : Site) (b₁ : Branch), c.node = .declaration kind declarators ∧
      d.node ∈ declarators ∧ conditions.Solves (.node (.declarator id init) d) b₁ b' := by
  obtain ⟨hShape, duties, hDuties, done⟩ :=
    h.own_form rfl fun _ => eq_of_mem_forms_of_fixed (by rintro _ ⟨⟩)
  obtain ⟨declarators, hNode⟩ : ∃ declarators, c.node = .declaration kind declarators := by
    generalize c.node = n at hShape
    cases n with
    | declaration used declarators =>
        have hKind : kind = used := beq_iff_eq.1 hShape
        exact ⟨declarators, by rw [hKind]⟩
    | _ => cases hShape
  have hFields : c.fields = [.seq .ordered c.children] := by
    simp [Site.children, Site.fields, hNode, Node.fields, Field.numberAll, Field.number, Field.map,
      Field.toList]
  rw [Duty.ofNodes?_eq, hFields] at hDuties
  cases hDuties
  cases done with
  | consDuties first rest =>
      cases rest
      cases first with
      | ordered done =>
          obtain ⟨d, hd, b₁, hSolved⟩ := done.exists_of_scan rfl
          refine ⟨declarators, d, b₁, hNode, ?_, hSolved⟩
          have hMem := List.mem_map_of_mem (f := Site.node) hd
          simpa [hNode, Node.children, Node.fields, Field.toList] using hMem

theorem Solves.exists_assign {op : AssignOp} {id init : Node} {c : Site}
    (hOwn : ∀ form ∈ conditions.forms (.assign op id init) c.node, form = .assign op id init)
    (h : conditions.Solves (.node (.assign op id init) c) b b') :
    ∃ (y : Site) (value : Node) (b₁ : Branch), c.node = .assign op y.node value ∧
      conditions.Solves (.duty (.below id y)) b b₁ := by
  obtain ⟨hShape, duties, hDuties, done⟩ := h.own_form rfl hOwn
  obtain ⟨path, n⟩ := c
  cases n with
  | assign used y value =>
      have hOp : op = used := beq_iff_eq.1 hShape
      subst hOp
      cases hDuties
      cases done with
      | consDuties first rest => exact ⟨_, value, _, rfl, first⟩
  | _ => cases hShape

/-- A plain assignment has another form only if operations may be part of assignments and its value
is an operation on its target. -/
theorem eq_of_mem_forms_assign {id init e form : Node}
    (hValue : conditions.rules.any Rules.compound → ∀ op, Node.operandBeside? id op init = none)
    (h : form ∈ conditions.forms (.assign .plain id init) e) : form = .assign .plain id init := by
  rcases List.mem_cons.1 h with rfl | h
  · rfl
  · cases hRules : conditions.rules with
    | none => simp [hRules] at h
    | some rules =>
        simp only [hRules] at h hValue
        cases e with
        | assign wanted l r =>
            obtain ⟨hOn, ⟨-, applied, hNone, -⟩ | ⟨-, applied, -, operand, hOperand, -⟩⟩ :=
              Node.mem_reassigned.1 h
            · cases hNone
            · rw [hValue hOn applied] at hOperand
              cases hOperand
        | update wanted before x =>
            rw [Node.alternatives, List.mem_ite_nil_right, Bool.and_eq_true] at h
            obtain ⟨⟨-, hUpdate⟩, -⟩ := h
            rcases Node.isUpdateBy_iff.1 hUpdate with
              ⟨hNone, -⟩ | ⟨⟨-, hOn⟩, applied, -, operand, hOperand, -⟩
            · cases wanted <;> cases hNone
            · rw [hValue hOn applied] at hOperand
              cases hOperand
        | _ => cases h

/-- A pattern for a variable that has a name is matched with the same variable twice. -/
theorem Solves.same_variable {id : Node} (hNamed : id.isNamed) {x : String} {c d : Site}
    (hc : c.node = .ident x) (first : conditions.Solves (.duty (.below id c)) b b')
    (second : conditions.Solves (.duty (.below id d)) b' b'') : d.node.unwrapped == .ident x := by
  have hSeek : ListMatcher.seeksBelow id = false := Node.seeksBelow_of_isNamed hNamed
  have first := first.here hSeek
  have second := second.here hSeek
  cases id with
  | ident name =>
      have hFirst : Node.ident x = .ident name := hc.symm.trans first.eq_ident
      rw [second.eq_ident, hFirst]
      exact BEq.refl _
  | wildcard w =>
      cases first with
      | wildcard hFirst =>
          cases second with
          | wildcard hSecond => exact hFirst.same_variable hNamed hc hSecond
          | form hp => cases hp
      | form hp => cases hp
  | _ => cases hNamed

/-- All that the first element of a pattern list can take at a spot, in the order in which it is
found. -/
def takenAt (conditions : Conditions) (dive : Bool) (p : Node) (ps : List Node) (spot : Spot)
    (b : Branch) : List Taken :=
  ((conditions.listsFor (spot.site :: spot.following)).atSpot dive p ps spot b).solutions

/-- What is listed at a spot has a derivation. -/
theorem solves_of_mem_takenAt {dive : Bool} {p : Node} {ps : List Node} {spot : Spot} {t : Taken}
    (h : t ∈ conditions.takenAt dive p ps spot b) :
    conditions.Solves (.spot dive p ps spot t.patterns t.candidates) b t.branch := by
  have hLow : ∀ c ∈ spot.site :: spot.following, c.node.height ≤
      ((spot.site :: spot.following).map (·.node.height)).foldl max 0 := fun c hc =>
    Node.le_foldl_max (.inl (List.mem_map_of_mem hc))
  rw [takenAt, (conditions.listsFor_lists _).atSpot_eq dive p ps hLow] at h
  exact Enumeration.solves_atSpot (fun _ => solves_of_mem_ways) hLow h

/-- A declaration with a value takes two statements only if the first declares a variable and the
second is a plain assignment to that variable, given that the variable has a name in the pattern and
that its value is no operation on the variable itself where that might be part of the assignment. If
the first statement declares nothing else and gives no value, the two make up one declaration. -/
theorem joins_same_variable {dive : Bool} {p : Node} {ps : List Node} {spot : Spot} {b : Branch}
    {t : Taken} (hNamed : p.declaresNamed)
    (hValue : conditions.rules.any Rules.compound → ¬ p.declaresFromItself)
    (hProper : ∀ s ∈ spot.site :: spot.following, s.node.isProper)
    (ht : t ∈ conditions.takenAt dive p ps spot b) (hTwo : t.candidates = 1) :
    ∃ kind declarators x init next rest value,
      spot.site.node = .declaration kind declarators ∧
      .declarator (.ident x) init ∈ declarators ∧ spot.following = next :: rest ∧
      next.node = .expr (.assign .plain (.ident x) value) ∧
      ∀ id, declarators = [.declarator id none] →
        (spot.site.node.mergeDeclaration? next.node).isSome := by
  have hSolves := solves_of_mem_takenAt ht
  rw [hTwo] at hSolves
  generalize t.patterns = np at hSolves
  cases hSolves with
  | @split _ declared assigned _ _ next rest _ b₁ _ hOn hSplit hNext first second =>
      obtain ⟨kind, id, init, rfl, rfl, rfl⟩ := Node.splitDeclaration?_cases hSplit
      obtain ⟨declarators, d, b₀, hFirst, hMem, hDeclared⟩ := first.exists_declaration
      obtain ⟨v, init', hDeclarator, hVariable⟩ := hDeclared.exists_declarator
      obtain ⟨e, hSecond, hAssigned⟩ := second.exists_expr
      obtain ⟨y, value, b₃, hAssign, hTarget⟩ := hAssigned.exists_assign fun form =>
        eq_of_mem_forms_assign fun hOn =>
          Node.operandBeside?_of_declaresFromItself (hValue hOn)
      rw [hDeclarator] at hMem
      rw [hAssign] at hSecond
      have hDeclares := hProper spot.site List.mem_cons_self
      have hAssigns := hProper next (by simp [hNext])
      rw [hFirst] at hDeclares
      rw [hSecond] at hAssigns
      obtain ⟨x, hx⟩ := Node.exists_ident_of_isProper hDeclares hMem
      have hSame := hVariable.same_variable hNamed hx hTarget
      rw [Node.unwrapped_of_isProper hAssigns] at hSame
      rw [hx] at hMem
      rw [Node.eq_ident_of_beq hSame] at hSecond
      refine ⟨kind, declarators, x, init', next, rest, value, hFirst, hMem, hNext, hSecond, ?_⟩
      intro id' hAlone
      rw [hAlone] at hMem
      cases List.mem_singleton.1 hMem
      rw [hFirst, hAlone, hSecond, Node.mergeDeclaration?, if_pos (BEq.refl _)]
      rfl

/-- Under all rules `var $a = 7;` takes the two statements of `var x; x = 7;`, which make up one
declaration. -/
theorem joins_same_variable_seven :
    let conditions : Conditions := ⟨[], some .all, false⟩
    let pattern : Node :=
      .declaration .var [.declarator (.wildcard ⟨some "a", .scalar⟩) (some (.int 7))]
    let first : Node := .declaration .var [.declarator (.ident "x") none]
    let second : Node := .expr (.assign .plain (.ident "x") (.int 7))
    let spot : Spot := ⟨⟨[0], first⟩, [⟨[1], second⟩]⟩
    (∃ t ∈ conditions.takenAt true pattern [] spot .start, t.candidates = 1) ∧
      (first.mergeDeclaration? second).isSome := by
  intro conditions pattern first second spot
  have hTaken : ∃ t ∈ conditions.takenAt true pattern [] spot .start, t.candidates = 1 := by
    decide +kernel
  refine ⟨hTaken, ?_⟩
  obtain ⟨t, ht, hTwo⟩ := hTaken
  obtain ⟨kind, declarators, x, init, next, rest, value, hFirst, -, hNext, -, hMerge⟩ :=
    joins_same_variable (by decide +kernel) (by decide +kernel) (by decide +kernel) ht hTwo
  cases hFirst
  cases hNext
  exact hMerge _ rfl

/-- Under all rules `var $a = 7;` also takes the two statements of `var x = 5; x = 7;`, and
`var _ = 7;` those of `var x; y = 7;`. Neither two make up one declaration. -/
theorem joins_other_statements :
    let conditions : Conditions := ⟨[], some .all, false⟩
    let pattern (name : Option String) : Node :=
      .declaration .var [.declarator (.wildcard ⟨name, .scalar⟩) (some (.int 7))]
    let declares (init : Option Node) : Node := .declaration .var [.declarator (.ident "x") init]
    let assigns (name : String) : Node := .expr (.assign .plain (.ident name) (.int 7))
    let numbers (p first second : Node) : List Nat :=
      (conditions.takenAt true p [] ⟨⟨[0], first⟩, [⟨[1], second⟩]⟩ .start).map Taken.candidates
    (numbers (pattern (some "a")) (declares (some (.int 5))) (assigns "x") = [1] ∧
      (declares (some (.int 5))).mergeDeclaration? (assigns "x") = none) ∧
    numbers (pattern none) (declares none) (assigns "y") = [1] ∧
      (declares none).mergeDeclaration? (assigns "y") = none := by
  decide +kernel

end Conditions

end CodeShape
