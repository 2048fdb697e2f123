import CodeShape.Proofs.Completeness
import CodeShape.Proofs.Lockstep
import CodeShape.Proofs.Validation

/-! The spelling of literals plays no part in a search. Equal trees may be written differently, but
the rules make equal forms of equal patterns, erasing makes equal trees of equal trees, and so a
search in equal trees has equal results. -/
namespace CodeShape

namespace Label

/-- How the list of a node with the label is paired. -/
def pairing : Label → Pairing
  | program | block => .statements
  | declaration _ | classDef _ | object => .ordered
  | _ => .fixed

end Label

namespace Field

variable {α β : Type}

/-- If the slot is a list, it is paired in the given way. -/
def PairedBy (pairing : Pairing) : Field α → Prop
  | seq pairing' _ => pairing' = pairing
  | _ => True

/-- Slots of one outline correspond if their parts do in order. -/
theorem related_of_outline {r : α → β → Prop} {pairing : Pairing} {f : Field α} {g : Field β}
    (hf : f.PairedBy pairing) (hg : g.PairedBy pairing) (hOutline : f.outline = g.outline)
    (h : List.Forall₂ r f.toList g.toList) : Related r f g := by
  cases f with
  | one a =>
      cases g <;> simp [outline] at hOutline
      exact .one (List.forall₂_cons.1 h).1
  | opt a? =>
      cases g <;> simp [outline] at hOutline
      next b? =>
        cases a? <;> cases b? <;> cases h
        · exact .optNone
        · next hChild _ => exact .optSome hChild
  | stmt a? =>
      cases g <;> simp [outline] at hOutline
      next b? =>
        cases a? <;> cases b? <;> cases h
        · exact .stmtNone
        · next hChild _ => exact .stmtSome hChild
  | seq pairing' as =>
      cases g <;> simp [outline] at hOutline
      cases hf
      cases hg
      exact .seq h

/-- Rows of slots of one outline correspond if all their parts do in order. -/
theorem relatedAll_of_outline {r : α → β → Prop} {pairing : Pairing} {fs : List (Field α)}
    {gs : List (Field β)} (hfs : ∀ f ∈ fs, f.PairedBy pairing) (hgs : ∀ g ∈ gs, g.PairedBy pairing)
    (hOutline : fs.map outline = gs.map outline)
    (h : List.Forall₂ r (fs.flatMap toList) (gs.flatMap toList)) :
    List.Forall₂ (Related r) fs gs := by
  induction fs generalizing gs with
  | nil =>
      rw [List.map_nil, eq_comm, List.map_eq_nil_iff] at hOutline
      rw [hOutline]
      exact .nil
  | cons f fs ih =>
      cases gs with
      | nil => cases hOutline
      | cons g gs =>
          obtain ⟨hFirst, hRest⟩ := List.cons.inj hOutline
          have hLength : f.toList.length = g.toList.length := by
            rw [← snd_outline, ← snd_outline, hFirst]
          have hHere := List.forall₂_take f.toList.length h
          have hThere := List.forall₂_drop f.toList.length h
          rw [List.flatMap_cons, List.flatMap_cons, List.take_left, hLength, List.take_left] at hHere
          rw [List.flatMap_cons, List.flatMap_cons, List.drop_left, hLength, List.drop_left] at hThere
          refine .cons (related_of_outline (hfs f (by simp)) (hgs g (by simp)) hFirst hHere) ?_
          exact ih (fun f hf => hfs f (by simp [hf])) (fun g hg => hgs g (by simp [hg])) hRest hThere

/-- Corresponding slots are of one outline. -/
theorem Related.outline_eq {r : α → β → Prop} {f : Field α} {g : Field β} (h : Related r f g) :
    f.outline = g.outline := by
  cases h with
  | seq h => rw [outline, outline, h.length_eq]
  | _ => rfl

end Field

namespace Node

/-- All lists of a node are paired as its label says. -/
theorem pairedBy_of_mem_fields {n : Node} {field : Field Node} (h : field ∈ n.fields) :
    field.PairedBy n.label.pairing := by
  cases n <;> simp only [fields, List.mem_cons, List.not_mem_nil, or_false] at h <;>
    rcases h with rfl | rfl | rfl | rfl <;> trivial

/-- Equal trees have equal labels and equal children. -/
theorem similarity_beq : Similarity fun a b => a == b where
  label h := (beq_iff.1 h).1
  fields {a b} h := by
    obtain ⟨hLabel, hAligned, hChildren⟩ := beq_iff.1 h
    have hPairing := Label.eq_of_beq Label.pairing (fun _ _ => rfl) hLabel
    exact Field.relatedAll_of_outline (fun f hf => pairedBy_of_mem_fields hf)
      (fun g hg => hPairing ▸ pairedBy_of_mem_fields hg) (Field.fitAll_iff.1 hAligned) hChildren

/-- Nodes whose slots correspond are aligned. -/
theorem aligned_of_related {r : Node → Node → Prop} {a b : Node}
    (h : List.Forall₂ (Field.Related r) a.fields b.fields) : a.aligned b := by
  rw [aligned, Field.fitAll_iff, ← List.forall₂_eq_eq_eq, List.forall₂_map_left_iff,
    List.forall₂_map_right_iff]
  exact h.imp fun _ _ hSlot => hSlot.outline_eq

/-- Nodes with equal labels and equal slots are equal. -/
theorem beq_of_related {a b : Node} (hLabel : a.label == b.label)
    (h : List.Forall₂ (Field.Related fun x y => x == y) a.fields b.fields) : a == b :=
  beq_iff.2 ⟨hLabel, aligned_of_related h, forall₂_flatMap h fun _ _ hSlot => hSlot.toList⟩

/-- Whether two nodes are aligned does not depend on how their literals are spelled. -/
theorem aligned_eq {a a' b b' : Node} (h : a == a') (h' : b == b') :
    a.aligned b = a'.aligned b' := by
  have ha := Field.fitAll_iff.1 (beq_iff.1 h).2.1
  have hb := Field.fitAll_iff.1 (beq_iff.1 h').2.1
  rw [Bool.eq_iff_iff, aligned, aligned, Field.fitAll_iff, Field.fitAll_iff, ha, hb]

/-- Nodes with one child each are equal if their labels and children are. -/
theorem beq_one {a b x y : Node} (hLabel : a.label == b.label) (ha : a.fields = [.one x])
    (hb : b.fields = [.one y]) (h : x == y) : a == b := by
  refine beq_of_related hLabel ?_
  rw [ha, hb]
  exact .cons (.one h) .nil

/-- Nodes with two children each are equal if their labels and children are. -/
theorem beq_two {a b x y x' y' : Node} (hLabel : a.label == b.label)
    (ha : a.fields = [.one x, .one y]) (hb : b.fields = [.one x', .one y']) (hx : x == x')
    (hy : y == y') : a == b := by
  refine beq_of_related hLabel ?_
  rw [ha, hb]
  exact .cons (.one hx) (.cons (.one hy) .nil)

/-- Whether a literal is the number one does not depend on its spelling. -/
theorem isOne_eq {a b : Node} (h : a == b) : a.isOne = b.isOne := by
  have hLabel : ∀ n : Node, n.isOne = (n.label.build []).isOne := fun n => by cases n <;> rfl
  rw [hLabel a, hLabel b]
  rcases Label.beq_iff.1 (similarity_beq.label h) with hSame | ⟨v, w, hv, hw, hValue⟩
  · rw [hSame]
  · rw [hv, hw]
    obtain ⟨v, raw⟩ := v
    obtain ⟨w, raw'⟩ := w
    rcases LiteralValue.beq_iff.1 hValue with hSame | ⟨x, y, hx, hy, hRank⟩
    · cases hSame
      cases v <;> rfl
    · cases hx
      cases hy
      change (x.rank == _) = (y.rank == _)
      rw [hRank]

/-- Only a binary operation has an operand beside the target. -/
theorem operandBeside?_of_other {target n : Node} {op : BinaryOp}
    (h : ∀ used left right, n ≠ .binary used left right) : operandBeside? target op n = none := by
  unfold operandBeside?
  split
  · exact absurd rfl (h _ _ _)
  · rfl

/-- The operand beside the target is found in both spellings or in neither. -/
theorem operandBeside?_rel (op : BinaryOp) {target target' n n' : Node} (ht : target == target')
    (h : n == n') : Option.Rel (fun a b => a == b) (operandBeside? target op n)
      (operandBeside? target' op n') := by
  by_cases hBinary : ∃ used left right, n = .binary used left right
  · obtain ⟨used, left, right, rfl⟩ := hBinary
    obtain ⟨left', right', rfl, hLeft, hRight⟩ := similarity_beq.exists_two h rfl
    have hEqual : ∀ {a b : Node}, a == b → (a == target) = (b == target') :=
      fun hab => (BEq.congr_left hab).trans (BEq.congr_right ht)
    change Option.Rel _ _ (operandBeside? target' op (.binary used left' right'))
    simp only [operandBeside?, hEqual hLeft, hEqual hRight]
    split
    · exact .none
    split
    · exact .some hRight
    split
    · exact .some hLeft
    · exact .none
  · rw [operandBeside?_of_other fun used left right hn => hBinary ⟨used, left, right, hn⟩,
      operandBeside?_of_other]
    · exact .none
    · rintro used left' right' rfl
      obtain ⟨left, right, hn, -⟩ := similarity_beq.exists_two (BEq.symm h) rfl
      exact hBinary ⟨used, left, right, hn⟩

end Node

namespace Label

/-- Whether a rule may be about nodes with the label. -/
def hasRules : Label → Bool
  | binary _ | logical _ | assign _ | update _ _ => true
  | _ => false

end Label

namespace Node

/-- The rules rewrite only nodes of the kinds that they are about. -/
theorem alternatives_of_other {rules : Rules} {p c : Node}
    (h : p.label.hasRules = false ∨ c.label.hasRules = false) : alternatives rules p c = [] := by
  unfold alternatives
  split <;> first | rfl | (rcases h with h | h <;> cases h)

/-- The forms that are tried depend on the label of the candidate only. -/
theorem alternatives_eq_of_label {rules : Rules} {p c c' : Node} (h : c.label = c'.label) :
    alternatives rules p c = alternatives rules p c' := by
  cases hRules : c.label.hasRules with
  | false =>
      rw [alternatives_of_other (.inr hRules), alternatives_of_other (.inr (h ▸ hRules))]
  | true =>
      cases c <;> cases hRules <;> cases c' <;> cases h <;> cases p <;> rfl

theorem forall₂_ite {a b : Node} (condition : Prop) [Decidable condition] (h : a == b) :
    List.Forall₂ (fun x y => x == y) (if condition then [a] else [])
      (if condition then [b] else []) := by
  split
  · exact .cons h .nil
  · exact .nil

/-- An assignment that is written out is so alike in both spellings. -/
theorem reassigned_rel (rules : Rules) (op wanted : AssignOp) {left left' right right' : Node}
    (hLeft : left == left') (hRight : right == right') :
    List.Forall₂ (fun x y => x == y) (reassigned rules op left right wanted)
      (reassigned rules op left' right' wanted) := by
  unfold reassigned
  split
  · exact .nil
  · cases op.binary? with
    | some applied =>
        cases wanted.binary? with
        | some _ => exact .nil
        | none =>
            have hApplied : Node.binary applied left right == .binary applied left' right' :=
              beq_two (BEq.refl _) rfl rfl hLeft hRight
            exact .cons (beq_two (BEq.refl _) rfl rfl hLeft hApplied) .nil
    | none =>
        cases wanted.binary? with
        | none => exact .nil
        | some applied =>
            have hOperand := operandBeside?_rel applied hLeft hRight
            simp only
            generalize operandBeside? left applied right = operand at hOperand
            generalize operandBeside? left' applied right' = operand' at hOperand
            cases hOperand with
            | none => exact .nil
            | some hOperand => exact .cons (beq_two (BEq.refl _) rfl rfl hLeft hOperand) .nil

/-- An update that is written out is so alike in both spellings. -/
theorem updateAssigned_rel (rules : Rules) (op : UpdateOp) (wanted : AssignOp) {x x' : Node}
    (h : x == x') : List.Forall₂ (fun x y => x == y) (updateAssigned rules op x wanted)
      (updateAssigned rules op x' wanted) := by
  unfold updateAssigned
  split
  · exact .nil
  split
  · exact .cons (beq_two (BEq.refl _) rfl rfl h (BEq.refl _)) .nil
  split
  · cases op.compound.binary? with
    | none => exact .nil
    | some applied =>
        have hApplied : Node.binary applied x (.int 1) == .binary applied x' (.int 1) :=
          beq_two (BEq.refl _) rfl rfl h (BEq.refl _)
        exact .cons (beq_two (BEq.refl _) rfl rfl h hApplied) .nil
  · exact .nil

/-- Whether an assignment is an update does not depend on the spelling. -/
theorem isUpdateBy_eq (rules : Rules) (op : AssignOp) (wanted : UpdateOp)
    {left left' right right' : Node} (hLeft : left == left') (hRight : right == right') :
    isUpdateBy rules op left right wanted = isUpdateBy rules op left' right' wanted := by
  have hOperand : (wanted.compound.binary?.bind (operandBeside? left · right)).any isOne =
      (wanted.compound.binary?.bind (operandBeside? left' · right')).any isOne := by
    cases wanted.compound.binary? with
    | none => rfl
    | some applied =>
        have hOperand := operandBeside?_rel applied hLeft hRight
        simp only [Option.bind_some]
        generalize operandBeside? left applied right = operand at hOperand
        generalize operandBeside? left' applied right' = operand' at hOperand
        cases hOperand with
        | none => rfl
        | some hOperand => exact isOne_eq hOperand
  rw [isUpdateBy, isUpdateBy, isOne_eq hRight, hOperand]

/-- The rules make equal forms of equal patterns. -/
theorem alternatives_rel (rules : Rules) {p p' c c' : Node} (hp : p == p') (hc : c == c') :
    List.Forall₂ (fun x y => x == y) (alternatives rules p c) (alternatives rules p' c') := by
  have hSame : ∀ {a b : Node}, a == b → a.label.hasRules = b.label.hasRules :=
    fun h => Label.eq_of_beq Label.hasRules (fun _ _ => rfl) (similarity_beq.label h)
  cases hpRules : p.label.hasRules with
  | false =>
      rw [alternatives_of_other (.inl hpRules), alternatives_of_other (.inl (hSame hp ▸ hpRules))]
      exact .nil
  | true =>
      rcases Label.beq_iff.1 (similarity_beq.label hc) with hLabel | ⟨v, w, hv, hw, -⟩
      · rw [← alternatives_eq_of_label hLabel]
        cases p with
        | binary op left right =>
            obtain ⟨left', right', rfl, hLeft, hRight⟩ := similarity_beq.exists_two hp rfl
            have hSwapped : ∀ op, Node.binary op right left == .binary op right' left' :=
              fun _ => beq_two (BEq.refl _) rfl rfl hRight hLeft
            cases c with
            | binary wanted x y =>
                exact List.rel_append (forall₂_ite _ (hSwapped op)) (forall₂_ite _ (hSwapped wanted))
            | _ => exact .nil
        | logical op left right =>
            obtain ⟨left', right', rfl, hLeft, hRight⟩ := similarity_beq.exists_two hp rfl
            cases c with
            | logical wanted x y => exact forall₂_ite _ (beq_two (BEq.refl _) rfl rfl hRight hLeft)
            | _ => exact .nil
        | assign op left right =>
            obtain ⟨left', right', rfl, hLeft, hRight⟩ := similarity_beq.exists_two hp rfl
            cases c with
            | assign wanted x y => exact reassigned_rel rules op wanted hLeft hRight
            | update wanted before x =>
                change List.Forall₂ _ _ (alternatives rules (.assign op left' right') _)
                rw [alternatives, alternatives, isUpdateBy_eq rules op wanted hLeft hRight]
                exact forall₂_ite _ (beq_one (BEq.refl _) rfl rfl hLeft)
            | _ => exact .nil
        | update op before x =>
            obtain ⟨x', rfl, hx⟩ := similarity_beq.exists_one hp rfl
            cases c with
            | assign wanted y z => exact updateAssigned_rel rules op wanted hx
            | _ => exact .nil
        | _ => cases hpRules
      · rw [alternatives_of_other (.inr (by rw [hv]; rfl)),
          alternatives_of_other (.inr (by rw [hw]; rfl))]
        exact .nil

/-- A test of some items comes out alike on equal lists. -/
theorem any_eq_of_forall₂ {xs ys : List Node} {f g : Node → Bool}
    (h : List.Forall₂ (fun x y => x == y) xs ys) (hf : ∀ x y, x == y → f x = g y) :
    xs.any f = ys.any g := by
  induction h with
  | nil => rfl
  | cons hItem _ ih => rw [List.any_cons, List.any_cons, hf _ _ hItem, ih]

/-- Equality under rules does not depend on the spelling of either side. -/
theorem equalUnder_congr (rules : Rules) {a a' b b' : Node} (h : a == a') (h' : b == b') :
    equalUnder rules a b = equalUnder rules a' b' := by
  induction hSize : sizeOf b using Nat.strongRecOn generalizing a a' b b' with
  | ind size ih =>
      rw [equalUnder_eq, equalUnder_eq]
      refine any_eq_of_forall₂ (.cons h (alternatives_rel rules h h')) fun form form' hForm => ?_
      have hChildren : ((form.children.zip b.children).all fun pair =>
            equalUnder rules pair.1 pair.2) =
          (form'.children.zip b'.children).all fun pair => equalUnder rules pair.1 pair.2 :=
        all_zip_eq (similarity_beq.children hForm) (similarity_beq.children h')
          fun x x' y y' hx hMem hy => ih _ (hSize ▸ sizeOf_lt_of_mem_children hMem) hx hy rfl
      rw [similarity_beq.sameShape_eq hForm h', aligned_eq hForm h', hChildren]

/-- Equivalence does not depend on the spelling of either side. -/
theorem equivalent_congr (rules : Option Rules) {a a' b b' : Node} (h : a == a') (h' : b == b') :
    equivalent rules a b = equivalent rules a' b' := by
  cases rules with
  | none => exact (BEq.congr_left h).trans (BEq.congr_right h')
  | some rules => exact equalUnder_congr rules h h'

/-- What equals a declarator is one, initialized or not as it is. -/
theorem exists_declarator {id n : Node} {init : Option Node} (h : .declarator id init == n) :
    ∃ id' init', n = .declarator id' init' ∧ id == id' ∧
      Option.Rel (fun x y => x == y) init init' := by
  obtain ⟨gs, hSlots, rfl⟩ := similarity_beq.exists_build h nofun
  rcases hSlots with _ | ⟨hId, _ | ⟨hInit, hNone⟩⟩
  cases hNone
  cases hId with
  | one hId =>
      cases hInit with
      | optNone => exact ⟨_, _, rfl, hId, .none⟩
      | optSome hInit => exact ⟨_, _, rfl, hId, .some hInit⟩

/-- Equal declarations of one variable. -/
theorem exists_single {kind : DeclarationKind} {id n : Node} {init : Option Node}
    (h : .declaration kind [.declarator id init] == n) :
    ∃ id' init', n = .declaration kind [.declarator id' init'] ∧ id == id' ∧
      Option.Rel (fun x y => x == y) init init' := by
  obtain ⟨items, rfl, hItems⟩ := similarity_beq.exists_list h rfl
  rcases hItems with _ | ⟨hItem, hNone⟩
  cases hNone
  obtain ⟨id', init', rfl, hId, hInit⟩ := exists_declarator hItem
  exact ⟨id', init', rfl, hId, hInit⟩

theorem beq_single (kind : DeclarationKind) {id id' : Node} {init init' : Option Node}
    (hId : id == id') (hInit : Option.Rel (fun x y => x == y) init init') :
    Node.declaration kind [.declarator id init] == .declaration kind [.declarator id' init'] := by
  have hDeclarator : Node.declarator id init == .declarator id' init' := by
    refine beq_of_related (BEq.refl _) (.cons (.one hId) (.cons ?_ .nil))
    cases hInit with
    | none => exact .optNone
    | some hInit => exact .optSome hInit
  exact beq_of_related (BEq.refl _) (.cons (.seq (.cons hDeclarator .nil)) .nil)

theorem beq_assignment {left left' right right' : Node} (hLeft : left == left')
    (hRight : right == right') :
    Node.expr (.assign .plain left right) == .expr (.assign .plain left' right') :=
  beq_one (BEq.refl _) rfl rfl (beq_two (BEq.refl _) rfl rfl hLeft hRight)

/-- A declaration is split in both spellings or in neither, into equal halves. -/
theorem splitDeclaration?_rel {p p' : Node} (h : p == p') :
    Option.Rel (fun halves halves' => halves.1 == halves'.1 ∧ halves.2 == halves'.2)
      p.splitDeclaration? p'.splitDeclaration? := by
  -- equality is symmetric, so only one of the two trees being such a declaration is impossible
  unfold splitDeclaration?
  split
  · next kind id init =>
      obtain ⟨id', _, rfl, hId, hInit⟩ := exists_single h
      cases hInit with
      | some hInit => exact .some ⟨beq_single kind hId .none, beq_assignment hId hInit⟩
  · next hOther =>
      split
      · next kind id' init' =>
          obtain ⟨id, _, rfl, -, hInit⟩ := exists_single (BEq.symm h)
          cases hInit with
          | some => exact (hOther kind id _ rfl).elim
      · exact .none

/-- Two statements are merged in both spellings or in neither. -/
theorem mergeDeclaration?_rel {p p' q q' : Node} (hp : p == p') (hq : q == q') :
    Option.Rel (fun x y => x == y) (p.mergeDeclaration? q) (p'.mergeDeclaration? q') := by
  have hInverse : ∀ {left right n : Node}, .expr (.assign .plain left right) == n →
      ∃ left' right', n = .expr (.assign .plain left' right') ∧ left == left' ∧
        right == right' := by
    intro left right n hn
    obtain ⟨e, rfl, he⟩ := similarity_beq.exists_one hn rfl
    obtain ⟨left', right', rfl, hLeft, hRight⟩ := similarity_beq.exists_two he rfl
    exact ⟨left', right', rfl, hLeft, hRight⟩
  unfold mergeDeclaration?
  split
  · next kind id left right =>
      obtain ⟨id', _, rfl, hId, hInit⟩ := exists_single hp
      obtain ⟨left', right', rfl, hLeft, hRight⟩ := hInverse hq
      cases hInit
      have hSame : (left == id) = (left' == id') :=
        (BEq.congr_left hLeft).trans (BEq.congr_right hId)
      simp only [hSame]
      split
      · exact .some (beq_single kind hId (.some hRight))
      · exact .none
  · next hOther =>
      split
      · next kind id' left' right' =>
          obtain ⟨id, _, rfl, -, hInit⟩ := exists_single (BEq.symm hp)
          obtain ⟨left, right, rfl, -, -⟩ := hInverse (BEq.symm hq)
          cases hInit
          exact (hOther kind id left right rfl rfl).elim
      · exact .none

/-- A search cannot tell equal trees apart. -/
theorem congruence_beq : Congruence fun a b => a == b where
  toSimilarity := similarity_beq
  equivalent rules := equivalent_congr rules
  alternatives rules := alternatives_rel rules
  splitDeclaration := splitDeclaration?_rel
  mergeDeclaration := mergeDeclaration?_rel

end Node

namespace Pattern

/-- Folds over corresponding lists with the same outcome at every step end alike. -/
theorem foldlM_eq_of_forall₂ {α β σ : Type} {r : α → β → Prop} {xs : List α} {ys : List β}
    {f : σ → α → Except Misuse σ} {g : σ → β → Except Misuse σ} (h : List.Forall₂ r xs ys)
    (hf : ∀ x ∈ xs, ∀ y, r x y → ∀ state, f state x = g state y) (state : σ) :
    xs.foldlM f state = ys.foldlM g state := by
  induction h generalizing state with
  | nil => rfl
  | @cons x y xs ys hItem _ ih =>
      rw [List.foldlM_cons, List.foldlM_cons, hf x List.mem_cons_self y hItem]
      congr 1
      funext state
      exact ih (fun x hx => hf x (List.mem_cons_of_mem _ hx)) state

/-- Adjacent globs are found alike in both spellings. -/
theorem adjacentGlobs?_eq {ps ps' : List Node} (h : List.Forall₂ (fun a b => a == b) ps ps') :
    adjacentGlobs? ps = adjacentGlobs? ps' := by
  induction h with
  | nil => rfl
  | @cons a a' rest rest' ha hRest ih =>
      cases hRest with
      | nil => rfl
      | cons hb hRest =>
          rw [adjacentGlobs?, adjacentGlobs?, Node.similarity_beq.glob?_eq ha,
            Node.similarity_beq.glob?_eq hb, ih]

theorem checkNeighbours_eq {f g : Field Node} (h : Field.Related (fun a b => a == b) f g) :
    checkNeighbours f = checkNeighbours g := by
  cases h with
  | seq h => rw [checkNeighbours, checkNeighbours, adjacentGlobs?_eq h]
  | _ => rfl

/-- The same names are found in equal trees, or the same mistake. -/
theorem addNames_eq (room : Bool) {a b : Node} (h : a == b) (vars : List (String × Extent)) :
    addNames room a vars = addNames room b vars := by
  induction hSize : sizeOf a using Nat.strongRecOn generalizing room a b vars with
  | ind size ih =>
      have hWild : a.wildcard? = b.wildcard? :=
        Node.similarity_beq.eq_of_label (fun | .wildcard w => some w | _ => none)
          (fun n => by cases n <;> rfl) (fun _ _ => rfl) h
      cases ha : a.wildcard? with
      | some w =>
          have hb : b.wildcard? = some w := hWild ▸ ha
          rw [Node.eq_wildcard_of_wildcard? ha, Node.eq_wildcard_of_wildcard? hb]
      | none =>
          rw [addNames_eq_foldlM ha, addNames_eq_foldlM (hWild ▸ ha)]
          refine foldlM_eq_of_forall₂ (Node.similarity_beq.fields h) (fun f hf g hSlot vars => ?_) vars
          have hRoom : hasRoom f = hasRoom g := by cases hSlot <;> rfl
          rw [checkNeighbours_eq hSlot, hRoom]
          congr 1
          funext _
          refine foldlM_eq_of_forall₂ hSlot.toList (fun c hc d hChild vars => ?_) vars
          have hSmaller := Node.sizeOf_lt_of_mem_children (List.mem_flatMap.2 ⟨f, hf, hc⟩)
          exact ih _ (hSize ▸ hSmaller) (hasRoom g) hChild vars rfl

/-- Equal patterns have the same names, or the same mistake. -/
theorem validate_eq {p p' : Node} (h : p == p') (constraints : List Constraint) :
    validate p constraints = validate p' constraints := by
  have hWild : p.isWildcard = p'.isWildcard :=
    Node.similarity_beq.eq_of_label (fun | .wildcard _ => true | _ => false)
      (fun n => by cases n <;> rfl) (fun _ _ => rfl) h
  rw [validate, validate, hWild, addNames_eq _ h]

end Pattern

namespace Node

/-- A run of equal nodes stands as equal nodes where one is wanted. -/
theorem ofRun_beq {ns ns' : List Node} (h : List.Forall₂ (fun a b => a == b) ns ns') :
    ofRun ns == ofRun ns' := by
  have hSequence : Node.sequence ns == .sequence ns' :=
    beq_of_related (BEq.refl _) (.cons (.seq h) .nil)
  cases h with
  | nil => exact hSequence
  | cons hFirst hRest =>
      cases hRest with
      | nil => exact hFirst
      | cons => exact hSequence

/-- Corresponding slots settle to corresponding slots. -/
theorem settle_related {f g : Field (List Node)}
    (h : Field.Related (List.Forall₂ fun a b => a == b) f g) :
    Field.Related (fun a b => a == b) (settle f) (settle g) := by
  cases h with
  | one h => exact .one (ofRun_beq h)
  | optNone => exact .optNone
  | optSome h => exact .optSome (ofRun_beq h)
  | stmtNone => exact .stmtNone
  | stmtSome h => exact .stmtSome (ofRun_beq h)
  | seq h => exact .seq (List.rel_flatten h)

end Node

namespace Site

/-- What a node becomes if it stays and its children are replaced by runs. -/
def refilled (s : Site) (run : Site → List Node) : Node :=
  s.node.label.build (s.fields.map fun field => Node.settle (field.map run))

/-- A site that is refilled keeps its label, and each of its slots is settled from what is put
in. -/
theorem view_refilled (s : Site) (run : Site → List Node) :
    (s.refilled run).label = s.node.label ∧
      (s.refilled run).fields = s.fields.map fun field => Node.settle (field.map run) := by
  apply Node.view_build
  rw [← s.map_node_fields]
  refine List.forall₂_map_left_iff.2 (List.forall₂_map_right_iff.2 ?_)
  exact List.forall₂_same.2 fun field _ => (Field.alike_map_map node run field).settle

namespace Twin

/-- A visitor that only looks at paths makes equal trees of equal trees. -/
theorem rebuild (visit : Site → Replacement)
    (hVisit : ∀ s t, s.path = t.path → visit s = visit t) {s t : Site}
    (h : Twin (fun a b => a == b) s t) :
    List.Forall₂ (fun a b => a == b) (Id.run (s.rebuildM fun s => pure (visit s)))
      (Id.run (t.rebuildM fun s => pure (visit s))) := by
  induction hSize : sizeOf s.node using Nat.strongRecOn generalizing s t with
  | ind size ih =>
      rw [rebuild_eq, rebuild_eq, hVisit s t h.path]
      cases visit t with
      | run nodes => exact List.forall₂_same.2 fun n _ => BEq.refl n
      | keep =>
          let run (c : Site) : List Node := Id.run (c.rebuildM fun s => pure (visit s))
          have hSlots : List.Forall₂ (Field.Related fun a b => a == b)
              (s.refilled run).fields (t.refilled run).fields := by
            rw [(s.view_refilled run).2, (t.view_refilled run).2]
            refine List.forall₂_map_left_iff.2 (List.forall₂_map_right_iff.2 ?_)
            have hFields := (List.forall₂_and_left (p := (· ∈ s.fields)) _ _).2
              ⟨fun _ hf => hf, h.fields Node.similarity_beq⟩
            refine hFields.imp fun f g hSlot => Node.settle_related ?_
            refine hSlot.2.mem.map fun c d hChild => ?_
            have hSmaller := sizeOf_lt_of_mem_children (mem_children_of_field hSlot.1 hChild.1)
            exact ih _ (hSize ▸ hSmaller) hChild.2 rfl
          have hLabel : (s.refilled run).label == (t.refilled run).label := by
            rw [(s.view_refilled run).1, (t.view_refilled run).1]
            exact Node.similarity_beq.label h.node
          exact .cons (Node.beq_of_related hLabel hSlots) .nil

end Twin

end Site

namespace Branch.Twin

variable {b b' : Branch}

/-- Corresponding bindings are erased at the same places. -/
theorem erasures_eq {N : Node → Node → Prop} (h : Twin N b b') : b.erasures = b'.erasures := by
  have hBinding : ∀ {name : String} {v v' : Binding}, Binding.Twin N v v' →
      v.erasure name = v'.erasure name := by
    intro name v v' hv
    cases hv with
    | one hSite => rw [Binding.erasure, Binding.erasure, hSite.path]
    | many hSites =>
        cases hSites with
        | nil => rfl
        | @cons s t ss ts hSite hRest =>
            have hPaths : ss.map (fun s => (s.path, ([] : List Node))) =
                ts.map fun s => (s.path, []) := by
              rw [← List.forall₂_eq_eq_eq, List.forall₂_map_left_iff, List.forall₂_map_right_iff]
              exact hRest.imp fun _ _ hSite => by rw [hSite.path]
            rw [Binding.erasure, Binding.erasure, hSite.path, hPaths]
  rw [erasures, erasures, ← List.forall₂_eq_eq_eq]
  refine forall₂_flatMap h.named ?_
  rintro ⟨name, v⟩ ⟨_, v'⟩ ⟨rfl, hv⟩
  rw [List.forall₂_eq_eq_eq]
  exact hBinding hv

/-- A root is replaced by its wildcard alike in both spellings. -/
theorem erased_beq (h : Twin (fun a b => a == b) b b') {s t : Site}
    (hs : Site.Twin (fun a b => a == b) s t) : b.erased s == b'.erased t := by
  rw [erased, erased, ← h.erasures_eq]
  exact Node.ofRun_beq (hs.rebuild _ fun s t hPath => by rw [hPath])

end Branch.Twin

theorem list_beq_iff {α : Type} [BEq α] {as bs : List α} :
    as == bs ↔ List.Forall₂ (fun a b => a == b) as bs := by
  induction as generalizing bs with
  | nil => cases bs <;> simp
  | cons a as ih => cases bs <;> simp [ih]

/-- Corresponding captures are equal. -/
theorem Capture.beq_of_twin {v w : Capture} (h : Capture.Twin (fun a b => a == b) v w) : v == w := by
  cases h with
  | one h => exact h
  | many h => exact list_beq_iff.2 h

namespace Branch.Twin

variable {b b' : Branch}

/-- Equal values at the same places, in equal trees, make equal results. -/
theorem finish (h : Twin (fun a b => a == b) b b') {s t : Site}
    (hs : Site.Twin (fun a b => a == b) s t) :
    (b.finish s).anonymous == (b'.finish t).anonymous ∧ (b.finish s).vars == (b'.finish t).vars ∧
      (b.finish s).root == (b'.finish t).root := by
  refine ⟨list_beq_iff.2 ?_, list_beq_iff.2 ?_, ?_⟩
  · refine List.forall₂_map_left_iff.2 (List.forall₂_map_right_iff.2 ?_)
    exact h.anonymous.imp fun _ _ hv => Capture.beq_of_twin hv.capture
  · refine List.forall₂_map_left_iff.2 (List.forall₂_map_right_iff.2 (h.named.imp ?_))
    rintro ⟨name, v⟩ ⟨_, v'⟩ ⟨rfl, hv⟩
    exact Bool.and_eq_true_iff.2 ⟨beq_self_eq_true name, Capture.beq_of_twin hv.capture⟩
  · refine h.erased_beq ?_
    have hRoot := h.root
    generalize b.root = root at hRoot
    generalize b'.root = root' at hRoot
    cases hRoot with
    | none => exact hs
    | some hSite => exact hSite

end Branch.Twin

namespace Conditions

/-- Conditions that do not look at the spelling of literals correspond to themselves. -/
theorem twin_self {conditions : Conditions}
    (hTests : ∀ c ∈ conditions.constraints, ∀ values values' : List Capture,
      values == values' → c.test values = c.test values') :
    Conditions.Twin (fun a b => a == b) Eq conditions conditions where
  constraints := by
    refine List.forall₂_same.2 fun c hc => ⟨rfl, fun values values' h => ?_⟩
    exact hTests c hc values values' (list_beq_iff.2 (h.imp fun _ _ hv => Capture.beq_of_twin hv))
  rules := rfl
  orderMatters := rfl
  pass v v' h := by rw [h]

/-- Trees are used as they are, so a pattern is only validated. -/
theorem matchCode_tree (conditions : Conditions) (source pattern : Node) :
    conditions.matchCode (.tree source) (.tree pattern) =
      (Pattern.validate pattern conditions.constraints).map fun _ =>
        Outcome.ofSearch (conditions.searchCode pattern (.root source)) (.root source) := by
  change (Pattern.validate pattern conditions.constraints >>= fun vars => _) >>= _ = _
  cases Pattern.validate pattern conditions.constraints <;> rfl

/-- Looking for equal patterns in equal programs gives the same refusal, the same reason for not
finding anything, or equal values for all wildcards and an equal root. -/
theorem matchCode_of_beq {conditions : Conditions}
    (hTests : ∀ c ∈ conditions.constraints, ∀ values values' : List Capture,
      values == values' → c.test values = c.test values')
    {source source' pattern pattern' : Node} (hSource : source == source')
    (hPattern : pattern == pattern') :
    Outcome.Alike Eq
      (fun found found' => found.anonymous == found'.anonymous ∧ found.vars == found'.vars ∧
        found.root == found'.root)
      (conditions.matchCode (.tree source) (.tree pattern))
      (conditions.matchCode (.tree source') (.tree pattern')) := by
  have hSites := Site.Twin.root (N := fun a b => a == b) hSource
  obtain ⟨hFound, hAsked⟩ :=
    ((twin_self hTests).searchCode Node.congruence_beq hPattern hSites).first
  have hReasons := Inquiry.Twin.reasons_eq hAsked
  rw [matchCode_tree, matchCode_tree, Pattern.validate_eq hPattern]
  cases Pattern.validate pattern' conditions.constraints with
  | error e => exact .error e
  | ok vars =>
      simp only [Except.map, Outcome.ofSearch]
      generalize (conditions.searchCode pattern (.root source)).first = result at hFound hReasons
      generalize (conditions.searchCode pattern' (.root source')).first = result' at hFound hReasons
      obtain ⟨found, asked⟩ := result
      obtain ⟨found', asked'⟩ := result'
      cases hFound with
      | none => exact .failed (congrArg List.getLast? hReasons)
      | some hBranch => exact .matched (hBranch.finish hSites)

/-- The pattern `f($x, 16);` at `f('a', 16);`, under the condition that `$x` is the text `a`, and the
same written with double quotes and in hexadecimal. -/
theorem matchCode_of_beq_quotes :
    let sixteen (raw : String) : Node := .literal ⟨.number (.ofInt 16), raw⟩
    let source (quoted number : String) : Node :=
      .expr (.call (.ident "f") [.literal ⟨.string "a", quoted⟩, sixteen number])
    let pattern (number : String) : Node :=
      .expr (.call (.ident "f") [.wildcard ⟨some "x", .scalar⟩, sixteen number])
    let isA : Constraint := ⟨["x"], fun values =>
      if (values.head?.bind Capture.node?).any (· == .string "a") then .pass else .failure "not a"⟩
    let conditions : Conditions := ⟨[isA], some .all, true⟩
    source "'a'" "16" == source "\"a\"" "0x10" ∧ pattern "16" == pattern "0x10" ∧
      ∃ found asked found' asked',
        conditions.matchCode (.tree (source "'a'" "16")) (.tree (pattern "16")) =
          .ok (.matched found, asked) ∧
        conditions.matchCode (.tree (source "\"a\"" "0x10")) (.tree (pattern "0x10")) =
          .ok (.matched found', asked') ∧
        found.anonymous == found'.anonymous ∧ found.vars == found'.vars ∧
        found.root == found'.root := by
  intro sixteen source pattern isA conditions
  have hSource : source "'a'" "16" == source "\"a\"" "0x10" := by decide +kernel
  have hPattern : pattern "16" == pattern "0x10" := by decide +kernel
  have hTests : ∀ c ∈ conditions.constraints, ∀ values values' : List Capture,
      values == values' → c.test values = c.test values' := by
    intro c hc values values' h
    rw [List.mem_singleton.1 hc]
    cases list_beq_iff.1 h with
    | nil => rfl
    | @cons v w _ _ hFirst _ =>
        cases v with
        | one a =>
            cases w with
            | one b =>
                have hSame : (a == .string "a") = (b == .string "a") := BEq.congr_left (a := a) hFirst
                change (if a == .string "a" then _ else _) = if b == .string "a" then _ else _
                rw [hSame]
            | many bs => cases hFirst
        | many as =>
            cases w with
            | one b => cases hFirst
            | many bs => rfl
  obtain ⟨found, asked, hMatch⟩ : ∃ found asked,
      conditions.matchCode (.tree (source "'a'" "16")) (.tree (pattern "16")) =
        .ok (.matched found, asked) := Outcome.exists_matched_of_verdict (by decide +kernel)
  obtain ⟨found', asked', hMatch'⟩ : ∃ found' asked',
      conditions.matchCode (.tree (source "\"a\"" "0x10")) (.tree (pattern "0x10")) =
        .ok (.matched found', asked') := Outcome.exists_matched_of_verdict (by decide +kernel)
  have hSame := matchCode_of_beq hTests hSource hPattern
  rw [hMatch, hMatch'] at hSame
  cases hSame with
  | matched hReport =>
      exact ⟨hSource, hPattern, found, asked, found', asked', hMatch, hMatch', hReport⟩

end Conditions

end CodeShape
