import CodeShape.Finder
import CodeShape.Proofs.Clutter
import CodeShape.Proofs.Equality
import CodeShape.Proofs.Leniency

/-! Two searches side by side. If two programs, two patterns and two sets of conditions correspond,
every step of one search has its counterpart in the other: the same choices in the same order, with
corresponding bindings and corresponding questions to the conditions. What corresponding trees have
to have in common for this is stated as a congruence. -/
namespace CodeShape

open Relator in
/-- Corresponding lists of corresponding lists correspond when they are flattened. -/
theorem forall₂_flatMap {α α' β β' : Type} {r : α → α' → Prop} {s : β → β' → Prop} {as : List α}
    {as' : List α'} {f : α → List β} {f' : α' → List β'} (h : List.Forall₂ r as as')
    (hf : ∀ a a', r a a' → List.Forall₂ s (f a) (f' a')) :
    List.Forall₂ s (as.flatMap f) (as'.flatMap f') :=
  List.rel_flatMap h fun _ _ hr => hf _ _ hr

/-- A test of all pairs of two lists comes out alike on corresponding lists. -/
theorem all_zip_eq {α α' : Type} {r : α → α' → Prop} {xs ys : List α} {xs' ys' : List α'}
    {f : α → α → Bool} {f' : α' → α' → Bool} (hxs : List.Forall₂ r xs xs')
    (hys : List.Forall₂ r ys ys')
    (hf : ∀ x x' y y', r x x' → y ∈ ys → r y y' → f x y = f' x' y') :
    ((xs.zip ys).all fun pair => f pair.1 pair.2) =
      (xs'.zip ys').all fun pair => f' pair.1 pair.2 := by
  induction hxs generalizing ys ys' with
  | nil => rfl
  | @cons x x' _ _ hx _ ih =>
      cases hys with
      | nil => rfl
      | @cons y y' _ _ hy hys =>
          simp only [List.zip_cons_cons, List.all_cons]
          rw [hf x x' y y' hx List.mem_cons_self hy,
            ih hys fun x x' y y' hx hMem => hf x x' y y' hx (List.mem_cons_of_mem _ hMem)]

/-- Flat maps that correspond on the elements of the first list. -/
theorem forall₂_flatMap_of_mem {α α' β β' : Type} {r : α → α' → Prop} {s : β → β' → Prop}
    {as : List α} {as' : List α'} {f : α → List β} {f' : α' → List β'} (h : List.Forall₂ r as as')
    (hf : ∀ a ∈ as, ∀ a', r a a' → List.Forall₂ s (f a) (f' a')) :
    List.Forall₂ s (as.flatMap f) (as'.flatMap f') :=
  forall₂_flatMap ((List.forall₂_and_left (p := (· ∈ as)) as as').2 ⟨fun _ ha => ha, h⟩)
    fun a a' hr => hf a hr.1 a' hr.2

namespace Search

variable {ε ε' α α' β β' γ γ' : Type}

/-- Two searches with the same steps in the same order. -/
inductive Parallel (E : ε → ε' → Prop) (R : α → α' → Prop) :
    Search ε α → Search ε' α' → Prop where
  | done : Parallel E R .done .done
  | found {a : α} {a' : α'} {rest : Unit → Search ε α} {rest' : Unit → Search ε' α'}
      (hSolution : R a a') (hRest : Parallel E R (rest ()) (rest' ())) :
      Parallel E R (.found a rest) (.found a' rest')
  | event {e : ε} {e' : ε'} {rest : Unit → Search ε α} {rest' : Unit → Search ε' α'}
      (hEvent : E e e') (hRest : Parallel E R (rest ()) (rest' ())) :
      Parallel E R (.event e rest) (.event e' rest')

namespace Parallel

variable {E : ε → ε' → Prop} {R : α → α' → Prop} {S : β → β' → Prop} {Q : γ → γ' → Prop}

theorem one {a : α} {a' : α'} (h : R a a') : Parallel E R (.one a) (.one a') := .found h .done

/-- Alternatives of corresponding searches correspond. -/
theorem orElse {s : Search ε α} {s' : Search ε' α'} {t : Unit → Search ε α}
    {t' : Unit → Search ε' α'} (hs : Parallel E R s s') (ht : Parallel E R (t ()) (t' ())) :
    Parallel E R (s.orElse t) (s'.orElse t') := by
  induction hs with
  | done => exact ht
  | found hSolution _ ih => exact .found hSolution ih
  | event hEvent _ ih => exact .event hEvent ih

/-- A search after another corresponds if it does so for all corresponding answers of the first. -/
theorem andThen {s : Search ε α} {s' : Search ε' α'} {f : α → Search ε β} {f' : α' → Search ε' β'}
    (hs : Parallel E R s s') (hf : ∀ a a', R a a' → Parallel E S (f a) (f' a')) :
    Parallel E S (s.andThen f) (s'.andThen f') := by
  induction hs with
  | done => exact .done
  | found hSolution _ ih => exact (hf _ _ hSolution).orElse ih
  | event hEvent _ ih => exact .event hEvent ih

/-- Searches over corresponding items correspond. -/
theorem firstOf {items : List α} {items' : List α'} {f : α → Search ε β} {f' : α' → Search ε' β'}
    (h : List.Forall₂ R items items') (hf : ∀ a a', R a a' → Parallel E S (f a) (f' a')) :
    Parallel E S (.firstOf f items) (.firstOf f' items') := by
  induction h with
  | nil => exact .done
  | cons hItem _ ih => exact (hf _ _ hItem).orElse ih

/-- Corresponding questions may be asked before corresponding searches. -/
theorem after {events : List ε} {events' : List ε'} {s : Search ε α} {s' : Search ε' α'}
    (h : List.Forall₂ E events events') (hs : Parallel E R s s') :
    Parallel E R (.after events s) (.after events' s') := by
  induction h with
  | nil => exact hs
  | cons hEvent _ ih => exact .event hEvent ih

/-- Two searches in parallel succeed or fail together, and ask corresponding questions until
then. -/
theorem succeeds {s : Search ε α} {s' : Search ε' α'} (h : Parallel E R s s') :
    Parallel E Eq s.succeeds s'.succeeds := by
  induction h with
  | done => exact one rfl
  | found => exact one rfl
  | event hEvent _ ih => exact .event hEvent ih

/-- Commitment falls on corresponding items, since the probes succeed together. -/
theorem committed {items : List α} {items' : List α'} {probe : α → Search ε γ}
    {probe' : α' → Search ε' γ'} {run : α → Search ε β} {run' : α' → Search ε' β'}
    (h : List.Forall₂ R items items') (hProbe : ∀ a a', R a a' → Parallel E Q (probe a) (probe' a'))
    (hRun : ∀ a a', R a a' → Parallel E S (run a) (run' a')) :
    Parallel E S (.committed probe run items) (.committed probe' run' items') := by
  induction h with
  | nil => exact .done
  | cons hItem _ ih =>
      refine (hProbe _ _ hItem).succeeds.andThen ?_
      rintro success _ rfl
      cases success with
      | true => exact hRun _ _ hItem
      | false => exact ih

/-- The searches end alike, after corresponding events. -/
theorem first {s : Search ε α} {s' : Search ε' α'} (h : Parallel E R s s') :
    Option.Rel R s.first.1 s'.first.1 ∧ List.Forall₂ E s.first.2 s'.first.2 := by
  induction h with
  | done => exact ⟨.none, .nil⟩
  | found hSolution => exact ⟨.some hSolution, .nil⟩
  | event hEvent _ ih => exact ⟨ih.1, .cons hEvent ih.2⟩

end Parallel

end Search

namespace Field.Related

variable {α α' β β' : Type} {r : α → α' → Prop} {s : β → β' → Prop} {f : Field α} {g : Field α'}

/-- Slots that correspond hold corresponding parts. -/
theorem toList (h : Related r f g) : List.Forall₂ r f.toList g.toList := by
  cases h with
  | one h | optSome h | stmtSome h => exact .cons h .nil
  | optNone | stmtNone => exact .nil
  | seq h => exact h

/-- Images of corresponding slots correspond. -/
theorem map {k : α → β} {k' : α' → β'} (h : Related r f g) (hk : ∀ a a', r a a' → s (k a) (k' a')) :
    Related s (f.map k) (g.map k') := by
  cases h with
  | one h => exact .one (hk _ _ h)
  | optNone => exact .optNone
  | optSome h => exact .optSome (hk _ _ h)
  | stmtNone => exact .stmtNone
  | stmtSome h => exact .stmtSome (hk _ _ h)
  | seq h =>
      exact .seq (List.forall₂_map_left_iff.2 (List.forall₂_map_right_iff.2 (h.imp hk)))

/-- The correspondence may be used along with the membership in the first slot. -/
theorem mem (h : Related r f g) : Related (fun a b => a ∈ f.toList ∧ r a b) f g := by
  cases h with
  | one h => exact .one ⟨List.mem_singleton_self _, h⟩
  | optNone => exact .optNone
  | optSome h => exact .optSome ⟨List.mem_singleton_self _, h⟩
  | stmtNone => exact .stmtNone
  | stmtSome h => exact .stmtSome ⟨List.mem_singleton_self _, h⟩
  | seq h => exact .seq ((List.forall₂_and_left _ _).2 ⟨fun _ ha => ha, h⟩)

theorem refl {r : α → α → Prop} (hr : ∀ a, r a a) (f : Field α) : Related r f f := by
  cases f with
  | one a => exact .one (hr a)
  | opt a? =>
      cases a? with
      | none => exact .optNone
      | some a => exact .optSome (hr a)
  | stmt a? =>
      cases a? with
      | none => exact .stmtNone
      | some a => exact .stmtSome (hr a)
  | seq pairing as => exact .seq (List.forall₂_same.2 fun a _ => hr a)

theorem zipIdx {as : List α} {bs : List α'} (h : List.Forall₂ r as bs) (start : Nat) :
    List.Forall₂ (fun x y => x.2 = y.2 ∧ r x.1 y.1) (as.zipIdx start) (bs.zipIdx start) := by
  induction h generalizing start with
  | nil => exact .nil
  | cons hItem _ ih => exact .cons ⟨rfl, hItem⟩ (ih (start + 1))

/-- Numbering the parts of corresponding slots gives them the same numbers. -/
theorem number (h : Related r f g) (start : Nat) :
    Related (fun x y => x.1 = y.1 ∧ r x.2 y.2) (f.number start) (g.number start) := by
  cases h with
  | one h => exact .one ⟨rfl, h⟩
  | optNone => exact .optNone
  | optSome h => exact .optSome ⟨rfl, h⟩
  | stmtNone => exact .stmtNone
  | stmtSome h => exact .stmtSome ⟨rfl, h⟩
  | seq h =>
      refine .seq (List.forall₂_map_left_iff.2 (List.forall₂_map_right_iff.2 ?_))
      exact zipIdx h start

/-- Numbering all the parts of corresponding rows of slots gives them the same numbers. -/
theorem numberAll {fs : List (Field α)} {gs : List (Field α')} (h : List.Forall₂ (Related r) fs gs)
    (start : Nat) : List.Forall₂ (Related fun x y => x.1 = y.1 ∧ r x.2 y.2)
      (Field.numberAll start fs) (Field.numberAll start gs) := by
  induction h generalizing start with
  | nil => exact .nil
  | cons hSlot _ ih =>
      refine .cons (hSlot.number start) ?_
      rw [← hSlot.toList.length_eq]
      exact ih _

end Field.Related

namespace Label

/-- What does not depend on the value of a literal is the same for equal labels. -/
theorem eq_of_beq {γ : Type} (f : Label → γ) (hf : ∀ v w, f (.literal v) = f (.literal w))
    {l l' : Label} (h : l == l') : f l = f l' := by
  rcases Label.beq_iff.1 h with rfl | ⟨v, w, rfl, rfl, -⟩
  · rfl
  · exact hf v w

end Label

/-- A correspondence of trees with equal labels, child by child. -/
structure Node.Similarity (N : Node → Node → Prop) : Prop where
  label {a b : Node} (h : N a b) : a.label == b.label
  fields {a b : Node} (h : N a b) : List.Forall₂ (Field.Related N) a.fields b.fields

/-- A correspondence of trees that a search cannot tell apart: the rules make corresponding forms of
corresponding patterns. -/
structure Node.Congruence (N : Node → Node → Prop) : Prop extends Node.Similarity N where
  equivalent {a a' b b' : Node} (rules : Option Rules) (h : N a a') (h' : N b b') :
    Node.equivalent rules a b = Node.equivalent rules a' b'
  alternatives {p p' c c' : Node} (rules : Rules) (h : N p p') (h' : N c c') :
    List.Forall₂ N (p.alternatives rules c) (p'.alternatives rules c')
  splitDeclaration {p p' : Node} (h : N p p') :
    Option.Rel (fun halves halves' => N halves.1 halves'.1 ∧ N halves.2 halves'.2)
      p.splitDeclaration? p'.splitDeclaration?
  mergeDeclaration {p p' q q' : Node} (h : N p p') (h' : N q q') :
    Option.Rel N (p.mergeDeclaration? q) (p'.mergeDeclaration? q')

namespace Node.Similarity

variable {N : Node → Node → Prop} (hN : Node.Similarity N) {a b : Node}

include hN

/-- What is read off the label, and is no value of a literal, is read alike off both nodes. -/
theorem eq_of_label {γ : Type} {g : Node → γ} (f : Label → γ) (hg : ∀ n, g n = f n.label)
    (hf : ∀ v w, f (.literal v) = f (.literal w)) (h : N a b) : g a = g b := by
  rw [hg, hg]
  exact Label.eq_of_beq f hf (hN.label h)

/-- Corresponding nodes have corresponding children. -/
theorem children (h : N a b) : List.Forall₂ N a.children b.children :=
  forall₂_flatMap (hN.fields h) fun _ _ hSlot => hSlot.toList

/-- Corresponding nodes are of one height, so the layers of the two searches are numbered alike. -/
theorem height_eq (h : N a b) : a.height = b.height := by
  induction hSize : sizeOf a using Nat.strongRecOn generalizing a b with
  | ind size ih =>
      have hHeights : List.Forall₂ Eq (a.children.map Node.height) (b.children.map Node.height) := by
        refine List.forall₂_map_left_iff.2 (List.forall₂_map_right_iff.2 ?_)
        exact Node.forall₂_imp_mem (hN.children h) fun c hc _ _ hChild =>
          ih _ (hSize ▸ Node.sizeOf_lt_of_mem_children hc) hChild rfl
      rw [List.forall₂_eq_eq_eq] at hHeights
      rw [a.height_eq, b.height_eq, hHeights]

/-- Whether two nodes are of one shape is the same for the nodes that correspond to them. -/
theorem sameShape_eq {p p' : Node} (hp : N p p') (h : N a b) :
    p.sameShape a = p'.sameShape b := by
  rw [sameShape, sameShape, BEq.congr_left (Label.unabbreviated_beq (hN.label hp)),
    BEq.congr_right (Label.unabbreviated_beq (hN.label h))]

theorem glob?_eq (h : N a b) : a.glob? = b.glob? := by
  -- A wildcard has no children: its label is all there is to look at.
  exact hN.eq_of_label (fun l => (l.build []).glob?) (fun n => by cases n <;> rfl)
    (fun _ _ => rfl) h

theorem isConcrete_eq (h : N a b) : a.isConcrete = b.isConcrete :=
  hN.eq_of_label (fun | .wildcard _ | .hole => false | _ => true) (fun n => by cases n <;> rfl)
    (fun _ _ => rfl) h

theorem wholeOnly_eq (h : N a b) : Duty.wholeOnly a = Duty.wholeOnly b :=
  hN.eq_of_label (fun | .expr => true | _ => false) (fun n => by cases n <;> rfl)
    (fun _ _ => rfl) h

/-- The counterpart of a node is the node built from counterparts of its children. -/
theorem exists_build (h : N a b) (ha : a.fields ≠ []) :
    ∃ gs, List.Forall₂ (Field.Related N) a.fields gs ∧ b = a.label.build gs := by
  refine ⟨b.fields, hN.fields h, ?_⟩
  rcases Label.beq_iff.1 (hN.label h) with hSame | ⟨v, _, hLiteral, -⟩
  · rw [hSame, b.build_label_fields]
  · cases a <;> cases hLiteral
    exact absurd rfl ha

/-- The counterpart of a node without children is the node itself. Literals are an exception. -/
theorem eq_of_leaf (h : N a b) (ha : a.fields = []) (hLiteral : ∀ v, a ≠ .literal v) : a = b := by
  rcases Label.beq_iff.1 (hN.label h) with hSame | ⟨v, _, hLabel, -⟩
  · have hSlots := hN.fields h
    rw [ha] at hSlots
    rw [← a.build_label_fields, ← b.build_label_fields, hSame, ha, List.forall₂_nil_left_iff.1 hSlots]
  · cases a <;> cases hLabel
    exact absurd rfl (hLiteral v)

/-- What corresponds to a node with one child has one child too. -/
theorem exists_one {x : Node} (h : N a b) (hFields : a.fields = [.one x]) :
    ∃ x', b = a.label.build [.one x'] ∧ N x x' := by
  obtain ⟨gs, hSlots, rfl⟩ := hN.exists_build h (by rw [hFields]; nofun)
  rw [hFields] at hSlots
  rcases hSlots with _ | ⟨hSlot, hNone⟩
  cases hNone
  cases hSlot with
  | one hChild => exact ⟨_, rfl, hChild⟩

/-- What corresponds to a node with two children has two children too. -/
theorem exists_two {x y : Node} (h : N a b) (hFields : a.fields = [.one x, .one y]) :
    ∃ x' y', b = a.label.build [.one x', .one y'] ∧ N x x' ∧ N y y' := by
  obtain ⟨gs, hSlots, rfl⟩ := hN.exists_build h (by rw [hFields]; nofun)
  rw [hFields] at hSlots
  rcases hSlots with _ | ⟨hLeft, _ | ⟨hRight, hNone⟩⟩
  cases hNone
  cases hLeft with
  | one hLeft =>
      cases hRight with
      | one hRight => exact ⟨_, _, rfl, hLeft, hRight⟩

/-- What corresponds to a node with a list of children has a list as long. -/
theorem exists_list {pairing : Pairing} {items : List Node} (h : N a b)
    (hFields : a.fields = [.seq pairing items]) :
    ∃ items', b = a.label.build [.seq pairing items'] ∧ List.Forall₂ N items items' := by
  obtain ⟨gs, hSlots, rfl⟩ := hN.exists_build h (by rw [hFields]; nofun)
  rw [hFields] at hSlots
  rcases hSlots with _ | ⟨hSlot, hNone⟩
  cases hNone
  cases hSlot with
  | seq hItems => exact ⟨_, rfl, hItems⟩

theorem isProgram_iff (h : N a b) : a.label = .program ↔ b.label = .program := by
  have hTest : ∀ l : Label, l = .program ↔ l matches .program := fun l => by cases l <;> simp
  rw [hTest, hTest, Label.eq_of_beq (· matches .program) (fun _ _ => rfl) (hN.label h)]

theorem isBlock_iff (h : N a b) : a.label = .block ↔ b.label = .block := by
  have hTest : ∀ l : Label, l = .block ↔ l matches .block := fun l => by cases l <;> simp
  rw [hTest, hTest, Label.eq_of_beq (· matches .block) (fun _ _ => rfl) (hN.label h)]

theorem seeksBelow_eq (h : N a b) : ListMatcher.seeksBelow a = ListMatcher.seeksBelow b := by
  have hEmpty : a.children.isEmpty = b.children.isEmpty := by
    rw [Bool.eq_iff_iff, List.isEmpty_iff_length_eq_zero, List.isEmpty_iff_length_eq_zero,
      (hN.children h).length_eq]
  have hSeeks : ∀ n, ListMatcher.seeksBelow n =
      (!(n.label matches .block) && !n.children.isEmpty) := by
    intro n
    cases n <;> rfl
  rw [hSeeks, hSeeks, hEmpty, Label.eq_of_beq (· matches .block) (fun _ _ => rfl) (hN.label h)]

end Node.Similarity

/-- The same place in two trees, with corresponding nodes there. -/
structure Site.Twin (N : Node → Node → Prop) (s t : Site) : Prop where
  path : s.path = t.path
  node : N s.node t.node

namespace Site.Twin

variable {N : Node → Node → Prop} {s t : Site}

/-- Corresponding programs are corresponding sites at their roots. -/
theorem root {a b : Node} (h : N a b) : Twin N (.root a) (.root b) := ⟨rfl, h⟩

variable (hN : Node.Similarity N)

include hN

/-- The sites below corresponding sites correspond slot by slot. -/
theorem fields (h : Twin N s t) : List.Forall₂ (Field.Related (Twin N)) s.fields t.fields := by
  refine List.forall₂_map_left_iff.2 (List.forall₂_map_right_iff.2 ?_)
  refine (Field.Related.numberAll (hN.fields h.node) 0).imp fun _ _ hSlot => hSlot.map ?_
  rintro ⟨i, a⟩ ⟨_, b⟩ ⟨rfl, hChild⟩
  exact ⟨congrArg (· ++ [i]) h.path, hChild⟩

theorem children (h : Twin N s t) : List.Forall₂ (Twin N) s.children t.children :=
  forall₂_flatMap (h.fields hN) fun _ _ hSlot => hSlot.toList

/-- The sites of two corresponding trees correspond in preorder. -/
theorem descendants (h : Twin N s t) : List.Forall₂ (Twin N) s.descendants t.descendants := by
  induction hSize : sizeOf s.node using Nat.strongRecOn generalizing s t with
  | ind size ih =>
      rw [s.descendants_eq, t.descendants_eq]
      exact .cons h (forall₂_flatMap_of_mem (h.children hN) fun c hc d hChild =>
        ih _ (hSize ▸ sizeOf_lt_of_mem_children hc) hChild rfl)

theorem holdsBody_iff (h : Twin N s t) : s.HoldsBody ↔ t.HoldsBody := by
  rw [HoldsBody, HoldsBody, hN.isProgram_iff h.node, hN.isBlock_iff h.node]

/-- Corresponding bodies offer corresponding statements. -/
theorem statements (h : Twin N s t) : List.Forall₂ (Twin N) s.statements t.statements := by
  by_cases hBlock : s.node.label = .block
  · have hBlock' := (hN.isBlock_iff h.node).1 hBlock
    rw [statements_of_block hBlock, statements_of_block hBlock']
    exact h.children hN
  · have hBlock' := fun hLabel => hBlock ((hN.isBlock_iff h.node).2 hLabel)
    rw [statements_of_other hBlock, statements_of_other hBlock']
    exact .cons h .nil

/-- The lists of statements nested in corresponding sites correspond. -/
theorem nestedLists (h : Twin N s t) :
    List.Forall₂ (List.Forall₂ (Twin N)) s.nestedLists t.nestedLists := by
  induction hSize : sizeOf s.node using Nat.strongRecOn generalizing s t with
  | ind size ih =>
      by_cases hBody : s.HoldsBody
      · rw [nestedLists_of_body hBody, nestedLists_of_body ((h.holdsBody_iff hN).1 hBody)]
        exact .cons (h.children hN) .nil
      · rw [nestedLists_of_other hBody,
          nestedLists_of_other fun hBody' => hBody ((h.holdsBody_iff hN).2 hBody')]
        refine forall₂_flatMap_of_mem (h.fields hN) fun f hf g hSlot => ?_
        have hBelow : List.Forall₂ (List.Forall₂ (Twin N)) (f.toList.flatMap Site.nestedLists)
            (g.toList.flatMap Site.nestedLists) :=
          forall₂_flatMap_of_mem hSlot.toList fun c hc d hChild =>
            ih _ (hSize ▸ sizeOf_lt_of_mem_children (mem_children_of_field hf hc)) hChild rfl
        cases hSlot with
        | stmtNone => exact .nil
        | stmtSome hChild => exact .cons (hChild.statements hN) .nil
        | one | optNone | optSome | seq => exact hBelow

end Site.Twin

/-- Corresponding spots, with corresponding sites after them. -/
structure Spot.Twin (N : Node → Node → Prop) (spot spot' : Spot) : Prop where
  site : Site.Twin N spot.site spot'.site
  following : List.Forall₂ (Site.Twin N) spot.following spot'.following

namespace Spot.Twin

variable {N : Node → Node → Prop} {cs cs' : List Site}

/-- Corresponding lists have corresponding spots. -/
theorem ofList (h : List.Forall₂ (Site.Twin N) cs cs') :
    List.Forall₂ (Twin N) (Spot.ofList cs) (Spot.ofList cs') := by
  induction h with
  | nil => exact .nil
  | cons hSite hRest ih => exact .cons ⟨hSite, hRest⟩ ih

/-- Corresponding lists have corresponding spots to any depth. -/
theorem within (hN : Node.Similarity N) (depth : Nat) (h : List.Forall₂ (Site.Twin N) cs cs') :
    List.Forall₂ (Twin N) (Spot.within depth cs) (Spot.within depth cs') := by
  induction depth generalizing cs cs' with
  | zero => exact ofList h
  | succ depth ih =>
      refine forall₂_flatMap (ofList h) fun spot spot' hSpot => .cons hSpot ?_
      exact forall₂_flatMap (hSpot.site.nestedLists hN) fun _ _ hList => ih hList

end Spot.Twin

/-- Values of one extent with corresponding nodes. -/
inductive Capture.Twin (N : Node → Node → Prop) : Capture → Capture → Prop where
  | one {a b : Node} (h : N a b) : Twin N (.one a) (.one b)
  | many {as bs : List Node} (h : List.Forall₂ N as bs) : Twin N (.many as) (.many bs)

/-- Bindings of one extent to corresponding sites. -/
inductive Binding.Twin (N : Node → Node → Prop) : Binding → Binding → Prop where
  | one {s t : Site} (h : Site.Twin N s t) : Twin N (.one s) (.one t)
  | many {ss ts : List Site} (h : List.Forall₂ (Site.Twin N) ss ts) : Twin N (.many ss) (.many ts)

namespace Binding.Twin

variable {N : Node → Node → Prop} {v v' : Binding}

theorem sites (h : Twin N v v') : List.Forall₂ (Site.Twin N) v.sites v'.sites := by
  cases h with
  | one h => exact .cons h .nil
  | many h => exact h

/-- Corresponding bindings capture corresponding subtrees. -/
theorem capture (h : Twin N v v') : Capture.Twin N v.capture v'.capture := by
  cases h with
  | one h => exact .one h.node
  | many h =>
      refine .many (List.forall₂_map_left_iff.2 (List.forall₂_map_right_iff.2 ?_))
      exact h.imp fun _ _ hSite => hSite.node

/-- A wildcard is bound to corresponding values at corresponding sites. -/
theorem valueAt (w : Wildcard) {s t : Site} (h : Site.Twin N s t) :
    Twin N (w.valueAt s) (w.valueAt t) := by
  obtain ⟨name, extent⟩ := w
  cases extent with
  | scalar => exact .one h
  | glob => exact .many (.cons h .nil)

end Binding.Twin

/-- Corresponding bindings of the same names, made in the same order. -/
structure Branch.Twin (N : Node → Node → Prop) (b b' : Branch) : Prop where
  anonymous : List.Forall₂ (Binding.Twin N) b.anonymous b'.anonymous
  named : List.Forall₂ (fun x y => x.1 = y.1 ∧ Binding.Twin N x.2 y.2) b.named b'.named
  root : Option.Rel (Site.Twin N) b.root b'.root

namespace Branch.Twin

variable {N : Node → Node → Prop} {b b' : Branch}

theorem start : Twin N .start .start := ⟨.nil, .nil, .none⟩

theorem rootedAt {s t : Site} (h : Site.Twin N s t) : Twin N (.rootedAt s) (.rootedAt t) :=
  ⟨.nil, .nil, .some h⟩

/-- A name is bound in both branches or in neither, and then to corresponding values. -/
theorem find? (h : Twin N b b') (name : String) :
    Option.Rel (Binding.Twin N) (b.find? name) (b'.find? name) := by
  have hLookup : ∀ {xs ys : List (String × Binding)},
      List.Forall₂ (fun x y => x.1 = y.1 ∧ Binding.Twin N x.2 y.2) xs ys →
        Option.Rel (Binding.Twin N) (xs.lookup name) (ys.lookup name) := by
    intro xs ys hNamed
    induction hNamed with
    | nil => exact .none
    | @cons x y xs ys hPair _ ih =>
        obtain ⟨other, v⟩ := x
        obtain ⟨_, v'⟩ := y
        obtain ⟨rfl, hValue⟩ := hPair
        rw [List.lookup_cons, List.lookup_cons]
        cases name == other with
        | true => exact .some hValue
        | false => exact ih
  exact hLookup h.named

/-- Anchoring corresponding branches at corresponding sites keeps them so. -/
theorem anchor (h : Twin N b b') {s s' : Option Site} (hs : Option.Rel (Site.Twin N) s s') :
    Twin N (b.anchor s) (b'.anchor s') := by
  refine ⟨h.anonymous, h.named, ?_⟩
  have hRoot := h.root
  simp only [Branch.anchor]
  generalize b.root = r at hRoot
  generalize b'.root = r' at hRoot
  cases hRoot with
  | none => exact hs
  | some hSite => exact .some hSite

theorem anchorHead (h : Twin N b b') {cs cs' : List Site}
    (hs : List.Forall₂ (Site.Twin N) cs cs') : Twin N (b.anchor cs.head?) (b'.anchor cs'.head?) := by
  cases hs with
  | nil => exact h.anchor .none
  | cons hSite _ => exact h.anchor (.some hSite)

/-- One more nameless binding on either side keeps branches corresponding. -/
theorem pushAnonymous (h : Twin N b b') {v v' : Binding} (hv : Binding.Twin N v v') :
    Twin N { b with anonymous := b.anonymous ++ [v] }
      { b' with anonymous := b'.anonymous ++ [v'] } :=
  ⟨List.rel_append h.anonymous (.cons hv .nil), h.named, h.root⟩

/-- One more binding of a name on either side keeps branches corresponding. -/
theorem pushNamed (h : Twin N b b') (name : String) {v v' : Binding} (hv : Binding.Twin N v v') :
    Twin N { b with named := b.named ++ [(name, v)] }
      { b' with named := b'.named ++ [(name, v')] } :=
  ⟨h.anonymous, List.rel_append h.named (.cons ⟨rfl, hv⟩ .nil), h.root⟩

end Branch.Twin

end CodeShape
