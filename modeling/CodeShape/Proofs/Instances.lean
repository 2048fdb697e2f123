import CodeShape.Proofs.Derivation
import CodeShape.Proofs.Equivalence
import CodeShape.Proofs.Filling

/-! Patterns and their instances. An instance of a pattern is what filling makes of it; matching the
pattern with an instance succeeds, since at every choice the search finds the values that were
filled in. -/
namespace CodeShape

/-- How much a value holds. -/
def Capture.extent : Capture → Extent
  | one _ => .scalar
  | many _ => .glob

/-- Slots of one kind with related children. -/
inductive Field.Related {α β : Type} (r : α → β → Prop) : Field α → Field β → Prop where
  | one {a : α} {b : β} (h : r a b) : Related r (.one a) (.one b)
  | optNone : Related r (.opt none) (.opt none)
  | optSome {a : α} {b : β} (h : r a b) : Related r (.opt (some a)) (.opt (some b))
  | stmtNone : Related r (.stmt none) (.stmt none)
  | stmtSome {a : α} {b : β} (h : r a b) : Related r (.stmt (some a)) (.stmt (some b))
  | seq {pairing : Pairing} {as : List α} {bs : List β} (h : List.Forall₂ r as bs) :
      Related r (.seq pairing as) (.seq pairing bs)

theorem Field.Related.alike {α β : Type} {r : α → β → Prop} {f : Field α} {g : Field β}
    (h : Field.Related r f g) : Field.Alike f g := by
  cases h <;> constructor

namespace Pattern

/-- The runs that a node of a pattern can become. Names have the values of the bindings; a nameless
wildcard can have any value of its extent. -/
inductive Instance (bindings : Bindings) : Node → List Node → Prop where
  | named {name : String} {extent : Extent} {value : Capture}
      (hFind : bindings.find? name = some value) (hExtent : value.extent = extent) :
      Instance bindings (.wildcard ⟨some name, extent⟩) value.nodes
  | nameless {extent : Extent} {value : Capture} (hExtent : value.extent = extent) :
      Instance bindings (.wildcard ⟨none, extent⟩) value.nodes
  | node {n : Node} {gs : List (Field (List Node))} (hn : n.wildcard? = none)
      (hSlots : List.Forall₂ (Field.Related (Instance bindings)) n.fields gs) :
      Instance bindings n [n.label.build (gs.map Node.settle)]

/-- A wildcard becomes the nodes of a value of its extent. -/
theorem Instance.exists_value {bindings : Bindings} {w : Wildcard} {run : List Node}
    (h : Instance bindings (.wildcard w) run) :
    ∃ value : Capture, value.extent = w.extent ∧ value.nodes = run ∧
      ∀ name, w.name = some name → bindings.find? name = some value := by
  cases h with
  | named hFind hExtent =>
      refine ⟨_, hExtent, rfl, fun name hName => ?_⟩
      cases hName
      exact hFind
  | nameless hExtent =>
      refine ⟨_, hExtent, rfl, fun name hName => ?_⟩
      cases hName
  | node hn => cases hn

/-- A named glob is filled with the run it is bound to. -/
theorem Instance.find?_of_glob {bindings : Bindings} {p : Node} {run : List Node} {w : Wildcard}
    (h : Instance bindings p run) (hGlob : p.glob? = some w) {name : String}
    (hName : w.name = some name) : bindings.find? name = some (.many run) := by
  obtain ⟨rfl, hExtent⟩ := Node.eq_wildcard_of_glob? hGlob
  obtain ⟨value, hValue, rfl, hFind⟩ := h.exists_value
  cases value with
  | one t => cases hValue.trans hExtent
  | many ts => exact hFind name hName

/-- A wildcard that is no glob is filled with one node, and a named one with what it is bound to. -/
theorem Instance.find?_of_scalar {bindings : Bindings} {w : Wildcard} {run : List Node}
    (h : Instance bindings (.wildcard w) run) (hScalar : w.extent = .scalar) :
    ∃ t, run = [t] ∧ ∀ name, w.name = some name → bindings.find? name = some (.one t) := by
  obtain ⟨value, hValue, rfl, hFind⟩ := h.exists_value
  cases value with
  | one t => exact ⟨t, rfl, hFind⟩
  | many ts => cases hValue.trans hScalar

/-- What is no glob becomes one node. -/
theorem Instance.exists_node {bindings : Bindings} {p : Node} {run : List Node}
    (h : Instance bindings p run) (hGlob : p.glob? = none) : ∃ t, run = [t] := by
  cases hWild : p.wildcard? with
  | some w =>
      obtain rfl := Node.eq_wildcard_of_wildcard? hWild
      obtain ⟨t, hRun, -⟩ := h.find?_of_scalar (Node.extent_of_glob? hGlob)
      exact ⟨t, hRun⟩
  | none =>
      cases h with
      | named => cases hWild
      | nameless => cases hWild
      | node => exact ⟨_, rfl⟩

/-- A single node keeps its label, and its slots become slots of instances. -/
theorem Instance.exists_slots {bindings : Bindings} {p t : Node} (h : Instance bindings p [t])
    (hp : p.wildcard? = none) :
    t.label = p.label ∧ ∃ gs, List.Forall₂ (Field.Related (Instance bindings)) p.fields gs ∧
      t.fields = gs.map Node.settle := by
  have hNode : ∀ {run}, Instance bindings p run → ∃ gs,
      List.Forall₂ (Field.Related (Instance bindings)) p.fields gs ∧
        run = [p.label.build (gs.map Node.settle)] := by
    intro run h
    cases h with
    | named => cases hp
    | nameless => cases hp
    | node hn hSlots => exact ⟨_, hSlots, rfl⟩
  obtain ⟨gs, hSlots, hRun⟩ := hNode h
  obtain rfl := List.singleton_inj.1 hRun
  have hAlike : List.Forall₂ Field.Alike p.fields (gs.map Node.settle) :=
    List.forall₂_map_right_iff.2 (hSlots.imp fun _ _ hSlot => hSlot.alike.settle)
  obtain ⟨hLabel, hFields⟩ := Node.view_build hAlike
  exact ⟨hLabel, gs, hSlots, hFields⟩

/-- A node whose only slot is a list keeps it, with the runs put into the list. -/
theorem Instance.exists_runs {bindings : Bindings} {p t : Node} {pairing : Pairing}
    {ps : List Node} (h : Instance bindings p [t]) (hp : p.wildcard? = none)
    (hFields : p.fields = [.seq pairing ps]) :
    ∃ runs, List.Forall₂ (Instance bindings) ps runs ∧
      t = p.label.build [.seq pairing runs.flatten] := by
  obtain ⟨hLabel, gs, hSlots, hBuilt⟩ := h.exists_slots hp
  rw [hFields] at hSlots
  obtain ⟨g, gs, hSlot, hNone, rfl⟩ := List.forall₂_cons_left_iff.1 hSlots
  cases hNone
  cases hSlot with
  | @seq _ _ runs hRuns =>
      refine ⟨runs, hRuns, ?_⟩
      rw [← t.build_label_fields, hLabel, hBuilt]
      rfl

def nameless (ws : List Wildcard) : Nat := (ws.filter (·.name.isNone)).length

/-- Values that fit the nameless wildcards they are taken for. -/
def Fit (ws : List Wildcard) (values : List Capture) : Prop :=
  ∀ pair ∈ (ws.filter (·.name.isNone)).zip values, pair.2.extent = pair.1.extent

instance (ws : List Wildcard) (values : List Capture) : Decidable (Fit ws values) :=
  inferInstanceAs (Decidable (∀ pair ∈ _, _))

theorem nameless_append (ws ws' : List Wildcard) :
    nameless (ws ++ ws') = nameless ws + nameless ws' := by
  simp [nameless]

theorem Fit.left {ws ws' : List Wildcard} {values : List Capture} (h : Fit (ws ++ ws') values) :
    Fit ws values := by
  have hZip : ∀ (as bs : List Wildcard) (vs : List Capture), ∀ pair ∈ as.zip vs,
      pair ∈ (as ++ bs).zip vs := by
    intro as bs
    induction as with
    | nil => intro vs pair hPair; cases hPair
    | cons a as ih =>
        intro vs pair hPair
        cases vs with
        | nil => cases hPair
        | cons v vs =>
            rcases List.mem_cons.1 hPair with rfl | hPair
            · exact List.mem_cons_self
            · exact List.mem_cons_of_mem _ (ih vs pair hPair)
  intro pair hPair
  rw [Fit, List.filter_append] at h
  exact h pair (hZip _ _ _ pair hPair)

theorem Fit.right {ws ws' : List Wildcard} {values : List Capture} (h : Fit (ws ++ ws') values) :
    Fit ws' (values.drop (nameless ws)) := by
  have hZip : ∀ (as bs : List Wildcard) (vs : List Capture), ∀ pair ∈ bs.zip (vs.drop as.length),
      pair ∈ (as ++ bs).zip vs := by
    intro as bs
    induction as with
    | nil => intro vs pair hPair; exact hPair
    | cons a as ih =>
        intro vs pair hPair
        cases vs with
        | nil => simp at hPair
        | cons v vs => exact List.mem_cons_of_mem _ (ih vs pair hPair)
  intro pair hPair
  rw [Fit, List.filter_append] at h
  exact h pair (hZip _ _ _ pair hPair)

/-- The nameless values that some wildcards take. -/
def Takes (ws : List Wildcard) (supply supply' : Supply) : Prop :=
  supply'.left = supply.left.drop (nameless ws)

theorem Takes.append {ws ws' : List Wildcard} {x y z : Supply} (h : Takes ws x y)
    (h' : Takes ws' y z) : Takes (ws ++ ws') x z := by
  rw [Takes, h', h, List.drop_drop, nameless_append]

/-- Steps that relate each item to its result, one after the other. -/
theorem related_of_threads {α β : Type} {step : α → Supply → β → Supply → Prop}
    {r : α → β → Prop} {wildcardsOf : α → List Wildcard} {items : List α} {results : List β}
    {x y : Supply}
    (hStep : ∀ a ∈ items, ∀ {b x y}, step a x b y → Fit (wildcardsOf a) x.left →
      r a b ∧ Takes (wildcardsOf a) x y)
    (h : Threads step items x results y) (hFit : Fit (items.flatMap wildcardsOf) x.left) :
    List.Forall₂ r items results ∧ Takes (items.flatMap wildcardsOf) x y := by
  induction h with
  | nil => exact ⟨.nil, rfl⟩
  | @cons a items b results x x' y first _ ih =>
      rw [List.flatMap_cons] at hFit ⊢
      obtain ⟨hFirst, hTakes⟩ := hStep a (by simp) first hFit.left
      obtain ⟨hRest, hMore⟩ := ih (fun a ha => hStep a (by simp [ha])) (hTakes ▸ hFit.right)
      exact ⟨.cons hFirst hRest, hTakes.append hMore⟩

/-- What fills a wildcard makes an instance of it, if extents fit. -/
theorem instance_of_fills_wildcard {bindings : Bindings} {w : Wildcard} {x y : Supply}
    {run : List Node} (h : Fills bindings (.wildcard w) x run y) (hFit : Fit [w] x.left) :
    Instance bindings (.wildcard w) run ∧ Takes [w] x y := by
  obtain ⟨value, hValue, hRun⟩ := fills_wildcard.1 h
  obtain ⟨name?, extent⟩ := w
  cases name? with
  | some name =>
      cases hFind : bindings.find? name with
      | none =>
          simp only [valueOf, hFind] at hValue
          cases hValue
      | some found =>
          simp only [valueOf, hFind] at hValue
          cases hValue
          refine ⟨?_, rfl⟩
          cases extent <;> cases value <;> cases hRun <;> exact .named hFind rfl
  | none =>
      obtain ⟨left, taken⟩ := x
      cases left with
      | nil => cases hValue
      | cons first left =>
          cases hValue
          have hExtent : value.extent = extent := hFit (⟨none, extent⟩, value) (by simp)
          cases hRun
          exact ⟨.nameless hExtent, rfl⟩

/-- Filling with values that fit gives an instance. -/
theorem instance_of_fills {bindings : Bindings} {n : Node} {x y : Supply} {run : List Node}
    (h : Fills bindings n x run y) (hFit : Fit n.wildcards x.left) :
    Instance bindings n run ∧ Takes n.wildcards x y := by
  induction hSize : sizeOf n using Nat.strongRecOn generalizing n x y run with
  | ind size ih =>
      cases hWild : n.wildcard? with
      | some w =>
          obtain rfl := Node.eq_wildcard_of_wildcard? hWild
          rw [Node.wildcards_wildcard] at hFit ⊢
          exact instance_of_fills_wildcard h hFit
      | none =>
          obtain ⟨gs, hSlots, rfl⟩ := (fills_node hWild).1 h
          rw [Node.wildcards_eq_of_fields hWild] at hFit ⊢
          have hSlot : ∀ field ∈ n.fields, ∀ {g x y},
              Field.Threads (Fills bindings) field x g y →
              Fit (field.toList.flatMap Node.wildcards) x.left →
              Field.Related (Instance bindings) field g ∧
                Takes (field.toList.flatMap Node.wildcards) x y := by
            intro field hField g x y hSlot hFit
            have hChild : ∀ c ∈ field.toList, ∀ {run x y}, Fills bindings c x run y →
                Fit c.wildcards x.left → Instance bindings c run ∧ Takes c.wildcards x y := by
              intro c hc run x y hc' hFit
              exact ih _ (hSize ▸ Node.sizeOf_lt_of_mem_children
                (List.mem_flatMap.2 ⟨field, hField, hc⟩)) hc' hFit rfl
            cases hSlot with
            | optNone => exact ⟨.optNone, rfl⟩
            | stmtNone => exact ⟨.stmtNone, rfl⟩
            | one h | optSome h | stmtSome h =>
                simp only [Field.toList, Option.toList_some, List.flatMap_cons, List.flatMap_nil,
                  List.append_nil] at hFit ⊢
                obtain ⟨hInstance, hTakes⟩ := hChild _ (by simp [Field.toList]) h hFit
                exact ⟨by constructor; exact hInstance, hTakes⟩
            | seq h =>
                obtain ⟨hInstances, hTakes⟩ := related_of_threads hChild h hFit
                exact ⟨.seq hInstances, hTakes⟩
          obtain ⟨hInstances, hTakes⟩ := related_of_threads hSlot hSlots hFit
          exact ⟨.node hWild hInstances, hTakes⟩

end Pattern

end CodeShape
