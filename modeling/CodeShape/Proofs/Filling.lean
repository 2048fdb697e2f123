import CodeShape.Injection
import CodeShape.Proofs.Shape
import CodeShape.Proofs.Validation

/-! Filling a pattern, as a relation. What becomes of a node is given by what becomes of the nodes
in its slots, from left to right, each starting with the nameless values that the one before it
left. -/
namespace CodeShape

section

variable {α β σ : Type} {ε : Type}

/-- Steps one after the other, each starting in the state that the last one left. -/
inductive Threads (step : α → σ → β → σ → Prop) : List α → σ → List β → σ → Prop where
  | nil {x : σ} : Threads step [] x [] x
  | cons {a : α} {as : List α} {b : β} {bs : List β} {x y z : σ} (first : step a x b y)
      (rest : Threads step as y bs z) : Threads step (a :: as) x (b :: bs) z

/-- The steps of one slot. -/
inductive Field.Threads (step : α → σ → β → σ → Prop) : Field α → σ → Field β → σ → Prop where
  | one {a : α} {b : β} {x y : σ} (h : step a x b y) : Threads step (.one a) x (.one b) y
  | optNone {x : σ} : Threads step (.opt none) x (.opt none) x
  | optSome {a : α} {b : β} {x y : σ} (h : step a x b y) :
      Threads step (.opt (some a)) x (.opt (some b)) y
  | stmtNone {x : σ} : Threads step (.stmt none) x (.stmt none) x
  | stmtSome {a : α} {b : β} {x y : σ} (h : step a x b y) :
      Threads step (.stmt (some a)) x (.stmt (some b)) y
  | seq {pairing : Pairing} {as : List α} {bs : List β} {x y : σ}
      (h : CodeShape.Threads step as x bs y) : Threads step (.seq pairing as) x (.seq pairing bs) y

theorem Threads.imp {step step' : α → σ → β → σ → Prop} {as : List α} {bs : List β} {x y : σ}
    (h : Threads step as x bs y) (hStep : ∀ {a x b y}, step a x b y → step' a x b y) :
    Threads step' as x bs y := by
  induction h with
  | nil => exact .nil
  | cons first _ ih => exact .cons (hStep first) ih

theorem bind_run_ok {x : StateT σ (Except ε) α} {f : α → StateT σ (Except ε) β} {s : σ}
    {result : β × σ} :
    (x >>= f).run s = .ok result ↔ ∃ a s', x.run s = .ok (a, s') ∧ (f a).run s' = .ok result := by
  rw [StateT.run_bind]
  cases x.run s with
  | error e =>
      constructor
      · intro h
        cases h
      · rintro ⟨a, s', hx, -⟩
        cases hx
  | ok p =>
      constructor
      · intro h
        exact ⟨p.1, p.2, rfl, h⟩
      · rintro ⟨a, s', hp, h⟩
        cases hp
        exact h

theorem map_run_ok {x : StateT σ (Except ε) α} {f : α → β} {s : σ} {b : β} {s' : σ} :
    (f <$> x).run s = .ok (b, s') ↔ ∃ a, x.run s = .ok (a, s') ∧ b = f a := by
  rw [← bind_pure_comp, bind_run_ok]
  constructor
  · rintro ⟨a, s₁, hx, h⟩
    cases h
    exact ⟨a, hx, rfl⟩
  · rintro ⟨a, hx, rfl⟩
    exact ⟨a, s', hx, rfl⟩

theorem mapM_run_ok {f : α → StateT σ (Except ε) β} {items : List α} {x y : σ} {results : List β} :
    (items.mapM f).run x = .ok (results, y) ↔
      Threads (fun a x b y => (f a).run x = .ok (b, y)) items x results y := by
  induction items generalizing x results with
  | nil =>
      rw [List.mapM_nil]
      constructor
      · intro h
        cases h
        exact .nil
      · intro h
        cases h
        rfl
  | cons a items ih =>
      rw [List.mapM_cons, bind_run_ok]
      constructor
      · rintro ⟨b, x', hFirst, h⟩
        obtain ⟨bs, y', hRest, h⟩ := bind_run_ok.1 h
        cases h
        exact .cons hFirst (ih.1 hRest)
      · intro h
        cases h with
        | @cons _ _ b bs _ x' _ first rest =>
            exact ⟨b, x', first, bind_run_ok.2 ⟨bs, y, ih.2 rest, rfl⟩⟩

theorem Field.mapM_run_ok {f : α → StateT σ (Except ε) β} {field : Field α} {x y : σ}
    {result : Field β} :
    (field.mapM f).run x = .ok (result, y) ↔
      Field.Threads (fun a x b y => (f a).run x = .ok (b, y)) field x result y := by
  cases field with
  | one a =>
      rw [mapM, map_run_ok]
      constructor
      · rintro ⟨b, h, rfl⟩
        exact .one h
      · intro h
        cases h with
        | one h => exact ⟨_, h, rfl⟩
  | opt a? =>
      cases a? with
      | none =>
          constructor
          · intro h
            cases h
            exact .optNone
          · intro h
            cases h
            rfl
      | some a =>
          rw [mapM, map_run_ok]
          constructor
          · rintro ⟨b, h, rfl⟩
            exact .optSome h
          · intro h
            cases h with
            | optSome h => exact ⟨_, h, rfl⟩
  | stmt a? =>
      cases a? with
      | none =>
          constructor
          · intro h
            cases h
            exact .stmtNone
          · intro h
            cases h
            rfl
      | some a =>
          rw [mapM, map_run_ok]
          constructor
          · rintro ⟨b, h, rfl⟩
            exact .stmtSome h
          · intro h
            cases h with
            | stmtSome h => exact ⟨_, h, rfl⟩
  | seq pairing as =>
      rw [mapM, map_run_ok]
      constructor
      · rintro ⟨bs, h, rfl⟩
        exact .seq (CodeShape.mapM_run_ok.1 h)
      · intro h
        cases h with
        | seq h => exact ⟨_, CodeShape.mapM_run_ok.2 h, rfl⟩

end

namespace Pattern

/-- What a filling does with a node. -/
def answer (bindings : Bindings) (n : Node) : StateT Supply (Except Misuse) Replacement :=
  match n with
  | .wildcard w => do
    let value ← valueOf bindings w
    return .run (← replacement w value)
  | _ => return .keep

/-- What becomes of a node, as a run. -/
def fill (bindings : Bindings) (n : Node) : StateT Supply (Except Misuse) (List Node) :=
  (Site.root n).rebuildM fun s => answer bindings s.node

/-- A node becomes a run, with the nameless values before and after it. -/
def Fills (bindings : Bindings) (n : Node) (supply : Supply) (run : List Node)
    (supply' : Supply) : Prop :=
  (fill bindings n).run supply = .ok (run, supply')

theorem inject_eq (pattern : Pattern) (bindings : Bindings) :
    pattern.inject bindings =
      (fun result => Node.ofRun result.1) <$>
        (fill bindings pattern.root).run ⟨bindings.anonymous, 0⟩ := by
  have hVisit : (fun s : Site => answer bindings s.node) = fun s : Site =>
      match s.node with
      | .wildcard w => do
        let value ← valueOf bindings w
        return .run (← replacement w value)
      | _ => return .keep := rfl
  rw [fill, hVisit, inject, Node.rebuildM, StateT.run_map]
  cases (StateT.run _ _ : Except Misuse _) <;> rfl

theorem fills_wildcard {bindings : Bindings} {w : Wildcard} {supply supply' : Supply}
    {run : List Node} :
    Fills bindings (.wildcard w) supply run supply' ↔
      ∃ value, (valueOf bindings w).run supply = .ok (value, supply') ∧
        replacement w value = .ok run := by
  rw [Fills, fill, Site.rebuildM_eq, bind_run_ok]
  constructor
  · rintro ⟨reply, supply₁, hReply, h⟩
    obtain ⟨value, supply₂, hValue, hReply⟩ := bind_run_ok.1 hReply
    obtain ⟨run', supply₃, hRun, hReply⟩ := bind_run_ok.1 hReply
    cases hReply
    cases h
    cases hNodes : replacement w value with
    | error e =>
        rw [hNodes] at hRun
        cases hRun
    | ok nodes =>
        rw [hNodes] at hRun
        cases hRun
        exact ⟨value, hValue, hNodes⟩
  · rintro ⟨value, hValue, hRun⟩
    refine ⟨.run run, supply', ?_, rfl⟩
    refine bind_run_ok.2 ⟨value, supply', hValue, ?_⟩
    rw [hRun]
    rfl

/-- What is no wildcard keeps its label; its slots are filled one after the other. -/
theorem fills_node {bindings : Bindings} {n : Node} {supply supply' : Supply} {run : List Node}
    (h : n.wildcard? = none) :
    Fills bindings n supply run supply' ↔
      ∃ gs, Threads (Field.Threads (Fills bindings)) n.fields supply gs supply' ∧
        run = [n.label.build (gs.map Node.settle)] := by
  have hAnswer : answer bindings n = pure .keep := by
    cases n with
    | wildcard w => cases h
    | _ => rfl
  have hFields : (Site.root n).fields.mapM
      (Field.mapM (Site.rebuildM fun s => answer bindings s.node)) =
      n.fields.mapM (Field.mapM (fill bindings)) := by
    have hNodes : (Site.root n).fields.map (Field.map Site.node) = n.fields :=
      (Site.root n).map_node_fields
    rw [← hNodes, List.mapM_map]
    apply mapM_congr
    intro field _
    refine Eq.trans ?_ (Field.mapM_map ..).symm
    exact Field.mapM_congr fun c _ => Site.rebuildM_root _ c
  rw [Fills, fill, Site.rebuildM_eq]
  change (answer bindings n >>= _).run supply = _ ↔ _
  rw [hAnswer, pure_bind, hFields, bind_run_ok]
  constructor
  · rintro ⟨gs, supply₁, hSlots, hRun⟩
    cases hRun
    exact ⟨gs, (mapM_run_ok.1 hSlots).imp fun hSlot => Field.mapM_run_ok.1 hSlot, rfl⟩
  · rintro ⟨gs, hSlots, rfl⟩
    exact ⟨gs, supply', mapM_run_ok.2 (hSlots.imp fun hSlot => Field.mapM_run_ok.2 hSlot), rfl⟩

end Pattern

end CodeShape
