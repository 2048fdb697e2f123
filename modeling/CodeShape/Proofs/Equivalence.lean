import CodeShape.Equivalence

/-! Equality of trees and equivalence under rules. -/
namespace CodeShape

instance : ReflBEq LiteralValue where
  rfl {v} := by
    cases v with
    | string s => exact beq_self_eq_true s
    | number n => exact beq_self_eq_true n.rank
    | bool b => exact beq_self_eq_true b
    | null => rfl

instance : ReflBEq Literal where
  rfl {l} := beq_self_eq_true l.value

instance : ReflBEq Label where
  rfl {l} := by
    cases l with
    | method kind isStatic =>
        exact Bool.and_eq_true_iff.2 ⟨beq_self_eq_true kind, beq_self_eq_true isStatic⟩
    | update op before =>
        exact Bool.and_eq_true_iff.2 ⟨beq_self_eq_true op, beq_self_eq_true before⟩
    | property kind computed shorthand isMethod =>
        refine Bool.and_eq_true_iff.2 ⟨beq_self_eq_true kind, ?_⟩
        refine Bool.and_eq_true_iff.2 ⟨beq_self_eq_true computed, ?_⟩
        exact Bool.and_eq_true_iff.2 ⟨beq_self_eq_true shorthand, beq_self_eq_true isMethod⟩
    | forEach a | declaration a | function a | classDef a | assign a | binary a | logical a
    | unary a | member a | template a | literal a | ident a | wildcard a => exact beq_self_eq_true a
    | _ => rfl

namespace Node

/-- Nodes with one label are of one shape. -/
theorem sameShape_of_label_eq {a b : Node} (h : a.label = b.label) : a.sameShape b := by
  rw [sameShape, h]
  exact beq_self_eq_true _

theorem aligned_refl (n : Node) : n.aligned n := by
  have hFields : ∀ fields : List (Field Node), Field.fitAll fields fields := by
    intro fields
    induction fields with
    | nil => rfl
    | cons field fields ih =>
        rw [Field.fitAll, ih, Bool.and_true]
        cases field <;> simp [Field.fits]
  exact hFields n.fields

/-- A reflexive test passes on every item beside itself. -/
theorem all_zip_self {items : List Node} {r : Node → Node → Bool} (h : ∀ n ∈ items, r n n) :
    (items.zip items).all fun (x, y) => r x y := by
  induction items with
  | nil => rfl
  | cons n items ih =>
      rw [List.zip_cons_cons, List.all_cons, Bool.and_eq_true_iff]
      exact ⟨h n (by simp), ih fun n hn => h n (by simp [hn])⟩

instance : ReflBEq Node where
  rfl {n} := by
    induction hSize : sizeOf n using Nat.strongRecOn generalizing n with
    | ind size ih =>
        rw [beq_eq, beq_self_eq_true, aligned_refl]
        exact all_zip_self fun c hc => ih _ (hSize ▸ sizeOf_lt_of_mem_children hc) rfl

/-- Equivalence without the proofs that the recursion carries. -/
theorem equalUnder_eq (rules : Rules) (pattern candidate : Node) :
    equalUnder rules pattern candidate =
      (pattern :: alternatives rules pattern candidate).any fun form =>
        form.sameShape candidate && form.aligned candidate &&
          (form.children.zip candidate.children).all fun (x, y) => equalUnder rules x y := by
  rw [equalUnder]
  congr 1
  funext form
  congr 1
  rw [Bool.eq_iff_iff, List.all_eq_true, List.all_eq_true]
  exact ⟨fun h p hp => h ⟨p, hp⟩ (List.mem_attach _ _), fun h p _ => h p.1 p.2⟩

/-- Every node equals itself, whatever the rules. -/
theorem equalUnder_refl (rules : Rules) (n : Node) : equalUnder rules n n := by
  induction hSize : sizeOf n using Nat.strongRecOn generalizing n with
  | ind size ih =>
      rw [equalUnder_eq, List.any_cons, sameShape_of_label_eq rfl, aligned_refl]
      have hChildren : (n.children.zip n.children).all fun (x, y) => equalUnder rules x y :=
        all_zip_self fun c hc => ih _ (hSize ▸ sizeOf_lt_of_mem_children hc) c rfl
      rw [hChildren]
      rfl

/-- Every tree may stand for itself. -/
theorem equivalent_refl (rules : Option Rules) (n : Node) : equivalent rules n n := by
  cases rules with
  | none => exact beq_self_eq_true n
  | some rules => exact equalUnder_refl rules n

end Node

end CodeShape
