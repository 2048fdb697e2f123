import CodeShape.Node.View

/-!
Equality of trees. Two trees are equal if they have equal labels and equal children in the same
slots; since literals are compared by value, equal trees may be written differently.
-/
namespace CodeShape

/-- Whether the slots of two nodes match one by one. -/
def Field.fitAll {α β : Type} : List (Field α) → List (Field β) → Bool
  | [], [] => true
  | f :: fs, g :: gs => f.fits g && fitAll fs gs
  | _, _ => false

namespace Node

/-- Whether two nodes have the same slots with equally many children in each. Their children then
correspond in order. -/
def aligned (a b : Node) : Bool := Field.fitAll a.fields b.fields

/-- Equality up to the text of literals. -/
def beq (a b : Node) : Bool :=
  a.label == b.label && a.aligned b &&
    (a.children.zip b.children).attach.all fun ⟨(x, y), h⟩ =>
      have : sizeOf x < sizeOf a := sizeOf_lt_of_mem_children (List.of_mem_zip h).1
      x.beq y
termination_by sizeOf a

instance : BEq Node := ⟨beq⟩

/-- Equality without the proofs that the recursion carries. -/
theorem beq_eq (a b : Node) :
    (a == b) =
      (a.label == b.label && a.aligned b &&
        (a.children.zip b.children).all fun (x, y) => x == y) := by
  change a.beq b = _
  rw [beq]
  congr 1
  rw [Bool.eq_iff_iff, List.all_eq_true, List.all_eq_true]
  exact ⟨fun h p hp => h ⟨p, hp⟩ (List.mem_attach _ _), fun h p _ => h p.1 p.2⟩

end Node

end CodeShape
