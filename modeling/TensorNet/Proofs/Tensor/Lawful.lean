import TensorNet.Tensor.Element

/-!
# Elements with laws

Elements that add and multiply as the members of a commutative semiring do, and of which only zero
counts as zero. Nothing is asked of the conjugate.
-/

namespace TensorNet

/-- **The laws of a commutative semiring**, for the operations of an element. -/
class LawfulElement (α : Type) [Element α] : Prop where
  add_assoc : ∀ x y z : α, x + y + z = x + (y + z)
  add_comm : ∀ x y : α, x + y = y + x
  zero_add : ∀ x : α, 0 + x = x
  mul_assoc : ∀ x y z : α, x * y * z = x * (y * z)
  mul_comm : ∀ x y : α, x * y = y * x
  one_mul : ∀ x : α, 1 * x = x
  zero_mul : ∀ x : α, 0 * x = 0
  mul_add : ∀ x y z : α, x * (y + z) = x * y + x * z
  isZero_iff : ∀ x : α, Element.isZero x = true ↔ x = 0

/-- Exact numbers. -/
instance : Element Int where
  zero := Int.ofNat 0
  one := Int.ofNat 1
  add := Int.add
  mul := Int.mul
  type := .double
  isZero x := x == 0
  conj x := x

instance : LawfulElement Int where
  add_assoc := Int.add_assoc
  add_comm := Int.add_comm
  zero_add := Int.zero_add
  mul_assoc := Int.mul_assoc
  mul_comm := Int.mul_comm
  one_mul := Int.one_mul
  zero_mul := Int.zero_mul
  mul_add := Int.mul_add
  isZero_iff _ := beq_iff_eq

end TensorNet
