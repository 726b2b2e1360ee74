/-!
# Elements of tensors

What the operations on tensors need of an element: sums and products with a zero and a one, a test
for zero, and a conjugate. No law is assumed; floating-point numbers obey few.
-/

namespace TensorNet

/-- The kinds of numbers that a buffer can hold. -/
inductive ElementType
  /-- 16-bit floating point. -/
  | half
  /-- 32-bit floating point. -/
  | single
  /-- 64-bit floating point. -/
  | double
  /-- Two 32-bit numbers. -/
  | complexSingle
  /-- Two 64-bit numbers. -/
  | complexDouble
deriving DecidableEq, Repr, Inhabited

/-- The size of one element in bytes. -/
def ElementType.bytes : ElementType → Nat
  | half => 2
  | single => 4
  | double => 8
  | complexSingle => 8
  | complexDouble => 16

/-- A number that tensors can hold. -/
class Element (α : Type) extends Zero α, One α, Add α, Mul α where
  /-- The kind of number. -/
  type : ElementType
  /-- The number counts as zero. -/
  isZero : α → Bool
  /-- The complex conjugate, which is the number itself if it is real. -/
  conj : α → α

/-- The conjugate if asked for. -/
def conjIf {α : Type} [Element α] (flag : Bool) (x : α) : α :=
  if flag then Element.conj x else x

instance : Element Float where
  zero := 0.0
  one := 1.0
  type := .double
  isZero x := x == 0.0
  conj x := x

instance : Element Float32 where
  zero := 0.0
  one := 1.0
  type := .single
  isZero x := x == 0.0
  conj x := x

end TensorNet
