import TensorNet.Tensor.Element

/-!
# Complex numbers

Pairs of floating-point numbers. The product is computed from four products of parts, each rounded
on its own.
-/

namespace TensorNet

/-- A complex number by its parts. -/
structure Complex (ρ : Type) where
  re : ρ
  im : ρ
deriving Inhabited

namespace Complex

variable {ρ : Type}

/-- The product of two complex numbers. -/
def mul [Add ρ] [Sub ρ] [Mul ρ] (x y : Complex ρ) : Complex ρ :=
  ⟨x.re * y.re - x.im * y.im, x.re * y.im + x.im * y.re⟩

/-- The element structure on pairs of numbers of one kind. -/
@[reducible] def element [Element ρ] [Sub ρ] [Neg ρ] (type : ElementType) : Element (Complex ρ) where
  zero := ⟨0, 0⟩
  one := ⟨1, 0⟩
  add x y := ⟨x.re + y.re, x.im + y.im⟩
  mul := mul
  type := type
  isZero x := Element.isZero x.re && Element.isZero x.im
  conj x := ⟨x.re, -x.im⟩

instance : Element (Complex Float32) := element .complexSingle
instance : Element (Complex Float) := element .complexDouble

end Complex

end TensorNet
