import TensorNet.Tensor.Basic
import TensorNet.Tensor.Complex
import TensorNet.Tensor.Half

/-!
# Numbers by kind

One type of numbers for each kind of element, so that tensors of all kinds can share a cache.
-/

namespace TensorNet

/-- The numbers of a kind. -/
def Number : ElementType → Type
  | .half => Half
  | .single => Float32
  | .double => Float
  | .complexSingle => Complex Float32
  | .complexDouble => Complex Float

instance (t : ElementType) : Element (Number t) :=
  match t with
  | .half => inferInstanceAs (Element Half)
  | .single => inferInstanceAs (Element Float32)
  | .double => inferInstanceAs (Element Float)
  | .complexSingle => inferInstanceAs (Element (Complex Float32))
  | .complexDouble => inferInstanceAs (Element (Complex Float))

/-- The tensors of a kind. -/
abbrev NumberTensor (t : ElementType) : Type := Tensor (Number t)

/-- The numbers of a kind say that they are of this kind. -/
theorem Number.type_eq (t : ElementType) : Element.type (Number t) = t := by cases t <;> rfl

end TensorNet
