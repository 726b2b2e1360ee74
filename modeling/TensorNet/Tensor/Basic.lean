import TensorNet.Error
import TensorNet.Tensor.Element
import TensorNet.Tensor.Index

/-!
# Dense tensors
-/

namespace TensorNet

/-- A tensor with its elements in row-major order. -/
structure Tensor (α : Type) where
  /-- The extents of the axes. -/
  dims : List Nat
  data : Array α
  size_eq : data.size = elementCount dims

namespace Tensor

variable {α : Type}

/-- Takes row-major data, of which there must be as many as the extents say. -/
def ofData (dims : List Nat) (data : Array α) : Except Error (Tensor α) :=
  if h : data.size = elementCount dims then .ok ⟨dims, data, h⟩
  else .error (.backend (.elementCount dims (elementCount dims) data.size))

/-- The same element everywhere. -/
def fill (dims : List Nat) (x : α) : Tensor α :=
  ⟨dims, Array.replicate (elementCount dims) x, Array.size_replicate⟩

/-- Zero everywhere. -/
def zeros [Zero α] (dims : List Nat) : Tensor α := fill dims 0

/-- A function of the multi-index. -/
def ofFn (dims : List Nat) (f : List Nat → α) : Tensor α :=
  ⟨dims, ((Index.all dims).map f).toArray, by simp⟩

/-- One element, without axes. -/
def scalar (x : α) : Tensor α := ⟨[], #[x], rfl⟩

/-- The number of axes. -/
def rank (t : Tensor α) : Nat := t.dims.length

/-- The extent of an axis. -/
def extent (t : Tensor α) (axis : Nat) : Nat := t.dims.getD axis 0

/-- The element at an offset, zero outside. -/
def read [Zero α] (t : Tensor α) (offset : Nat) : α := t.data.getD offset 0

/-- The element at a multi-index, if it is in range. -/
def get? (t : Tensor α) (index : List Nat) : Option α :=
  if Index.inRange index t.dims then t.data[Index.offset index (Index.strides t.dims)]?
  else none

/-- Replaces the element at an offset, if there is one. -/
def set (t : Tensor α) (offset : Nat) (x : α) : Tensor α :=
  ⟨t.dims, t.data.setIfInBounds offset x, by rw [Array.size_setIfInBounds, t.size_eq]⟩

/-- Applies a function to each element. -/
def map {γ : Type} (f : α → γ) (t : Tensor α) : Tensor γ :=
  ⟨t.dims, t.data.map f, by rw [Array.size_map, t.size_eq]⟩

/-- The only element of a tensor that has one. -/
def toScalar? (t : Tensor α) : Option α := if t.data.size = 1 then t.data[0]? else none

/-- The only element; any other number of elements is a failure. -/
def toScalar (t : Tensor α) : Except Error α :=
  match t.toScalar? with
  | some x => .ok x
  | none => .error (.backend (.notScalar t.dims))

/-- The new value of a destination element: the old one is not read when `beta` is zero. -/
def blend [Element α] (alpha beta old x : α) : α :=
  if Element.isZero beta then alpha * x else beta * old + alpha * x

/-- Blends a function of the multi-index into a tensor. -/
def blendFn [Element α] (alpha beta : α) (dst : Tensor α) (f : List Nat → α) : Tensor α :=
  ⟨dst.dims,
    Array.zipWith (blend alpha beta) dst.data ((Index.all dst.dims).map f).toArray,
    by simp [dst.size_eq]⟩

end Tensor

end TensorNet
