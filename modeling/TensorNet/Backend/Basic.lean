import TensorNet.Plan.Instruction
import TensorNet.Tensor.Element

/-!
# Backends

A backend owns buffers and can do two things with them: make a new one, and carry out one step on
them. Both may fail, and both may depend on a state of the backend and change it. A step writes
`destination = β * destination + α * result`; when `β` is zero the old destination is not read, so
stale buffers are fine.

A backend whose state decides which calls fail stands for every way in which calls can fail.
-/

namespace TensorNet

/-- What a step leaves behind: the destination as it is now, and the failure if there was one. -/
structure Written (β : Type) where
  dst : β
  failure : Option Error := none
deriving Inhabited

/-- Buffers of type `β` over scalars of type `α`, worked on with a state of type `σ`. -/
structure Backend (σ β α : Type) where
  /-- The extents of a buffer. -/
  dims : β → List Nat
  /-- The kind of element of a buffer. -/
  elementType : β → ElementType
  /-- A new buffer with the kind of element of a given one. -/
  allocate : β → List Nat → σ → Except Error β × σ
  /-- Carries out a step with its scalars `α` and `β` and its permutation on a destination. -/
  perform : α → α → Action β → List Nat → β → σ → Written β × σ

end TensorNet
