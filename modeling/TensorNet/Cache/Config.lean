import TensorNet.Saturating
import TensorNet.Tensor.Element

/-!
# What a cache is told

The shape of a buffer with its size in bytes, the identity of a temporary, and the limit on the
bytes that are kept.
-/

namespace TensorNet

/-- A number of bytes. It stops at `2 ^ 64 - 1`. -/
abbrev Bytes := Saturating 0xFFFFFFFFFFFFFFFF

/-- The shape of a buffer and the kind of its elements. -/
structure BufferSpec where
  dims : List Nat
  element : ElementType
deriving DecidableEq, Repr, Inhabited

/-- The size of a buffer: the element size times the extents, from the first on. -/
def BufferSpec.bytes (s : BufferSpec) : Bytes :=
  s.dims.foldl (fun n d => n * .ofNat _ d) (.ofNat _ s.element.bytes)

/-- A token that keeps evaluations of one plan apart when they go on at the same time. -/
structure ExecutionContext where
  id : UInt64 := 0
deriving DecidableEq, Repr, Inhabited

/-- The identity of a temporary: its plan, its slot there, and the context of the evaluation. -/
structure CacheKey where
  plan : UInt64
  slot : Nat
  context : ExecutionContext
deriving DecidableEq, Repr, Inhabited

/-! ### Budgets -/

/-- A limit on the bytes that are kept. -/
inductive CacheBudget
  | bytes (count : Nat)
  /-- A part of the memory, whose size the caller gives in bytes. -/
  | fraction (part : Float) (totalMemory : Nat)

/-- One gibibyte. -/
def defaultCacheBytes : Nat := 1024 * 1024 * 1024

instance : Inhabited CacheBudget := ⟨.bytes defaultCacheBytes⟩

/-- A number moved into the interval from zero to one; what is not a number stays. -/
def clampUnit (x : Float) : Float := if x < 0.0 then 0.0 else if 1.0 < x then 1.0 else x

/-- The limit in bytes. A part of the memory is cut off to whole bytes, and what is not a number
counts as none. -/
def CacheBudget.resolve : CacheBudget → Nat
  | bytes n => n
  | fraction part total => (clampUnit part * total.toUInt64.toFloat).toUInt64.toNat

/-- The settings of a cache. -/
structure CacheConfig where
  budget : CacheBudget := default
  enabled : Bool := true
deriving Inhabited

end TensorNet
