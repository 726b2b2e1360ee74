/-!
# Row-major order

A multi-index has one number below each extent. The multi-indices of a list of extents are visited
in lexicographic order, the last axis fastest; no extents have one (empty) index, and a zero extent
leaves none. The position of an index in this order is its offset, the sum of its entries times
the strides.
-/

namespace TensorNet

/-- The number of elements of a tensor with the given extents. -/
def elementCount (dims : List Nat) : Nat := dims.foldr (· * ·) 1

namespace Index

/-- The multi-indices of extents of which none is zero. -/
def walk : List Nat → List (List Nat)
  | [] => [[]]
  | d :: ds =>
    let inner := walk ds
    (List.range d).flatMap fun i => inner.map (i :: ·)

/-- The multi-indices below the extents, in row-major order. -/
def all (dims : List Nat) : List (List Nat) := if 0 ∈ dims then [] else walk dims

/-- The distance of neighbours along each axis: the number of elements of the axes after it. -/
def strides : List Nat → List Nat
  | [] => []
  | _ :: ds => elementCount ds :: strides ds

/-- The sum of the entries of an index, each times the stride of its axis. -/
def offset : List Nat → List Nat → Nat
  | i :: is, s :: ss => i * s + offset is ss
  | _, _ => 0

/-- The index has one entry for each extent, and each is below it. -/
def inRange : List Nat → List Nat → Bool
  | [], [] => true
  | i :: is, d :: ds => decide (i < d) && inRange is ds
  | _, _ => false

/-! ### The number of indices -/

theorem length_walk (dims : List Nat) : (walk dims).length = elementCount dims := by
  induction dims with
  | nil => rfl
  | cons d ds ih =>
    simp only [walk, List.length_flatMap, List.length_map, ih, List.map_const',
      List.sum_replicate_nat, List.length_range, elementCount, List.foldr_cons]

theorem elementCount_eq_zero {dims : List Nat} (h : 0 ∈ dims) : elementCount dims = 0 := by
  induction dims with
  | nil => cases h
  | cons d ds ih =>
    rcases List.mem_cons.1 h with rfl | h
    · exact Nat.zero_mul _
    · change d * elementCount ds = 0
      rw [ih h, Nat.mul_zero]

@[simp] theorem length_all (dims : List Nat) : (all dims).length = elementCount dims := by
  unfold all
  split
  · next h => exact (elementCount_eq_zero h).symm
  · exact length_walk dims

end Index

end TensorNet
