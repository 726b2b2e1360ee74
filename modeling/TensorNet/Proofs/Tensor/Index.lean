import Mathlib.Algebra.Ring.Nat
import Mathlib.Data.List.GetD
import TensorNet.Tensor.Basic

/-!
# Row-major order

The multi-indices in range are those that are visited, each at its offset. So reading a tensor at
an offset that an index in range has is reading it at the index.
-/

namespace TensorNet

namespace Index

/-! ### The visited indices -/

theorem walk_eq_nil {dims : List Nat} (h : 0 ∈ dims) : walk dims = [] := by
  induction dims with
  | nil => cases h
  | cons d ds ih =>
    rw [walk]
    rcases List.mem_cons.1 h with rfl | h
    · rfl
    · simp [ih h]

theorem all_eq_walk (dims : List Nat) : all dims = walk dims := by
  unfold all
  split
  · next h => exact (walk_eq_nil h).symm
  · rfl

theorem all_nil : all [] = [[]] := rfl

theorem all_cons (d : Nat) (ds : List Nat) :
    all (d :: ds) = (List.range d).flatMap fun i => (all ds).map (i :: ·) := by
  rw [all_eq_walk, all_eq_walk, walk]

theorem mem_all {idx dims : List Nat} : idx ∈ all dims ↔ inRange idx dims = true := by
  induction dims generalizing idx with
  | nil => cases idx <;> simp [all_nil, inRange]
  | cons d ds ih =>
    cases idx with
    | nil => simp [all_cons, inRange]
    | cons i is => simp [all_cons, inRange, ih]

theorem length_of_inRange {idx dims : List Nat} (h : inRange idx dims = true) :
    idx.length = dims.length := by
  induction idx generalizing dims with
  | nil =>
    cases dims with
    | nil => rfl
    | cons d ds => cases h
  | cons i is ih =>
    cases dims with
    | nil => cases h
    | cons d ds =>
      rw [inRange, Bool.and_eq_true] at h
      rw [List.length_cons, List.length_cons, ih h.2]

theorem elementCount_cons (d : Nat) (ds : List Nat) :
    elementCount (d :: ds) = d * elementCount ds := rfl

theorem offset_lt {idx dims : List Nat} (h : inRange idx dims = true) :
    offset idx (strides dims) < elementCount dims := by
  induction idx generalizing dims with
  | nil =>
    cases dims with
    | nil => exact Nat.one_pos
    | cons d ds => cases h
  | cons i is ih =>
    cases dims with
    | nil => cases h
    | cons d ds =>
      rw [inRange, Bool.and_eq_true, decide_eq_true_eq] at h
      rw [strides, offset, elementCount_cons]
      have hlt := ih h.2
      have hmul : (i + 1) * elementCount ds ≤ d * elementCount ds := Nat.mul_le_mul_right _ h.1
      rw [Nat.succ_mul] at hmul
      omega

/-- Blocks of one length, looked up by block and position. -/
theorem getElem?_flatMap_range {α : Type} (f : Nat → List α) {n d i j : Nat}
    (hlen : ∀ i, (f i).length = n) (hi : i < d) (hj : j < n) :
    ((List.range d).flatMap f)[i * n + j]? = (f i)[j]? := by
  induction d with
  | zero => omega
  | succ d ih =>
    have hl : ((List.range d).flatMap f).length = d * n := by
      simp only [List.length_flatMap, hlen, List.map_const', List.sum_replicate_nat,
        List.length_range]
    rw [List.range_succ, List.flatMap_append, List.flatMap_singleton]
    rcases Nat.lt_or_ge i d with h | h
    · have hlt : i * n + j < d * n := by
        have := Nat.mul_le_mul_right n (Nat.succ_le_of_lt h)
        rw [Nat.succ_mul] at this
        omega
      rw [List.getElem?_append_left (hl ▸ hlt), ih h]
    · obtain rfl : i = d := by omega
      rw [List.getElem?_append_right (by omega), hl, Nat.add_sub_cancel_left]

/-- **An index in range is visited at its offset.** -/
theorem getElem?_all {idx dims : List Nat} (h : inRange idx dims = true) :
    (all dims)[offset idx (strides dims)]? = some idx := by
  induction idx generalizing dims with
  | nil =>
    cases dims with
    | nil => rfl
    | cons d ds => cases h
  | cons i is ih =>
    cases dims with
    | nil => cases h
    | cons d ds =>
      rw [inRange, Bool.and_eq_true, decide_eq_true_eq] at h
      rw [all_cons, strides, offset, getElem?_flatMap_range _ (fun i => by
        rw [List.length_map, length_all]) h.1 (offset_lt h.2), List.getElem?_map, ih h.2]
      rfl

/-! ### Offsets as sums -/

theorem map_getD_range (xs : List Nat) : (List.range xs.length).map (xs.getD · 0) = xs := by
  refine List.ext_getElem (by simp) fun k h₁ h₂ => ?_
  rw [List.getElem_map, List.getElem_range, List.getD_eq_getElem _ _ h₂]

theorem offset_map {ι : Type} (xs : List ι) (f g : ι → Nat) :
    offset (xs.map f) (xs.map g) = (xs.map fun x => f x * g x).sum := by
  induction xs with
  | nil => rfl
  | cons x xs ih => simp [offset, ih]

theorem offset_append {is ss : List Nat} (h : is.length = ss.length) (js ts : List Nat) :
    offset (is ++ js) (ss ++ ts) = offset is ss + offset js ts := by
  induction is generalizing ss with
  | nil =>
    obtain rfl := List.eq_nil_of_length_eq_zero h.symm
    simp [offset]
  | cons i is ih =>
    cases ss with
    | nil => cases h
    | cons s ss =>
      simp only [List.cons_append, offset, ih (Nat.succ.inj h), Nat.add_assoc]

theorem length_strides (dims : List Nat) : (strides dims).length = dims.length := by
  induction dims with
  | nil => rfl
  | cons d ds ih => rw [strides, List.length_cons, List.length_cons, ih]

theorem inRange_map {ι : Type} {xs : List ι} {f g : ι → Nat} :
    inRange (xs.map f) (xs.map g) = true ↔ ∀ x ∈ xs, f x < g x := by
  induction xs with
  | nil => simp [inRange]
  | cons x xs ih => simp [inRange, ih]

end Index

namespace Tensor

variable {α : Type}

/-- The element at a multi-index, zero out of range. -/
def entry [Zero α] (t : Tensor α) (index : List Nat) : α := (t.get? index).getD 0

theorem offset_lt_size (t : Tensor α) {idx : List Nat} (h : Index.inRange idx t.dims = true) :
    Index.offset idx (Index.strides t.dims) < t.data.size :=
  t.size_eq ▸ Index.offset_lt h

theorem get?_eq_read [Zero α] (t : Tensor α) {idx : List Nat}
    (h : Index.inRange idx t.dims = true) :
    t.get? idx = some (t.read (Index.offset idx (Index.strides t.dims))) := by
  have hlt := t.offset_lt_size h
  rw [get?, if_pos h, read, Array.getElem?_eq_getElem hlt, Array.getD, dif_pos hlt]
  rfl

theorem entry_eq_read [Zero α] (t : Tensor α) {idx : List Nat}
    (h : Index.inRange idx t.dims = true) :
    t.entry idx = t.read (Index.offset idx (Index.strides t.dims)) := by
  rw [entry, t.get?_eq_read h, Option.getD_some]

/-- **A tensor made from a function** has its values. -/
theorem get?_ofFn {dims : List Nat} (f : List Nat → α) {idx : List Nat}
    (h : Index.inRange idx dims = true) : (ofFn dims f).get? idx = some (f idx) := by
  have hget := Index.getElem?_all h
  rw [get?, if_pos (show Index.inRange idx (ofFn dims f).dims = true from h)]
  simp only [ofFn, List.getElem?_toArray, List.getElem?_map, hget, Option.map_some]

/-- **A function blended into a tensor**, element by element. -/
theorem get?_blendFn [Element α] (alpha beta : α) (dst : Tensor α) (f : List Nat → α)
    {idx : List Nat} (h : Index.inRange idx dst.dims = true) :
    (dst.blendFn alpha beta f).get? idx = some (blend alpha beta (dst.entry idx) (f idx)) := by
  have hget := Index.getElem?_all h
  have hlt := dst.offset_lt_size h
  have hold : dst.data[Index.offset idx (Index.strides dst.dims)]? = some (dst.entry idx) := by
    rw [dst.entry_eq_read h, ← dst.get?_eq_read h, get?, if_pos h]
  rw [get?, if_pos (show Index.inRange idx (dst.blendFn alpha beta f).dims = true from h)]
  simp only [blendFn, Array.getElem?_zipWith, hold, List.getElem?_toArray, List.getElem?_map, hget,
    Option.map_some]

end Tensor

end TensorNet
