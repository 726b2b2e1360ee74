import Mathlib.Data.List.Basic
import Mathlib.Data.List.Nodup
import TensorNet.Proofs.Lookup
import TensorNet.Proofs.Tensor.Index

/-!
# Indices given axis by axis

A step reads its operands at indices of which it knows the value on each axis: some axes follow the
destination, and others are summed over. When every axis has one value and the values are below the
extents, there is exactly one such index, and it is in range. Its offset is the sum of the values
times the strides, taken over the axes in any order, so it can be put together from parts that each
know some of the axes.
-/

namespace TensorNet.Index

/-! ### Lists read along each other -/

/-- What holds of two lists read along each other, said by positions. -/
theorem forall_mem_zip_iff {ι : Type} {xs : List ι} {o : List Nat} (hlen : o.length = xs.length)
    {P : ι → Option Nat → Prop} :
    (∀ p ∈ xs.zip o, P p.1 (some p.2)) ↔ ∀ (k : Nat) (x : ι), xs[k]? = some x → P x o[k]? := by
  constructor
  · intro h k x hx
    have hk : k < o.length := hlen ▸ (List.getElem?_eq_some_iff.1 hx).1
    have hp : (xs.zip o)[k]? = some (x, o[k]) :=
      List.getElem?_zip_eq_some.2 ⟨hx, List.getElem?_eq_getElem hk⟩
    rw [List.getElem?_eq_getElem hk]
    exact h _ (List.mem_of_getElem? hp)
  · intro h p hp
    obtain ⟨k, hk⟩ := List.mem_iff_getElem?.1 hp
    obtain ⟨hx, ho⟩ := List.getElem?_zip_eq_some.1 hk
    exact ho ▸ h k p.1 hx

theorem lt_of_mem_zip {ι : Type} {xs : List ι} {o : List Nat} {f : ι → Nat}
    (h : inRange o (xs.map f) = true) : ∀ p ∈ xs.zip o, p.2 < f p.1 := by
  induction xs generalizing o with
  | nil => exact fun p hp => nomatch hp
  | cons x xs ih =>
    cases o with
    | nil => exact fun p hp => nomatch hp
    | cons v o =>
      rw [List.map_cons, inRange, Bool.and_eq_true, decide_eq_true_eq] at h
      exact List.forall_mem_cons.2 ⟨h.1, ih h.2⟩

theorem sum_zip {ι : Type} (xs : List ι) (o : List Nat) (f : ι → Nat) :
    ((xs.zip o).map fun p => p.2 * f p.1).sum = offset o (xs.map f) := by
  induction xs generalizing o with
  | nil => cases o <;> rfl
  | cons x xs ih =>
    cases o with
    | nil => rfl
    | cons v o => rw [List.zip_cons_cons, List.map_cons, List.sum_cons, ih, List.map_cons, offset]

/-! ### The index with given values -/

/-- The index with the values that are listed for its axes. -/
def place (rank : Nat) (vs : List (Nat × Nat)) : List Nat :=
  (List.range rank).map fun axis => (vs.lookup axis).getD 0

/-- Every axis has one value, and it is below the extent. -/
structure Covers (dims : List Nat) (vs : List (Nat × Nat)) : Prop where
  axes : (vs.map (·.1)).Perm (List.range dims.length)
  lt : ∀ p ∈ vs, p.2 < dims.getD p.1 0

namespace Covers

variable {dims : List Nat} {vs : List (Nat × Nat)}

theorem lookup (h : Covers dims vs) {p : Nat × Nat} (hp : p ∈ vs) : vs.lookup p.1 = some p.2 :=
  (lookup_eq_some_iff (h.axes.nodup_iff.2 List.nodup_range)).2 hp

theorem exists_mem (h : Covers dims vs) {axis : Nat} (hlt : axis < dims.length) :
    ∃ v, (axis, v) ∈ vs := by
  obtain ⟨p, hp, rfl⟩ := List.mem_map.1 (h.axes.mem_iff.2 (List.mem_range.2 hlt))
  exact ⟨p.2, hp⟩

theorem getElem?_place (h : Covers dims vs) {p : Nat × Nat} (hp : p ∈ vs) :
    (place dims.length vs)[p.1]? = some p.2 := by
  have hlt : p.1 < dims.length :=
    List.mem_range.1 (h.axes.mem_iff.1 (List.mem_map_of_mem (f := Prod.fst) hp))
  rw [place, List.getElem?_map, List.getElem?_range hlt, Option.map_some, h.lookup hp,
    Option.getD_some]

theorem inRange_place (h : Covers dims vs) : inRange (place dims.length vs) dims = true := by
  conv => lhs; rw [← map_getD_range dims]
  rw [List.length_map, List.length_range, place, inRange_map]
  intro axis haxis
  obtain ⟨v, hv⟩ := h.exists_mem (List.mem_range.1 haxis)
  rw [h.lookup hv, Option.getD_some]
  exact h.lt _ hv

/-- **The values determine the index.** -/
theorem eq_place_iff (h : Covers dims vs) {i : List Nat} :
    (inRange i dims = true ∧ ∀ p ∈ vs, i[p.1]? = some p.2) ↔ i = place dims.length vs := by
  constructor
  · rintro ⟨hi, hvs⟩
    have hlen : i.length = (place dims.length vs).length := by
      rw [length_of_inRange hi, place, List.length_map, List.length_range]
    refine List.ext_getElem? fun axis => ?_
    rcases Nat.lt_or_ge axis dims.length with hlt | hge
    · obtain ⟨v, hv⟩ := h.exists_mem hlt
      rw [hvs _ hv, h.getElem?_place hv]
    · rw [List.getElem?_eq_none (length_of_inRange hi ▸ hge),
        List.getElem?_eq_none (hlen ▸ length_of_inRange hi ▸ hge)]
  · rintro rfl
    exact ⟨h.inRange_place, fun p hp => h.getElem?_place hp⟩

/-- **The offset of the index, axis by axis.** -/
theorem offset_place (h : Covers dims vs) : offset (place dims.length vs) (strides dims) =
    (vs.map fun p => p.2 * (strides dims).getD p.1 0).sum := by
  conv => lhs; rw [← map_getD_range (strides dims), length_strides]
  rw [place, offset_map, ← (h.axes.map _).sum_nat, List.map_map]
  refine congrArg List.sum (List.map_congr_left fun p hp => ?_)
  rw [Function.comp_apply, h.lookup hp, Option.getD_some]

end Covers

end TensorNet.Index
