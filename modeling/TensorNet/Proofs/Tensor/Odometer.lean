import Mathlib.Algebra.BigOperators.Group.List.Basic
import Mathlib.Data.List.Forall2
import TensorNet.Proofs.Tensor.Index

/-!
# The odometer

Multi-indices can be visited one after another without a list of them: start from zeros, and to go
on, raise the last entry; an entry that reaches its extent goes back to zero and the one before it
is raised instead; when there is none before it, all have been visited.

What carries it is that the offset of an index is its value in the number system whose digits run
below the extents. A step adds one to this value, and the carry out of the first digit is worth the
number of elements (`Index.offset_advance`). So the walk starts at offset zero, passes through every
offset and stops after the last one, which is how `Index.all` lists the indices. Main statement:
the walk of the odometer is that list, each index stands in it at its offset, and a tensor is the
same thing as a function of the indices in range.
-/

namespace TensorNet

namespace Index

/-! ### One step -/

/-- The next index, and whether the first entry has gone back to zero. -/
def advance : List Nat → List Nat → List Nat × Bool
  | i :: is, d :: ds =>
    match advance is ds with
    | (js, false) => (i :: js, false)
    | (js, true) => if i + 1 < d then ((i + 1) :: js, false) else (0 :: js, true)
  | _, _ => ([], true)

/-- **A step adds one to the offset**, if the carry is counted with it; and the index stays in
range. By induction on the extents, the last digit first. -/
theorem offset_advance {idx dims : List Nat} (h : inRange idx dims = true) :
    inRange (advance idx dims).1 dims = true ∧
      offset (advance idx dims).1 (strides dims) +
          (if (advance idx dims).2 then elementCount dims else 0) =
        offset idx (strides dims) + 1 := by
  induction dims generalizing idx with
  | nil =>
    cases idx with
    | nil => exact ⟨rfl, rfl⟩
    | cons i is => cases h
  | cons d ds ih =>
    cases idx with
    | nil => cases h
    | cons i is =>
      rw [inRange, Bool.and_eq_true, decide_eq_true_eq] at h
      obtain ⟨hin, hoff⟩ := ih h.2
      rcases hnext : advance is ds with ⟨js, carry⟩
      rw [hnext] at hin hoff
      cases carry with
      | false =>
        have hstep : advance (i :: is) (d :: ds) = (i :: js, false) := by rw [advance, hnext]
        rw [hstep]
        refine ⟨by simp [inRange, h.1, hin], ?_⟩
        simp only [Bool.false_eq_true, if_false, strides, offset] at hoff ⊢
        omega
      | true =>
        by_cases hi : i + 1 < d
        · have hstep : advance (i :: is) (d :: ds) = ((i + 1) :: js, false) := by
            simp only [advance, hnext, if_pos hi]
          rw [hstep]
          refine ⟨by simp [inRange, hi, hin], ?_⟩
          simp only [Bool.false_eq_true, if_false, if_true, strides, offset] at hoff ⊢
          rw [Nat.succ_mul]
          omega
        · have hstep : advance (i :: is) (d :: ds) = (0 :: js, true) := by
            simp only [advance, hnext, if_neg hi]
          have hd : d = i + 1 := by omega
          rw [hstep]
          refine ⟨by simp [inRange, hin, Nat.zero_lt_of_lt h.1], ?_⟩
          simp only [if_true, strides, offset, elementCount_cons] at hoff ⊢
          rw [hd, Nat.succ_mul]
          omega

example : advance [0, 2, 1] [2, 3, 2] = ([1, 0, 0], false) := by decide

/-! ### The walk -/

/-- The walk from an index on, up to the index after which the first entry goes back to zero. -/
inductive WalksFrom (dims : List Nat) : List Nat → List (List Nat) → Prop
  | last {idx next : List Nat} (h : advance idx dims = (next, true)) : WalksFrom dims idx [idx]
  | step {idx next : List Nat} {rest : List (List Nat)} (h : advance idx dims = (next, false))
      (hr : WalksFrom dims next rest) : WalksFrom dims idx (idx :: rest)

/-- The indices that the odometer visits. With a zero extent it does not start. -/
inductive Visits (dims : List Nat) : List (List Nat) → Prop
  | none (h : 0 ∈ dims) : Visits dims []
  | walk {visited : List (List Nat)} (h : 0 ∉ dims)
      (hw : WalksFrom dims (dims.map fun _ => 0) visited) : Visits dims visited

theorem WalksFrom.unique {dims idx : List Nat} {l m : List (List Nat)} (hl : WalksFrom dims idx l)
    (hm : WalksFrom dims idx m) : l = m := by
  induction hl generalizing m with
  | last h =>
    cases hm with
    | last _ => rfl
    | step h' _ => cases h.symm.trans h'
  | step h _ ih =>
    cases hm with
    | last h' => cases h.symm.trans h'
    | step h' hr =>
      cases h.symm.trans h'
      rw [ih hr]

/-- From an index on, the walk goes through the rest of the list. By induction on the number of
indices that are left. -/
theorem walksFrom_drop {dims idx : List Nat} (h : inRange idx dims = true) :
    WalksFrom dims idx ((all dims).drop (offset idx (strides dims))) := by
  induction hn : elementCount dims - offset idx (strides dims) generalizing idx with
  | zero =>
    have := offset_lt h
    omega
  | succ n ih =>
    obtain ⟨hin, hoff⟩ := offset_advance h
    rw [List.drop_eq_getElem?_toList_append, getElem?_all h]
    rcases hnext : advance idx dims with ⟨next, carry⟩
    rw [hnext] at hin hoff
    cases carry with
    | true =>
      have hend : (all dims).drop (offset idx (strides dims) + 1) = [] := by
        refine List.drop_eq_nil_of_le ?_
        simp only [if_true] at hoff
        rw [length_all]
        omega
      rw [hend]
      exact .last hnext
    | false =>
      simp only [Bool.false_eq_true, if_false, Nat.add_zero] at hoff
      rw [← hoff]
      exact .step hnext (ih hin (by omega))

theorem inRange_zeros {dims : List Nat} (h : 0 ∉ dims) :
    inRange (dims.map fun _ => 0) dims = true := by
  conv => lhs; rw [← List.map_id dims, List.map_map]
  exact inRange_map.2 fun d hd => Nat.pos_of_ne_zero fun h0 => h (h0 ▸ hd)

theorem offset_zeros (dims ss : List Nat) : offset (dims.map fun _ => 0) ss = 0 := by
  induction dims generalizing ss with
  | nil => rfl
  | cons d ds ih =>
    cases ss with
    | nil => rfl
    | cons s ss => rw [List.map_cons, offset, Nat.zero_mul, Nat.zero_add, ih]

theorem all_eq_nil_iff {dims : List Nat} : all dims = [] ↔ 0 ∈ dims := by
  constructor
  · intro h
    by_contra h0
    have hmem := mem_all.2 (inRange_zeros h0)
    rw [h] at hmem
    cases hmem
  · intro h
    rw [all_eq_walk, walk_eq_nil h]

/-- **The odometer visits the indices in the order of the list and stops.** -/
theorem visits_iff {dims : List Nat} {visited : List (List Nat)} :
    Visits dims visited ↔ visited = all dims := by
  by_cases h0 : 0 ∈ dims
  · rw [all_eq_nil_iff.2 h0]
    constructor
    · rintro (_ | ⟨h, _⟩)
      · rfl
      · exact absurd h0 h
    · rintro rfl
      exact .none h0
  · have hall : WalksFrom dims (dims.map fun _ => 0) (all dims) := by
      have hwalk := walksFrom_drop (inRange_zeros h0)
      rwa [offset_zeros, List.drop_zero] at hwalk
    constructor
    · rintro (h | ⟨_, hw⟩)
      · exact absurd h h0
      · exact hw.unique hall
    · rintro rfl
      exact .walk h0 hall

/-! ### The order of the indices -/

/-- An index in range has one entry for each extent, below it. -/
theorem inRange_iff_forall₂ {idx dims : List Nat} :
    inRange idx dims = true ↔ List.Forall₂ (· < ·) idx dims := by
  induction idx generalizing dims with
  | nil => cases dims <;> simp [inRange]
  | cons i is ih => cases dims <;> simp [inRange, ih]

/-- The indices ascend, the first entry that differs deciding. -/
theorem pairwise_all (dims : List Nat) : (all dims).Pairwise (List.Lex (· < ·)) := by
  induction dims with
  | nil => exact List.pairwise_singleton _ _
  | cons d ds ih =>
    rw [all_cons, List.pairwise_flatMap]
    refine ⟨fun i _ => List.pairwise_map.2 (ih.imp .cons), ?_⟩
    refine List.pairwise_lt_range.imp fun {i j} hij x hx y hy => ?_
    obtain ⟨u, -, rfl⟩ := List.mem_map.1 hx
    obtain ⟨v, -, rfl⟩ := List.mem_map.1 hy
    exact .rel hij

theorem nodup_all (dims : List Nat) : (all dims).Nodup :=
  (pairwise_all dims).imp fun {i j} (h : List.Lex (· < ·) i j) (he : i = j) =>
    List.lex_irrefl Nat.lt_irrefl j (he ▸ h)

/-- **The position of an index is its offset.** -/
theorem getElem?_all_iff {dims idx : List Nat} {k : Nat} :
    (all dims)[k]? = some idx ↔ inRange idx dims = true ∧ offset idx (strides dims) = k := by
  constructor
  · intro h
    have hin := mem_all.1 (List.mem_of_getElem? h)
    have hlt : offset idx (strides dims) < (all dims).length := length_all dims ▸ offset_lt hin
    exact ⟨hin, (List.getElem?_inj hlt (nodup_all dims)).1 ((getElem?_all hin).trans h.symm)⟩
  · rintro ⟨h, rfl⟩
    exact getElem?_all h

/-- Without a zero extent no stride is more than the number of elements. -/
theorem strides_le {dims : List Nat} (h : 0 ∉ dims) :
    ∀ s ∈ strides dims, s ≤ elementCount dims := by
  induction dims with
  | nil => exact fun s hs => nomatch hs
  | cons d ds ih =>
    rw [List.mem_cons, not_or] at h
    have hle : elementCount ds ≤ elementCount (d :: ds) :=
      Nat.le_mul_of_pos_left _ (Nat.pos_of_ne_zero (Ne.symm h.1))
    exact List.forall_mem_cons.2 ⟨hle, fun s hs => (ih h.2 s hs).trans hle⟩

theorem elementCount_eq_prod (dims : List Nat) : elementCount dims = dims.prod :=
  List.prod_eq_foldr.symm

/-- **Row-major order**: the odometer stops after having visited these indices and no others; they
are all indices below the extents, in ascending order; each stands at its offset; and without a
zero extent no stride is more than the number of them. -/
structure RowMajor (dims : List Nat) (visited : List (List Nat)) : Prop where
  visits_iff : ∀ l, Visits dims l ↔ l = visited
  mem_iff : ∀ idx, idx ∈ visited ↔ List.Forall₂ (· < ·) idx dims
  ascending : visited.Pairwise (List.Lex (· < ·))
  eq_nil_iff : visited = [] ↔ 0 ∈ dims
  getElem?_iff : ∀ (k : Nat) (idx : List Nat), visited[k]? = some idx ↔
    List.Forall₂ (· < ·) idx dims ∧ offset idx (strides dims) = k
  strides_le : 0 ∈ dims ∨ ∀ s ∈ strides dims, s ≤ visited.length

theorem rowMajor_all (dims : List Nat) : RowMajor dims (all dims) where
  visits_iff _ := visits_iff
  mem_iff _ := mem_all.trans inRange_iff_forall₂
  ascending := pairwise_all dims
  eq_nil_iff := all_eq_nil_iff
  getElem?_iff k idx := by rw [getElem?_all_iff, inRange_iff_forall₂]
  strides_le := by
    rw [length_all]
    exact or_iff_not_imp_left.2 strides_le

end Index

/-! ### Tensors and functions of the index -/

namespace Tensor

variable {α : Type}

/-- Out of range a tensor has no element. -/
theorem get?_eq_none {t : Tensor α} {idx : List Nat} (h : Index.inRange idx t.dims = false) :
    t.get? idx = none := by
  rw [get?, h]
  rfl

/-- The elements of a tensor, read at the indices in order. -/
theorem map_get?_all (t : Tensor α) : (Index.all t.dims).map t.get? = t.data.toList.map some := by
  refine List.ext_getElem? fun k => ?_
  rw [List.getElem?_map, List.getElem?_map]
  cases hidx : (Index.all t.dims)[k]? with
  | none =>
    have hlen := List.getElem?_eq_none_iff.1 hidx
    rw [Index.length_all, ← t.size_eq] at hlen
    rw [List.getElem?_eq_none_iff.2 hlen]
    rfl
  | some idx =>
    obtain ⟨hin, rfl⟩ := Index.getElem?_all_iff.1 hidx
    have hlt := t.offset_lt_size hin
    rw [Option.map_some, get?, if_pos hin, Array.getElem?_toList,
      Array.getElem?_eq_getElem hlt]
    rfl

/-- **A tensor is a function of the indices in range**, laid out in row-major order. The tensor of a
function has as many elements as there are indices; it gives the value of the function at an index
in range, and nothing out of range. Every tensor is taken from its data, and its elements make it
again. -/
theorem rowMajor_ofFn (dims : List Nat) (f : List Nat → α) (t : Tensor α) :
    Index.RowMajor dims (Index.all dims) ∧ Index.all [] = [[]] ∧
      (ofFn dims f).dims = dims ∧ (ofFn dims f).data.size = dims.prod ∧
      (∀ idx x, (ofFn dims f).get? idx = some x ↔ List.Forall₂ (· < ·) idx dims ∧ f idx = x) ∧
      ofData t.dims t.data = .ok t ∧ ofFn t.dims t.get? = t.map some := by
  refine ⟨Index.rowMajor_all dims, Index.all_nil, rfl, ?_, fun idx x => ?_, ?_, ?_⟩
  · rw [(ofFn dims f).size_eq]
    exact Index.elementCount_eq_prod dims
  · rw [← Index.inRange_iff_forall₂]
    by_cases h : Index.inRange idx dims = true
    · rw [get?_ofFn f h, Option.some.injEq]
      exact (and_iff_right h).symm
    · have hnone : (ofFn dims f).get? idx = none := get?_eq_none (Bool.eq_false_iff.2 h)
      rw [hnone]
      exact ⟨nofun, fun hx => absurd hx.1 h⟩
  · rw [ofData, dif_pos t.size_eq]
  · have hdata : ((Index.all t.dims).map t.get?).toArray = t.data.map some := by
      rw [t.map_get?_all, ← List.map_toArray, Array.toArray_toList]
    simp only [ofFn, map, hdata]

end Tensor

end TensorNet
