import TensorNet.Proofs.Backend.Pointwise

/-!
# Dense steps, element by element: the contraction

The open axes of both operands, those of the first before those of the second, are the axes of the
result. So an index of the destination has values for the open axes of each operand, and the summed
index has values for the others. Together they determine where each operand is read; the axes of the
other operand add nothing to the offset there, as their stride is zero.

1. The index at which an operand is read, and its offset.
2. The contraction.
-/

namespace TensorNet.Tensor

open Lowering

/-! ### 1. The index that is read -/

section

variable {α : Type} {a b t : Tensor α} {axes axesA axesB perm : List Nat} {skip : Nat}
variable {o c : List Nat}

/-- The extents of a contraction fit: paired axes have one extent, and the destination has the
extents of the open axes. -/
def ContractFits (a b dst : Tensor α) (axesA axesB perm : List Nat) : Prop :=
  axesA.length = axesB.length ∧ (∀ p ∈ axesA.zip axesB, a.extent p.1 = b.extent p.2) ∧
    dst.dims = perm.map fun k => (openExtents a b axesA axesB).getD k 0

/-- The index of an operand that goes with an index of the destination and one of the summed axes.
The open axes of the operand come after `skip` others in the order of the result. -/
structure OperandIndex (t : Tensor α) (axes : List Nat) (skip : Nat) (perm o s i : List Nat) :
    Prop where
  inRange : Index.inRange i t.dims = true
  opened : ∀ k m axis : Nat, perm[k]? = some (skip + m) → (t.openAxes axes)[m]? = some axis →
    i[axis]? = o[k]?
  summed : ∀ j axis : Nat, axes[j]? = some axis → i[axis]? = s[j]?

/-- The axis of an operand that is an axis of the result, if it is one of this operand. -/
def openAxis? (t : Tensor α) (axes : List Nat) (skip k : Nat) : Option Nat :=
  if skip ≤ k then (t.openAxes axes)[k - skip]? else none

/-- The offset at which a contraction reads an operand, as it is added up from strides. -/
def operandOffset (t : Tensor α) (axes : List Nat) (skip : Nat) (perm o c : List Nat) : Nat :=
  Index.offset o (perm.map fun k => (t.openAxis? axes skip k).elim 0 t.stride) +
    Index.offset c (axes.map t.stride)

/-- The values that two indices give to the axes of an operand. -/
def operandValues (t : Tensor α) (axes : List Nat) (skip : Nat) (perm o c : List Nat) :
    List (Nat × Nat) :=
  ((perm.zip o).filterMap fun p => (t.openAxis? axes skip p.1).map (·, p.2)) ++ axes.zip c

theorem openAxis?_eq_some {k axis : Nat} : t.openAxis? axes skip k = some axis ↔
    ∃ m, k = skip + m ∧ (t.openAxes axes)[m]? = some axis := by
  unfold openAxis?
  split
  · next h =>
    obtain ⟨m, rfl⟩ := Nat.exists_eq_add_of_le h
    rw [Nat.add_sub_cancel_left]
    exact ⟨fun h => ⟨m, rfl, h⟩, fun ⟨m', he, h⟩ => Nat.add_left_cancel he ▸ h⟩
  · next h => exact ⟨nofun, fun ⟨m, he, _⟩ => absurd (he ▸ Nat.le_add_right skip m) h⟩

/-- Along all axes of the result, the open axes of an operand come once each. -/
theorem filterMap_openAxis? {n : Nat} (h : skip + (t.openAxes axes).length ≤ n) :
    (List.range n).filterMap (t.openAxis? axes skip) = t.openAxes axes := by
  obtain ⟨rest, rfl⟩ := Nat.exists_eq_add_of_le h
  have hbefore : (List.range skip).filterMap (t.openAxis? axes skip) = [] :=
    List.filterMap_eq_nil_iff.2 fun k hk => if_neg (Nat.not_le.2 (List.mem_range.1 hk))
  have hshift : ∀ m, t.openAxis? axes skip (skip + m) = (t.openAxes axes)[m]? := by
    intro m
    rw [openAxis?, if_pos (Nat.le_add_right skip m), Nat.add_sub_cancel_left]
  have hopen : (List.range (t.openAxes axes).length).filterMap
      (fun m => (t.openAxes axes)[m]?) = t.openAxes axes := by
    conv => rhs; rw [← Index.map_getD_range (t.openAxes axes)]
    refine List.filterMap_eq_map_iff_forall_eq_some.2 fun m hm => ?_
    rw [List.getD_eq_getElem _ _ (List.mem_range.1 hm), List.getElem?_eq_getElem]
  have hafter : (List.range rest).filterMap
      (fun k => (t.openAxes axes)[(t.openAxes axes).length + k]?) = [] :=
    List.filterMap_eq_nil_iff.2 fun k _ => List.getElem?_eq_none (Nat.le_add_right ..)
  rw [Nat.add_assoc, List.range_add, List.filterMap_append, hbefore, List.nil_append,
    List.filterMap_map]
  show (List.range _).filterMap (fun m => t.openAxis? axes skip (skip + m)) = _
  simp only [hshift]
  rw [List.range_add, List.filterMap_append, hopen, List.filterMap_map]
  exact (congrArg _ hafter).trans (List.append_nil _)

theorem covers_operandValues {n : Nat} (hn : axes.Nodup) (hlt : ∀ k ∈ axes, k < t.rank)
    (hperm : perm.Perm (List.range n)) (hskip : skip + (t.openAxes axes).length ≤ n)
    {f : Nat → Nat} (hf : ∀ k axis, t.openAxis? axes skip k = some axis → f k = t.extent axis)
    (ho : Index.inRange o (perm.map f) = true)
    (hc : Index.inRange c (axes.map t.extent) = true) :
    Index.Covers t.dims (operandValues t axes skip perm o c) where
  axes := by
    have hol : o.length = perm.length := by rw [Index.length_of_inRange ho, List.length_map]
    have hcl : c.length = axes.length := by rw [Index.length_of_inRange hc, List.length_map]
    have hfst : ((perm.zip o).filterMap fun p =>
        (t.openAxis? axes skip p.1).map (·, p.2)).map (·.1) =
        perm.filterMap (t.openAxis? axes skip) := by
      conv => rhs; rw [← List.map_fst_zip (le_of_eq hol.symm), List.filterMap_map]
      rw [List.map_filterMap]
      refine List.filterMap_congr fun p _ => ?_
      rw [Option.map_map]
      exact Option.map_id'
    have hopen := hperm.filterMap (t.openAxis? axes skip)
    rw [filterMap_openAxis? hskip] at hopen
    rw [operandValues, List.map_append, hfst, List.map_fst_zip (le_of_eq hcl.symm)]
    exact (hopen.append_right axes).trans (perm_unlisted hn hlt)
  lt := by
    intro v hv
    rcases List.mem_append.1 hv with hv | hv
    · obtain ⟨p, hp, hv⟩ := List.mem_filterMap.1 hv
      obtain ⟨axis, haxis, rfl⟩ := Option.map_eq_some_iff.1 hv
      exact lt_of_lt_of_eq (Index.lt_of_mem_zip ho p hp) (hf _ _ haxis)
    · exact Index.lt_of_mem_zip hc v hv

theorem sum_operandValues :
    ((operandValues t axes skip perm o c).map fun p => p.2 * t.stride p.1).sum =
      t.operandOffset axes skip perm o c := by
  rw [operandValues, operandOffset, List.map_append, List.sum_append, Index.sum_zip,
    ← Index.sum_zip perm o]
  congr 1
  induction perm.zip o with
  | nil => rfl
  | cons p ps ih =>
    rw [List.map_cons, List.sum_cons, ← ih]
    cases h : t.openAxis? axes skip p.1 with
    | none => rw [List.filterMap_cons_none (by rw [h]; rfl)]; simp
    | some axis => rw [List.filterMap_cons_some (by rw [h]; rfl)]; simp

theorem operandIndex_iff (ho : o.length = perm.length) (hc : c.length = axes.length)
    {i : List Nat} : OperandIndex t axes skip perm o c i ↔ Index.inRange i t.dims = true ∧
      ∀ p ∈ operandValues t axes skip perm o c, i[p.1]? = some p.2 := by
  have hopened := Index.forall_mem_zip_iff ho
    (P := fun k v => ∀ axis, t.openAxis? axes skip k = some axis → i[axis]? = v)
  have hsummed := Index.forall_mem_zip_iff hc (P := fun axis v => i[axis]? = v)
  have hmap : (∀ v ∈ (perm.zip o).filterMap fun p => (t.openAxis? axes skip p.1).map (·, p.2),
      i[v.1]? = some v.2) ↔
      ∀ p ∈ perm.zip o, ∀ axis, t.openAxis? axes skip p.1 = some axis → i[axis]? = some p.2 := by
    constructor
    · intro h p hp axis haxis
      exact h (axis, p.2) (List.mem_filterMap.2 ⟨p, hp, by rw [haxis]; rfl⟩)
    · intro h v hv
      obtain ⟨p, hp, hv⟩ := List.mem_filterMap.1 hv
      obtain ⟨axis, haxis, rfl⟩ := Option.map_eq_some_iff.1 hv
      exact h p hp axis haxis
  rw [operandValues, List.forall_mem_append, hmap, hopened, hsummed]
  constructor
  · intro h
    refine ⟨h.inRange, fun k m hm axis haxis => ?_, h.summed⟩
    obtain ⟨m, rfl, hopen⟩ := openAxis?_eq_some.1 haxis
    exact h.opened k m axis hm hopen
  · intro h
    exact ⟨h.1, fun k m axis hm haxis => h.2.1 k _ hm axis (openAxis?_eq_some.2 ⟨m, rfl, haxis⟩),
      h.2.2⟩

/-- **The two indices determine the index at which an operand is read, and its offset is the one
that is added up.** -/
theorem place_operandValues {n : Nat} (hn : axes.Nodup) (hlt : ∀ k ∈ axes, k < t.rank)
    (hperm : perm.Perm (List.range n)) (hskip : skip + (t.openAxes axes).length ≤ n)
    {f : Nat → Nat} (hf : ∀ k axis, t.openAxis? axes skip k = some axis → f k = t.extent axis)
    (ho : Index.inRange o (perm.map f) = true)
    (hc : Index.inRange c (axes.map t.extent) = true) :
    (∀ i, OperandIndex t axes skip perm o c i ↔
        i = Index.place t.rank (operandValues t axes skip perm o c)) ∧
      Index.inRange (Index.place t.rank (operandValues t axes skip perm o c)) t.dims = true ∧
        Index.offset (Index.place t.rank (operandValues t axes skip perm o c))
          (Index.strides t.dims) = t.operandOffset axes skip perm o c := by
  have hcov := covers_operandValues hn hlt hperm hskip hf ho hc
  have hol : o.length = perm.length := by rw [Index.length_of_inRange ho, List.length_map]
  have hcl : c.length = axes.length := by rw [Index.length_of_inRange hc, List.length_map]
  refine ⟨fun i => (operandIndex_iff hol hcl).trans hcov.eq_place_iff, hcov.inRange_place, ?_⟩
  exact hcov.offset_place.trans sum_operandValues

/-! ### 2. The contraction -/

theorem getD_map_append (xs ys : List Nat) (f : Nat → Nat) (k : Nat) :
    (xs.map f ++ ys).getD k 0 = (xs[k]?).elim (ys.getD (k - xs.length) 0) f := by
  rcases Nat.lt_or_ge k xs.length with h | h
  · rw [List.getD_append _ _ _ _ (by rwa [List.length_map]), List.getElem?_eq_getElem h,
      List.getD_eq_getElem _ _ (by rwa [List.length_map]), List.getElem_map]
    rfl
  · rw [List.getD_append_right _ _ _ _ (by rwa [List.length_map]), List.getElem?_eq_none h,
      List.length_map]
    rfl

theorem getD_zeros (xs : List Nat) (k : Nat) : (xs.map fun _ => 0).getD k 0 = 0 := by
  rw [List.getD_eq_getElem?_getD, List.getElem?_map]
  cases xs[k]? with
  | none => rfl
  | some x => rfl

/-- What stands in two lists of open axes for an axis of the result, seen from the first operand. -/
theorem getD_outer_left (ys : List Nat) (f : Nat → Nat) (k : Nat) :
    ((a.openAxes axesA).map f ++ ys).getD k 0 =
      (a.openAxis? axesA 0 k).elim (ys.getD (k - (a.openAxes axesA).length) 0) f := by
  rw [getD_map_append, openAxis?, if_pos (Nat.zero_le k), Nat.sub_zero]

/-- The same seen from the second operand. -/
theorem getD_outer_right (f g : Nat → Nat) (k : Nat) :
    ((a.openAxes axesA).map f ++ (b.openAxes axesB).map g).getD k 0 =
      (b.openAxis? axesB (a.openAxes axesA).length k).elim
        (((a.openAxes axesA).map f).getD k 0) g := by
  unfold openAxis?
  split
  · next h =>
    rw [List.getD_append_right _ _ _ _ (by rwa [List.length_map]), List.length_map,
      ← List.append_nil ((b.openAxes axesB).map g), getD_map_append, List.getD_nil]
    cases h' : (b.openAxes axesB)[k - (a.openAxes axesA).length]? with
    | some axis => rfl
    | none =>
      rw [List.getD_eq_default _ _ (by rwa [List.length_map])]
  · next h =>
    rw [List.getD_append _ _ _ _ (by rw [List.length_map]; omega)]
    rfl

theorem ContractFits.map_extent {dst : Tensor α} (h : ContractFits a b dst axesA axesB perm) :
    axesA.map a.extent = axesB.map b.extent :=
  calc axesA.map a.extent
    _ = (axesA.zip axesB).map fun p => a.extent p.1 := by
      conv => lhs; rw [← List.map_fst_zip (le_of_eq h.1), List.map_map]
      rfl
    _ = (axesA.zip axesB).map fun p => b.extent p.2 := List.map_congr_left h.2.1
    _ = axesB.map b.extent := by
      conv => rhs; rw [← List.map_snd_zip (le_of_eq h.1.symm), List.map_map]
      rfl

/-- The checks of a contraction say that it fits, if the permutation lists all open axes. -/
theorem checkContract_eq_ok_iff_fits {dst : Tensor α}
    (hperm : perm.Perm (List.range (openExtents a b axesA axesB).length)) :
    checkContract a b dst axesA axesB perm = .ok () ↔ ContractFits a b dst axesA axesB perm := by
  have hlen : perm.length = (openExtents a b axesA axesB).length := by
    rw [hperm.length_eq, List.length_range]
  rw [checkContract_eq_ok, ContractFits, and_iff_right hlen]

end

section

variable {α : Type} [Element α] {axesA axesB perm : List Nat}

theorem contractAt_eq_rowMajorSum (a b : Tensor α) (conjA conjB : Bool)
    (axesA axesB perm o : List Nat) :
    contractAt a b conjA conjB axesA axesB perm o = rowMajorSum (axesA.map a.extent) fun c =>
      conjIf conjA (a.read (a.operandOffset axesA 0 perm o c)) *
        conjIf conjB (b.read (b.operandOffset axesB (a.openAxes axesA).length perm o c)) := by
  have hA : (perm.map fun k =>
      ((a.openAxes axesA).map a.stride ++ (b.openAxes axesB).map fun _ => 0).getD k 0) =
      perm.map fun k => (a.openAxis? axesA 0 k).elim 0 a.stride :=
    List.map_congr_left fun k _ => by rw [getD_outer_left, getD_zeros]
  have hB : (perm.map fun k =>
      (((a.openAxes axesA).map fun _ => 0) ++ (b.openAxes axesB).map b.stride).getD k 0) =
      perm.map fun k => (b.openAxis? axesB (a.openAxes axesA).length k).elim 0 b.stride :=
    List.map_congr_left fun k _ => by rw [getD_outer_right, getD_zeros]
  unfold contractAt rowMajorSum operandOffset
  rw [List.foldl_map, ← hA, ← hB]
  rfl

/-- **A contraction is the permuted sum of products over the paired axes.** -/
theorem contract_pointwise (alpha beta : α) (a b : Reading (Tensor α)) (dst : Tensor α)
    (hA : axesA.Nodup) (hltA : ∀ k ∈ axesA, k < a.operand.rank)
    (hB : axesB.Nodup) (hltB : ∀ k ∈ axesB, k < b.operand.rank)
    (hperm : perm.Perm (List.range (openExtents a.operand b.operand axesA axesB).length)) :
    ∃ left right : List Nat → List Nat → List Nat,
      Blends alpha beta (.contract a b axesA axesB) perm dst
        (ContractFits a.operand b.operand dst axesA axesB perm)
        (fun o => rowMajorSum (axesA.map a.operand.extent) fun c =>
          conjIf a.conj (a.operand.entry (left o c)) *
            conjIf b.conj (b.operand.entry (right o c))) ∧
      (∀ o, actionAt perm (.contract a b axesA axesB) o =
        rowMajorSum (axesA.map a.operand.extent) fun c =>
          conjIf a.conj (a.operand.read (a.operand.operandOffset axesA 0 perm o c)) *
            conjIf b.conj (b.operand.read (b.operand.operandOffset axesB
              (a.operand.openAxes axesA).length perm o c))) ∧
      (ContractFits a.operand b.operand dst axesA axesB perm →
        ∀ o, Index.inRange o dst.dims = true →
          ∀ c, Index.inRange c (axesA.map a.operand.extent) = true →
            (∀ i, OperandIndex a.operand axesA 0 perm o c i ↔ i = left o c) ∧
            (∀ i, OperandIndex b.operand axesB (a.operand.openAxes axesA).length perm o c i ↔
              i = right o c) ∧
            a.operand.operandOffset axesA 0 perm o c < a.operand.data.size ∧
            b.operand.operandOffset axesB (a.operand.openAxes axesA).length perm o c <
              b.operand.data.size) := by
  obtain ⟨a, conjA⟩ := a
  obtain ⟨b, conjB⟩ := b
  dsimp only at hltA hltB hperm ⊢
  have hlen : (openExtents a b axesA axesB).length =
      (a.openAxes axesA).length + (b.openAxes axesB).length := by
    rw [openExtents, List.length_append, List.length_map, List.length_map]
  have hextA : ∀ k axis, a.openAxis? axesA 0 k = some axis →
      (openExtents a b axesA axesB).getD k 0 = a.extent axis := by
    intro k axis h
    rw [openExtents, getD_outer_left, h]
    rfl
  have hextB : ∀ k axis, b.openAxis? axesB (a.openAxes axesA).length k = some axis →
      (openExtents a b axesA axesB).getD k 0 = b.extent axis := by
    intro k axis h
    rw [openExtents, getD_outer_right, h]
    rfl
  have hplaceA (hfits : ContractFits a b dst axesA axesB perm) {o c : List Nat}
      (ho : Index.inRange o dst.dims = true)
      (hc : Index.inRange c (axesA.map a.extent) = true) :=
    place_operandValues hA hltA hperm (by omega) hextA (hfits.2.2 ▸ ho) hc
  have hplaceB (hfits : ContractFits a b dst axesA axesB perm) {o c : List Nat}
      (ho : Index.inRange o dst.dims = true)
      (hc : Index.inRange c (axesA.map a.extent) = true) :=
    place_operandValues hB hltB hperm (by omega) hextB (hfits.2.2 ▸ ho) (hfits.map_extent ▸ hc)
  refine ⟨fun o c => Index.place a.rank (operandValues a axesA 0 perm o c),
    fun o c => Index.place b.rank (operandValues b axesB (a.openAxes axesA).length perm o c),
    .of_check (checkContract_eq_ok_iff_fits hperm) fun hfits o ho => ?_,
    contractAt_eq_rowMajorSum a b conjA conjB axesA axesB perm, fun hfits o ho c hc => ?_⟩
  · refine (contractAt_eq_rowMajorSum a b conjA conjB axesA axesB perm o).trans ?_
    refine rowMajorSum_congr fun c hc => ?_
    obtain ⟨-, hinA, hoffA⟩ := hplaceA hfits ho hc
    obtain ⟨-, hinB, hoffB⟩ := hplaceB hfits ho hc
    rw [entry_eq_read _ hinA, hoffA, entry_eq_read _ hinB, hoffB]
  · obtain ⟨hidxA, hinA, hoffA⟩ := hplaceA hfits ho hc
    obtain ⟨hidxB, hinB, hoffB⟩ := hplaceB hfits ho hc
    exact ⟨hidxA, hidxB, hoffA ▸ offset_lt_size _ hinA, hoffB ▸ offset_lt_size _ hinB⟩

/-- A product of two matrices, written transposed. -/
theorem contract_pointwise_transposed :
    ([1].Nodup ∧ (∀ k ∈ [1], k < 2) ∧ [0].Nodup ∧ (∀ k ∈ [0], k < 2) ∧
        [1, 0].Perm (List.range (openExtents (counted [2, 2]) (counted [2, 3]) [1] [0]).length)) ∧
      (perform 2 0 (.contract ⟨counted [2, 2], false⟩ ⟨counted [2, 3], true⟩ [1] [0]) [1, 0]
        (counted [3, 2])).dst.get? [2, 1] = some (2 * (0 + 2 * 2 + 3 * 5)) := by
  have hperm :
      [1, 0].Perm (List.range (openExtents (counted [2, 2]) (counted [2, 3]) [1] [0]).length) := by
    decide
  obtain ⟨left, right, hblends, -, hpos⟩ := contract_pointwise 2 0 ⟨counted [2, 2], false⟩
    ⟨counted [2, 3], true⟩ (counted [3, 2]) (by decide) (by decide) (by decide) (by decide) hperm
  have hfits : ContractFits (counted [2, 2]) (counted [2, 3]) (counted [3, 2]) [1] [0] [1, 0] :=
    ⟨rfl, by decide, rfl⟩
  obtain ⟨hleft0, hright0, -⟩ := hpos hfits [2, 1] rfl [0] rfl
  obtain ⟨hleft1, hright1, -⟩ := hpos hfits [2, 1] rfl [1] rfl
  have hl0 : OperandIndex (counted [2, 2]) [1] 0 [1, 0] [2, 1] [0] [1, 0] := by
    refine (operandIndex_iff (by rfl) (by rfl)).2 ?_
    decide
  have hl1 : OperandIndex (counted [2, 2]) [1] 0 [1, 0] [2, 1] [1] [1, 1] := by
    refine (operandIndex_iff (by rfl) (by rfl)).2 ?_
    decide
  have hr0 : OperandIndex (counted [2, 3]) [0] 1 [1, 0] [2, 1] [0] [0, 2] := by
    refine (operandIndex_iff (by rfl) (by rfl)).2 ?_
    decide
  have hr1 : OperandIndex (counted [2, 3]) [0] 1 [1, 0] [2, 1] [1] [1, 2] := by
    refine (operandIndex_iff (by rfl) (by rfl)).2 ?_
    decide
  refine ⟨⟨by decide, by decide, by decide, by decide, hperm⟩,
    (hblends.element hfits [2, 1] rfl).trans ?_⟩
  show some (2 * (0 + entry _ (left [2, 1] [0]) * entry _ (right [2, 1] [0]) +
    entry _ (left [2, 1] [1]) * entry _ (right [2, 1] [1]))) = _
  rw [← (hleft0 _).1 hl0, ← (hright0 _).1 hr0, ← (hleft1 _).1 hl1, ← (hright1 _).1 hr1]
  rfl

end

end TensorNet.Tensor
