import Mathlib.Data.List.Basic
import Mathlib.Data.List.Flatten
import TensorNet.Proofs.Backend.Values
import TensorNet.Proofs.Tensor.Place

/-!
# Dense steps, element by element: the trace

What a step does to each element of its destination, for every kind of element: no law of the
numbers is used, so the terms of a sum stand in the order in which they are added.

The index of the destination and the summed index together have one value for each axis of the
source, so they determine the index at which it is read. What is added up from strides is the offset
of this index. Hence each term is the element that is meant, and no read goes out of bounds.

1. What it means that a step computes a function.
2. The trace, with copies as the traces over no pairs.
-/

namespace TensorNet.Tensor

open Lowering

/-! ### 1. Steps that compute a function -/

section

variable {α : Type} [Element α]

/-- The sum over all indices below some extents, from zero and in row-major order. -/
def rowMajorSum (dims : List Nat) (f : List Nat → α) : α :=
  (Index.all dims).foldl (fun sum c => sum + f c) 0

/-- **A step succeeds exactly when it fits, and then it blends a function into its destination.**
Otherwise it leaves the destination as it was. -/
structure Blends (alpha beta : α) (action : Action (Tensor α)) (perm : List Nat) (dst : Tensor α)
    (fits : Prop) (f : List Nat → α) : Prop where
  succeeds : (perform alpha beta action perm dst).failure = none ↔ fits
  dims : (perform alpha beta action perm dst).dst.dims = dst.dims
  element : fits → ∀ o, Index.inRange o dst.dims = true →
    (perform alpha beta action perm dst).dst.get? o =
      some (if Element.isZero beta then alpha * f o else beta * dst.entry o + alpha * f o)
  /-- With a zero `beta` the old values do not matter. -/
  unread : Element.isZero beta = true → fits → ∀ old : Tensor α, old.dims = dst.dims →
    perform alpha beta action perm old = perform alpha beta action perm dst
  refused : ¬ fits → (perform alpha beta action perm dst).dst = dst

theorem rowMajorSum_congr {dims : List Nat} {f g : List Nat → α}
    (h : ∀ c, Index.inRange c dims = true → f c = g c) : rowMajorSum dims f = rowMajorSum dims g :=
  List.foldl_ext _ _ _ fun _ c hc => by rw [h c (Index.mem_all.1 hc)]

variable {alpha beta : α} {action : Action (Tensor α)} {perm : List Nat} {dst : Tensor α}

theorem perform_of_ok (h : checkAction dst perm action = .ok ()) :
    perform alpha beta action perm dst = ⟨dst.blendFn alpha beta (actionAt perm action), none⟩ := by
  rw [perform, h]

theorem perform_of_error {fault : BackendFault} (h : checkAction dst perm action = .error fault) :
    perform alpha beta action perm dst = ⟨dst, some (.backend fault)⟩ := by
  rw [perform, h]

/-- A step blends in what its formula gives, if its checks say that it fits. -/
theorem Blends.of_check {fits : Prop} {f : List Nat → α}
    (hcheck : checkAction dst perm action = .ok () ↔ fits)
    (hf : fits → ∀ o, Index.inRange o dst.dims = true → actionAt perm action o = f o) :
    Blends alpha beta action perm dst fits f where
  succeeds := by
    rw [← hcheck]
    cases h : checkAction dst perm action with
    | ok => rw [perform_of_ok h]; exact ⟨fun _ => rfl, fun _ => rfl⟩
    | error fault => rw [perform_of_error h]; exact ⟨nofun, nofun⟩
  dims := dims_perform alpha beta action perm dst
  element hfits o ho := by
    rw [perform_of_ok (hcheck.2 hfits), get?_blendFn alpha beta dst _ ho, hf hfits o ho, blend]
  unread hbeta hfits old hold := by
    have hok := hcheck.2 hfits
    rw [perform_of_ok hok, perform_of_ok ((checkAction_congr hold perm action).trans hok),
      blendFn_of_isZero hbeta, blendFn_of_isZero hbeta, hold]
  refused hfits := by
    cases h : checkAction dst perm action with
    | ok => exact absurd (hcheck.1 h) hfits
    | error fault => rw [perform_of_error h]

end

/-! ### 2. The trace -/

section

variable {α : Type} {src : Tensor α} {perm : List Nat} {pairs : List (Nat × Nat)} {o t : List Nat}

/-- The extents of a trace fit: paired axes have one extent, and the destination has the extents of
the others. -/
def TraceFits (src dst : Tensor α) (perm : List Nat) (pairs : List (Nat × Nat)) : Prop :=
  (∀ p ∈ pairs, src.extent p.1 = src.extent p.2) ∧ dst.dims = perm.map src.extent

/-- The index of a traced tensor that goes with an index of the destination and one of the pairs. -/
structure TracedIndex (src : Tensor α) (perm : List Nat) (pairs : List (Nat × Nat))
    (o t i : List Nat) : Prop where
  inRange : Index.inRange i src.dims = true
  kept : ∀ (k axis : Nat), perm[k]? = some axis → i[axis]? = o[k]?
  traced : ∀ (j : Nat) (p : Nat × Nat), pairs[j]? = some p → i[p.1]? = t[j]? ∧ i[p.2]? = t[j]?

/-- The offset at which a trace reads, as it is added up from strides. -/
def traceOffset (src : Tensor α) (perm : List Nat) (pairs : List (Nat × Nat)) (o t : List Nat) :
    Nat :=
  Index.offset o (perm.map src.stride) +
    Index.offset t (pairs.map fun p => src.stride p.1 + src.stride p.2)

/-- The values that two indices give to the axes of a traced tensor. -/
def traceValues (perm : List Nat) (pairs : List (Nat × Nat)) (o t : List Nat) : List (Nat × Nat) :=
  perm.zip o ++ (pairs.zip t).flatMap fun e => [(e.1.1, e.2), (e.1.2, e.2)]

theorem covers_traceValues (h : (perm ++ pairAxes pairs).Perm (List.range src.rank))
    (hpairs : ∀ p ∈ pairs, src.extent p.1 = src.extent p.2)
    (ho : Index.inRange o (perm.map src.extent) = true)
    (ht : Index.inRange t (pairs.map fun p => src.extent p.1) = true) :
    Index.Covers src.dims (traceValues perm pairs o t) where
  axes := by
    have hol : o.length = perm.length := by rw [Index.length_of_inRange ho, List.length_map]
    have htl : t.length = pairs.length := by rw [Index.length_of_inRange ht, List.length_map]
    have hzip : ((pairs.zip t).map (·.1)).flatMap (fun p => [p.1, p.2]) = pairAxes pairs := by
      rw [List.map_fst_zip (le_of_eq htl.symm), pairAxes]
    rw [List.flatMap_map] at hzip
    rw [traceValues, List.map_append, List.map_fst_zip (le_of_eq hol.symm), List.map_flatMap]
    exact hzip ▸ h
  lt := by
    intro v hv
    rcases List.mem_append.1 hv with hv | hv
    · exact Index.lt_of_mem_zip ho v hv
    · obtain ⟨e, he, hv⟩ := List.mem_flatMap.1 hv
      have hlt := Index.lt_of_mem_zip ht e he
      have hp := hpairs e.1 (List.of_mem_zip he).1
      rcases List.mem_pair.1 hv with rfl | rfl
      · exact hlt
      · exact lt_of_lt_of_eq hlt hp

theorem sum_traceValues :
    ((traceValues perm pairs o t).map fun p => p.2 * src.stride p.1).sum =
      src.traceOffset perm pairs o t := by
  rw [traceValues, traceOffset, List.map_append, List.sum_append, Index.sum_zip, List.map_flatMap,
    ← Index.sum_zip pairs t fun p => src.stride p.1 + src.stride p.2]
  congr 1
  simp only [List.map_cons, List.map_nil, Nat.mul_add]
  induction pairs.zip t with
  | nil => rfl
  | cons e es ih =>
    simp only [List.flatMap_cons, List.map_cons, List.sum_append, List.sum_cons, List.sum_nil, ih,
      Nat.add_zero]

theorem tracedIndex_iff (ho : o.length = perm.length) (ht : t.length = pairs.length)
    {i : List Nat} : TracedIndex src perm pairs o t i ↔
      Index.inRange i src.dims = true ∧ ∀ p ∈ traceValues perm pairs o t, i[p.1]? = some p.2 := by
  have hkept := Index.forall_mem_zip_iff ho (P := fun axis v => i[axis]? = v)
  have htraced := Index.forall_mem_zip_iff ht (P := fun p v => i[p.1]? = v ∧ i[p.2]? = v)
  have hpair : (∀ v ∈ (pairs.zip t).flatMap fun e => [(e.1.1, e.2), (e.1.2, e.2)],
      i[v.1]? = some v.2) ↔ ∀ e ∈ pairs.zip t, i[e.1.1]? = some e.2 ∧ i[e.1.2]? = some e.2 := by
    simp only [List.forall_mem_flatMap, List.forall_mem_cons, List.not_mem_nil, false_implies,
      implies_true, and_true]
  rw [traceValues, List.forall_mem_append, hpair, hkept, htraced]
  exact ⟨fun h => ⟨h.inRange, h.kept, h.traced⟩, fun h => ⟨h.1, h.2.1, h.2.2⟩⟩

/-- **The two indices determine the index that is read, and its offset is the one that is added
up.** -/
theorem place_traceValues (h : (perm ++ pairAxes pairs).Perm (List.range src.rank))
    {dst : Tensor α} (hfits : TraceFits src dst perm pairs) (ho : Index.inRange o dst.dims = true)
    (ht : Index.inRange t (pairs.map fun p => src.extent p.1) = true) :
    (∀ i, TracedIndex src perm pairs o t i ↔
        i = Index.place src.rank (traceValues perm pairs o t)) ∧
      Index.inRange (Index.place src.rank (traceValues perm pairs o t)) src.dims = true ∧
        Index.offset (Index.place src.rank (traceValues perm pairs o t)) (Index.strides src.dims) =
          src.traceOffset perm pairs o t := by
  rw [hfits.2] at ho
  have hcov := covers_traceValues h hfits.1 ho ht
  have hol : o.length = perm.length := by rw [Index.length_of_inRange ho, List.length_map]
  have htl : t.length = pairs.length := by rw [Index.length_of_inRange ht, List.length_map]
  refine ⟨fun i => (tracedIndex_iff hol htl).trans hcov.eq_place_iff, hcov.inRange_place, ?_⟩
  exact hcov.offset_place.trans sum_traceValues

/-- The checks of a trace say that it fits, if every axis is kept or paired once. -/
theorem checkTrace_eq_ok_iff_fits {dst : Tensor α}
    (h : (perm ++ pairAxes pairs).Perm (List.range src.rank)) :
    checkTrace src dst perm pairs = .ok () ↔ TraceFits src dst perm pairs := by
  have hlen := h.length_eq
  rw [List.length_append, length_pairAxes, List.length_range] at hlen
  rw [checkTrace_eq_ok, and_iff_right hlen, TraceFits, and_comm]

end

section

variable {α : Type} [Element α] {perm : List Nat} {pairs : List (Nat × Nat)}

theorem traceAt_eq_rowMajorSum (src : Tensor α) (conj : Bool) (perm : List Nat)
    (pairs : List (Nat × Nat)) (o : List Nat) :
    traceAt src conj perm pairs o = rowMajorSum (pairs.map fun p => src.extent p.1) fun t =>
      conjIf conj (src.read (src.traceOffset perm pairs o t)) := by
  unfold traceAt rowMajorSum
  rw [List.foldl_map]
  rfl

/-- **A trace is the permuted partial trace**, and a copy is the trace over no pairs. -/
theorem trace_pointwise (alpha beta : α) (src : Reading (Tensor α)) (dst : Tensor α)
    (h : (perm ++ pairAxes pairs).Perm (List.range src.operand.rank)) :
    ∃ pos : List Nat → List Nat → List Nat,
      Blends alpha beta (.trace src pairs) perm dst (TraceFits src.operand dst perm pairs)
        (fun o => rowMajorSum (pairs.map fun p => src.operand.extent p.1) fun t =>
          conjIf src.conj (src.operand.entry (pos o t))) ∧
      (∀ o, actionAt perm (.trace src pairs) o =
        rowMajorSum (pairs.map fun p => src.operand.extent p.1) fun t =>
          conjIf src.conj (src.operand.read (src.operand.traceOffset perm pairs o t))) ∧
      (TraceFits src.operand dst perm pairs → ∀ o, Index.inRange o dst.dims = true →
        ∀ t, Index.inRange t (pairs.map fun p => src.operand.extent p.1) = true →
          (∀ i, TracedIndex src.operand perm pairs o t i ↔ i = pos o t) ∧
            src.operand.traceOffset perm pairs o t < src.operand.data.size) ∧
      (pairs = [] → Blends alpha beta (.copy src) perm dst
        (dst.dims = perm.map src.operand.extent)
        (fun o => 0 + conjIf src.conj (src.operand.entry (pos o [])))) := by
  have hcheck : checkTrace src.operand dst perm pairs = .ok () ↔
      TraceFits src.operand dst perm pairs := checkTrace_eq_ok_iff_fits h
  have hsum : TraceFits src.operand dst perm pairs → ∀ o, Index.inRange o dst.dims = true →
      traceAt src.operand src.conj perm pairs o =
        rowMajorSum (pairs.map fun p => src.operand.extent p.1) fun t => conjIf src.conj
          (src.operand.entry (Index.place src.operand.rank (traceValues perm pairs o t))) := by
    intro hfits o ho
    rw [traceAt_eq_rowMajorSum]
    refine rowMajorSum_congr fun t ht => ?_
    obtain ⟨-, hin, hoff⟩ := place_traceValues h hfits ho ht
    rw [entry_eq_read _ hin, hoff]
  refine ⟨fun o t => Index.place src.operand.rank (traceValues perm pairs o t), ?_, ?_, ?_, ?_⟩
  · exact .of_check hcheck hsum
  · exact traceAt_eq_rowMajorSum src.operand src.conj perm pairs
  · intro hfits o ho t ht
    obtain ⟨hidx, hin, hoff⟩ := place_traceValues h hfits ho ht
    exact ⟨hidx, hoff ▸ offset_lt_size _ hin⟩
  · rintro rfl
    have hfits : TraceFits src.operand dst perm [] ↔ dst.dims = perm.map src.operand.extent :=
      and_iff_right fun p hp => nomatch hp
    exact .of_check (hcheck.trans hfits) fun hdims => hsum (hfits.2 hdims)

/-- The tensor whose elements are their offsets. -/
def counted (dims : List Nat) : Tensor Int :=
  ofFn dims fun i => Int.ofNat (Index.offset i (Index.strides dims))

/-- The first axis is traced with the last one, and the old values count three times. -/
theorem trace_pointwise_diagonal :
    ([1] ++ pairAxes [(2, 0)]).Perm (List.range 3) ∧
      (perform 2 3 (.trace ⟨counted [2, 3, 2], true⟩ [(2, 0)]) [1] (counted [3])).dst.get? [1] =
        some (3 * 1 + 2 * (0 + 2 + 9)) := by
  have h : ([1] ++ pairAxes [(2, 0)]).Perm (List.range 3) := by decide
  obtain ⟨pos, hblends, -, hpos, -⟩ :=
    trace_pointwise 2 3 ⟨counted [2, 3, 2], true⟩ (counted [3]) h
  have hfits : TraceFits (counted [2, 3, 2]) (counted [3]) [1] [(2, 0)] := ⟨by decide, rfl⟩
  have h0 : TracedIndex (counted [2, 3, 2]) [1] [(2, 0)] [1] [0] [0, 1, 0] := by
    refine (tracedIndex_iff (by rfl) (by rfl)).2 ?_
    decide
  have h1 : TracedIndex (counted [2, 3, 2]) [1] [(2, 0)] [1] [1] [1, 1, 1] := by
    refine (tracedIndex_iff (by rfl) (by rfl)).2 ?_
    decide
  refine ⟨h, (hblends.element hfits [1] rfl).trans ?_⟩
  show some (3 * 1 + 2 * (0 + entry _ (pos [1] [0]) + entry _ (pos [1] [1]))) = _
  rw [← ((hpos hfits [1] rfl [0] rfl).1 _).1 h0, ← ((hpos hfits [1] rfl [1] rfl).1 _).1 h1]
  rfl

end

end TensorNet.Tensor
