import TensorNet.Proofs.Backend.Values
import TensorNet.Proofs.Execution.Extents

/-!
# Steps on aligned inputs

When every label has one extent on all inputs, the buffer for a result has the extents of its
labels, all checks succeed, and a step computes the sum that its labels say.
-/

namespace TensorNet

namespace Execution

open Lowering

variable {κ : Type} {A : κ → Type} {k : κ} {σ : Type}
variable {x : Execution κ (Tensors A) k σ (A k)} {dim : Label → Nat}

/-- Labels with their extents. -/
def withExtents (dim : Label → Nat) (ls : List Label) : List (Label × Nat) :=
  ls.map fun l => (l, dim l)

theorem zip_extents (ls : List Label) : ls.zip (ls.map dim) = withExtents dim ls := by
  induction ls with
  | nil => rfl
  | cons l ls ih => rw [List.map_cons, List.zip_cons_cons, ih, withExtents, withExtents,
      List.map_cons]

theorem getD_withExtents {ls : List Label} {j : Nat} (hj : j < ls.length) :
    (withExtents dim ls).getD j default = (axisLabel ls j, dim (axisLabel ls j)) := by
  rw [withExtents, List.getD_eq_getElem?_getD, List.getElem?_map, getElem?_eq_axisLabel hj]
  rfl

theorem openAxes_withExtents {ls cs : List Label} (hn : ls.Nodup) :
    openAxes (withExtents dim ls) (positions cs ls) =
      withExtents dim (ls.filter fun l => decide (l ∉ cs)) := by
  have hv : openAxes (withExtents dim ls) (positions cs ls) =
      (restAxes ls (positions cs ls)).map fun j => (axisLabel ls j, dim (axisLabel ls j)) := by
    have hlen : (withExtents dim ls).length = ls.length := List.length_map ..
    rw [openAxes_eq, hlen, restAxes]
    refine List.map_congr_left fun j hj => ?_
    exact getD_withExtents (List.mem_range.1 (List.mem_filter.1 hj).1)
  rw [hv, ← map_axisLabel_restAxes hn, withExtents, List.map_map]
  rfl

/-- The check of the destination, which has the extents of some labels in the order that the
permutation gives them. -/
theorem checkReceived_withExtents {rest labels : List Label} {perm : List Nat}
    (hlt : ∀ j ∈ perm, j < rest.length) (hlabels : labels = perm.map (axisLabel rest)) :
    checkReceived (withExtents dim rest) perm (labels.map dim) = .ok () := by
  have hlen : perm.length = (labels.map dim).length := by
    rw [hlabels, List.length_map, List.length_map]
  rw [checkReceived_iff hlen, hlabels, List.map_map]
  exact List.map_congr_left fun j hj => by rw [getD_withExtents (hlt j hj)]; rfl

/-- **Every label has one extent on all inputs**, and the destination has those of the output. -/
structure Aligned (x : Execution κ (Tensors A) k σ (A k)) (dim : Label → Nat) : Prop where
  fits : x.Fits
  inputDims : x.inputDims = x.plan.network.factors.map fun f => f.labels.map dim
  dstDims : x.dstDims = x.plan.network.output.map dim

theorem Aligned.dims_input (h : x.Aligned dim) {i : Nat} (hi : i < x.plan.network.numFactors) :
    x.inputDims.getD i [] = (x.plan.network.factor i).labels.map dim := by
  rw [h.inputDims]
  exact Network.getD_map_factors hi

theorem Aligned.inputExtent_eq (h : x.Aligned dim) {l : Label} {i j : Nat}
    (ho : ⟨i, j⟩ ∈ x.plan.network.placesOf l) : x.inputExtent (i, j) = dim l := by
  rw [inputExtent, h.inputDims]
  exact Network.extent_of_mem_placesOf ho

/-- The extents noted for a result are those of its labels. -/
theorem Aligned.extents_eq (h : x.Aligned dim) {v : Located} {fs : List Nat}
    (hv : v.Of x.plan.network fs) : v.extents.map x.inputExtent = v.labels.map dim := by
  have hpair : ∀ r ∈ v.labels.zip v.extents, x.inputExtent r.2 = dim r.1 :=
    fun r hr => h.inputExtent_eq (hv.axes.places r hr)
  have hsnd := List.map_snd_zip (Nat.le_of_eq hv.length.symm)
  have hfst := List.map_fst_zip (Nat.le_of_eq hv.length)
  conv => lhs; rw [← hsnd]
  conv => rhs; rw [← hfst]
  rw [List.map_map, List.map_map]
  exact List.map_congr_left hpair

theorem Aligned.labelled_input (h : x.Aligned dim) {i : Nat}
    (hi : i < x.plan.network.numFactors) :
    x.labelled (.input i) = withExtents dim (x.plan.network.factor i).labels := by
  have hdims : x.dimsOf (.input i) = (x.plan.network.factor i).labels.map dim := h.dims_input hi
  rw [labelled, hdims]
  exact zip_extents _

theorem Aligned.labelled_eq (h : x.Aligned dim) {v : Located} {fs : List Nat}
    (hv : v.Of x.plan.network fs) (hs : Stored x.plan.network x.plan.temporaries v) :
    x.labelled v.source.operand = withExtents dim v.labels := by
  cases hs with
  | input hi => exact h.labelled_input hi
  | temporary hm =>
    have ht := h.fits.plan.temporary? hm
    have hext := h.extents_eq hv
    simp only [labelled, Plan.labelsOf, dimsOf, ht, Option.map_some, Option.getD_some]
    rw [hext]
    exact zip_extents _

theorem Aligned.dimsOf_temporary (h : x.Aligned dim) {v : Located} {fs : List Nat}
    (hv : v.Of x.plan.network fs) {slot : Nat}
    (hm : ⟨slot, v.labels, v.extents⟩ ∈ x.plan.temporaries) :
    x.dimsOf (.temporary slot) = v.labels.map dim := by
  have ht := h.fits.plan.temporary? hm
  simp only [dimsOf, ht]
  exact h.extents_eq hv

/-! ### Contractions -/

variable [∀ k, Element (A k)] {temps : List (Nat × Tensor (A k))} {s : Instruction}

section

variable {a b : Located} {fs gs : List Nat} {cs labels : List Label}

omit [∀ k, Element (A k)] in
theorem Aligned.checkSummed_contract (h : x.Aligned dim)
    (hs : Sides x.plan.network x.plan.temporaries fs gs a b cs) :
    x.checkSummed
        (.contract a.source b.source (positions cs a.labels) (positions cs b.labels)) =
      .ok (withExtents dim ((joinAxes a b cs).map (·.1))) := by
  rw [checkSummed, h.labelled_eq hs.left hs.storedLeft, h.labelled_eq hs.right hs.storedRight]
  rw [forM_eq_ok fun p hp => ?_, ok_bind, openAxes_withExtents hs.left.nodup,
    openAxes_withExtents hs.right.nodup, map_joinAxes hs.left hs.right cs, withExtents, withExtents,
    withExtents, List.map_append]
  · rfl
  · obtain ⟨hpa, hpb, he⟩ := axisLabel_of_mem_paired hs hp
    rw [checkPair, getD_withExtents hpa, getD_withExtents hpb, he, if_pos rfl]

/-- The check of the operands and of the destination by the backend. -/
theorem Aligned.checkContract_eq_ok [LawfulElement (A k)] (h : x.Aligned dim)
    (hs : Sides x.plan.network x.plan.temporaries fs gs a b cs)
    (hl : labels.Perm ((joinAxes a b cs).map (·.1))) {u w : Tensor (A k)} {f g : Values → A k}
    (hf : Shows dim u a.source.conj a.labels f) (hg : Shows dim w b.source.conj b.labels g) :
    Tensor.checkContract u w (.zeros (labels.map dim)) (positions cs a.labels)
      (positions cs b.labels) (positions labels ((joinAxes a b cs).map (·.1))) = .ok () := by
  have hca : ∀ l ∈ cs, l ∈ a.labels := fun l hl => ((hs.common.mem l).1 hl).1
  have hcb : ∀ l ∈ cs, l ∈ b.labels := fun l hl => ((hs.common.mem l).1 hl).2
  have hmem : ∀ l ∈ labels, l ∈ (joinAxes a b cs).map (·.1) := fun l hm => hl.mem_iff.1 hm
  have hopen : Tensor.openExtents u w (positions cs a.labels) (positions cs b.labels) =
      ((joinAxes a b cs).map (·.1)).map dim := by
    rw [openExtents_eq hs.left hs.right (hf.dims.trans (h.extents_eq hs.left).symm)
      (hg.dims.trans (h.extents_eq hs.right).symm), List.map_map]
    exact List.map_congr_left fun r hr =>
      h.inputExtent_eq ((hs.axes h.fits.plan.network).places r hr)
  refine Tensor.checkContract_eq_ok.2 ⟨?_, fun p hp => ?_, ?_, ?_⟩
  · rw [length_positions hca, length_positions hcb]
  · obtain ⟨hpa, hpb, he⟩ := axisLabel_of_mem_paired hs hp
    rw [hf.extent_eq hpa, hg.extent_eq hpb, he]
  · rw [hopen, length_positions hmem, hl.length_eq]
    exact (List.length_map ..).symm
  · show labels.map dim = _
    conv => lhs; rw [← map_axisLabel_positions hmem]
    rw [hopen, List.map_map]
    refine List.map_congr_left fun j hj => ?_
    rw [List.getD_eq_getElem?_getD, List.getElem?_map,
      getElem?_eq_axisLabel (lt_of_mem_positions hj)]
    rfl

/-- **A contraction on aligned inputs succeeds** and sums over the common labels. -/
theorem Aligned.compute_contract [LawfulElement (A k)] (h : x.Aligned dim)
    (hs : Sides x.plan.network x.plan.temporaries fs gs a b cs)
    (hl : labels.Perm ((joinAxes a b cs).map (·.1)))
    (hact : s.action = .contract a.source b.source (positions cs a.labels) (positions cs b.labels))
    (hperm : s.perm = positions labels ((joinAxes a b cs).map (·.1)))
    (hdims : x.dimsOf s.dst = labels.map dim) {u w : Tensor (A k)} {f g : Values → A k}
    (hu : x.source temps a.source.operand = .ok u) (hw : x.source temps b.source.operand = .ok w)
    (hf : Shows dim u a.source.conj a.labels f) (hg : Shows dim w b.source.conj b.labels g) :
    ∃ F, x.compute s temps (labels.map dim) = .ok F ∧ ∀ v : Values, (∀ l ∈ labels, v l < dim l) →
      F (labels.map v) = sumOver dim cs (fun b => f b * g b) v := by
  have hmem : ∀ l ∈ labels, l ∈ (joinAxes a b cs).map (·.1) := fun l hm => hl.mem_iff.1 hm
  have hchk : x.checkExtents s = .ok () := by
    rw [checkExtents, hact, h.checkSummed_contract hs, ok_bind, hdims, hperm]
    exact checkReceived_withExtents (fun j hj => lt_of_mem_positions hj)
      (map_axisLabel_positions hmem).symm
  refine ⟨_, compute_eq_ok.2 ⟨hchk, .contract ⟨u, a.source.conj⟩ ⟨w, b.source.conj⟩
    (positions cs a.labels) (positions cs b.labels), ?_, ?_, rfl⟩, fun v hv => ?_⟩
  · rw [hact, Action.resolve, hu, ok_bind, hw, ok_bind]
    rfl
  · rw [hperm]
    exact h.checkContract_eq_ok hs hl hf hg
  · rw [hperm]
    exact contractAt_eq hf hg hs.left.nodup hs.right.nodup hs.common.nodup hs.common.mem
      (map_joinAxes hs.left hs.right cs) (hs.axes h.fits.plan.network).nodup hl hv

end

/-! ### Traces -/

section

variable {i : Nat} {labels : List Label}

omit [∀ k, Element (A k)] in
theorem Aligned.checkSummed_trace (h : x.Aligned dim) (hi : i < x.plan.network.numFactors) :
    x.checkSummed (.trace ⟨.input i, (x.plan.network.factor i).conj⟩
        (pairsFrom 0 (x.plan.network.factor i).labels)) =
      .ok (withExtents dim (x.plan.network.factor i).labels) := by
  rw [checkSummed, h.labelled_input hi, forM_eq_ok fun p hp => ?_, ok_bind]
  · rfl
  · obtain ⟨h1, h2, -, he⟩ := axisLabel_of_mem_pairs hp
    rw [checkPair, getD_withExtents h1, getD_withExtents h2, he, if_pos rfl]

/-- The check of the operand and of the destination by the backend. -/
theorem Aligned.checkTrace_eq_ok [LawfulElement (A k)] (h : x.Aligned dim)
    (hi : i < x.plan.network.numFactors)
    (hl : labels.Perm ((traceAxes (x.plan.network.factor i) i).map (·.1))) {t : Tensor (A k)}
    {f : Values → A k}
    (hf : Shows dim t (x.plan.network.factor i).conj (x.plan.network.factor i).labels f) :
    Tensor.checkTrace t (.zeros (labels.map dim)) (tracePerm (x.plan.network.factor i) i labels)
      (pairsFrom 0 (x.plan.network.factor i).labels) = .ok () := by
  have hn := (axesOf_traceAxes h.fits.plan.network hi).nodup
  refine Tensor.checkTrace_eq_ok.2 ⟨?_, ?_, fun p hp => ?_⟩
  · rw [length_tracePerm (h.fits.plan.network.count_le_two i) hn hl, Tensor.rank, hf.dims,
      List.length_map]
  · show labels.map dim = _
    conv => lhs; rw [← tracePerm_eq fun l hm => hl.mem_iff.1 hm]
    rw [List.map_map]
    exact List.map_congr_left fun j hj => (hf.extent_eq (lt_of_mem_tracePerm hn hl j hj)).symm
  · obtain ⟨h1, h2, -, he⟩ := axisLabel_of_mem_pairs hp
    rw [hf.extent_eq h1, hf.extent_eq h2, he]

/-- **A trace on aligned inputs succeeds** and sums over the labels that stand twice. Where there
are none it is a copy. -/
theorem Aligned.compute_trace [LawfulElement (A k)] (h : x.Aligned dim)
    (hi : i < x.plan.network.numFactors)
    (hl : labels.Perm ((traceAxes (x.plan.network.factor i) i).map (·.1)))
    (hact : s.action = .trace ⟨.input i, (x.plan.network.factor i).conj⟩
        (pairsFrom 0 (x.plan.network.factor i).labels) ∨
      s.action = .copy ⟨.input i, (x.plan.network.factor i).conj⟩ ∧
        pairsFrom 0 (x.plan.network.factor i).labels = [])
    (hperm : s.perm = tracePerm (x.plan.network.factor i) i labels)
    (hdims : x.dimsOf s.dst = labels.map dim) {t : Tensor (A k)} {f : Values → A k}
    (ht : x.source temps (.input i) = .ok t)
    (hf : Shows dim t (x.plan.network.factor i).conj (x.plan.network.factor i).labels f) :
    ∃ F, x.compute s temps (labels.map dim) = .ok F ∧ ∀ v : Values, (∀ l ∈ labels, v l < dim l) →
      F (labels.map v) = sumOver dim (tracedLabels (x.plan.network.factor i).labels) f v := by
  have hlabels := tracePerm_eq fun l hm => hl.mem_iff.1 hm
  have hkept := perm_tracePerm (axesOf_traceAxes h.fits.plan.network hi).nodup hl
  have hsummed : x.checkSummed s.action =
      .ok (withExtents dim (x.plan.network.factor i).labels) := by
    rcases hact with hact | ⟨hact, -⟩
    · rw [hact, h.checkSummed_trace hi]
    · rw [hact, checkSummed, h.labelled_input hi]
  have hchk : x.checkExtents s = .ok () := by
    rw [checkExtents, hsummed, ok_bind, hdims, hperm]
    exact checkReceived_withExtents
      (lt_of_mem_tracePerm (axesOf_traceAxes h.fits.plan.network hi).nodup hl) hlabels.symm
  have htrace := h.checkTrace_eq_ok hi hl hf
  have hvalue : ∀ v : Values, (∀ l ∈ labels, v l < dim l) →
      Tensor.traceAt t (x.plan.network.factor i).conj s.perm
        (pairsFrom 0 (x.plan.network.factor i).labels) (labels.map v) =
          sumOver dim (tracedLabels (x.plan.network.factor i).labels) f v := by
    intro v hv
    rw [hperm]
    exact traceAt_eq (h.fits.plan.network.count_le_two i) hf hkept hlabels.symm hv
  rw [← hperm] at htrace
  rcases hact with hact | ⟨hact, hp⟩
  · refine ⟨_, compute_eq_ok.2 ⟨hchk, .trace ⟨t, (x.plan.network.factor i).conj⟩ _, ?_, htrace,
      rfl⟩, hvalue⟩
    rw [hact, Action.resolve, ht]
    rfl
  · rw [hp] at htrace hvalue
    refine ⟨_, compute_eq_ok.2 ⟨hchk, .copy ⟨t, (x.plan.network.factor i).conj⟩, ?_, htrace, rfl⟩,
      hvalue⟩
    rw [hact, Action.resolve, ht]
    rfl

end

end Execution

end TensorNet
