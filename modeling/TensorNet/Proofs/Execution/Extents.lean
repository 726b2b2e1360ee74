import TensorNet.Proofs.Execution.Answer

/-!
# Extents during a run

The buffer that is read for a result has the extents that were noted for its axes: an input by the
check of the ranks, a temporary because it keeps the extents of its slot. So when the last step of
a plan succeeds, the destination has the extents of the output labels.
-/

namespace TensorNet

namespace Plan

/-- The extents of inputs have the ranks of the factors. -/
structure Ranked (p : Plan) (inputDims : List (List Nat)) : Prop where
  length : inputDims.length = p.network.numFactors
  rank : ∀ i < p.network.numFactors,
    (inputDims.getD i []).length = (p.network.factor i).labels.length

theorem checkRanks_eq_ok {p : Plan} {j : Nat} {ds : List (List Nat)} :
    p.checkRanks j ds = .ok () ↔
      ∀ i < ds.length, (ds.getD i []).length = (p.network.factor (j + i)).rank := by
  induction ds generalizing j with
  | nil => simp [checkRanks]
  | cons d ds ih =>
    rw [checkRanks]
    constructor
    · intro h i hi
      split at h
      · next hd =>
        cases i with
        | zero => exact hd
        | succ i =>
          have := ih.1 h i (by simpa using hi)
          rwa [Nat.add_assoc, Nat.add_comm 1 i] at this
      · cases h
    · intro h
      have hd : d.length = (p.network.factor j).rank := h 0 (Nat.zero_lt_succ _)
      rw [if_pos hd, ih]
      intro i hi
      have := h (i + 1) (Nat.succ_lt_succ hi)
      rwa [← Nat.add_assoc, Nat.add_right_comm] at this

/-- **The check of the inputs** asks for their number and their ranks. -/
theorem checkInputs_eq_ok {p : Plan} {ds : List (List Nat)} :
    p.checkInputs ds = .ok () ↔ p.Ranked ds := by
  unfold checkInputs
  by_cases hl : ds.length = p.numInputs
  · rw [if_neg (not_not_intro hl)]
    constructor
    · intro h
      have hr := checkRanks_eq_ok.1 h
      refine ⟨hl, fun i hi => ?_⟩
      rw [hr i (hl ▸ hi), Nat.zero_add]
      rfl
    · intro h
      refine checkRanks_eq_ok.2 fun i hi => ?_
      rw [Nat.zero_add]
      exact h.rank i (hi.trans_eq hl)
  · rw [if_pos hl]
    exact ⟨nofun, fun h => absurd h.length hl⟩

/-- The extent of an output label is that of its only place. -/
theorem outputExtent_eq {p : Plan} (hnet : p.network.Lawful) (ds : List (List Nat)) {l : Label}
    {o : Occurrence} (h : p.network.placesOf l = [o]) :
    p.outputExtent ds l = .ok ((ds.getD o.factor []).getD o.axis 0) := by
  have ho : o ∈ p.network.placesOf l := h ▸ List.mem_singleton_self o
  obtain ⟨id, hid, hl⟩ := hnet.mem_labels_of_place ho
  have hlook : p.network.idOf? l = some id := hnet.idOf?_eq_some.2 ⟨hid, hl⟩
  have hocc : p.network.occurrencesOf id = [o] := by rw [hnet.occurrencesOf_eq hid, hl, h]
  simp only [outputExtent, hlook, Option.bind_some, hocc, List.head?_cons]

end Plan

namespace Execution

variable {κ : Type} {A : κ → Type} {k : κ} {σ : Type}
variable {x : Execution κ (Tensors A) k σ (A k)}

/-! ### The check of the extents -/

/-- The open axes, by number. -/
theorem openAxes_eq (a : List (Label × Nat)) (axes : List Nat) : openAxes a axes =
    ((List.range a.length).filter fun j => !axes.contains j).map fun j => a.getD j default := by
  have hi : a.zipIdx = (List.range a.length).map fun j => (a.getD j default, j) := by
    refine List.ext_getElem (by simp) fun i h₁ h₂ => ?_
    have hlt : i < a.length := by simpa using h₁
    rw [List.getElem_zipIdx, List.getElem_map, List.getElem_range, List.getD_eq_getElem?_getD,
      List.getElem?_eq_getElem hlt, Option.getD_some, Nat.zero_add]
  rw [openAxes, hi, List.filter_map, List.map_map]
  rfl

/-- **The check of the destination** compares its extents with those of the axes that it receives. -/
theorem checkReceived_iff {axes : List (Label × Nat)} {perm dims : List Nat}
    (h : perm.length = dims.length) : checkReceived axes perm dims = .ok () ↔
      dims = perm.map fun j => (axes.getD j default).2 := by
  induction perm generalizing dims with
  | nil =>
    obtain rfl := List.length_eq_zero_iff.1 h.symm
    exact ⟨fun _ => rfl, fun _ => rfl⟩
  | cons j perm ih =>
    cases dims with
    | nil => cases h
    | cons d dims =>
      rw [checkReceived, List.map_cons, List.cons.injEq]
      split
      · next he => rw [ih (Nat.succ.inj h), and_iff_right he.symm]
      · next he => exact ⟨nofun, fun h' => absurd h'.1.symm he⟩

/-! ### Extents of temporaries -/

/-- A run on inputs of the right ranks, of a plan that was made. -/
structure Fits (x : Execution κ (Tensors A) k σ (A k)) : Prop where
  plan : x.plan.Proper
  dims : x.inputDims = x.inputs.map Tensor.dims
  ranked : x.plan.Ranked x.inputDims

/-- Temporaries have the extents of their slots. -/
def Sized (x : Execution κ (Tensors A) k σ (A k)) (temps : List (Nat × Tensor (A k))) : Prop :=
  ∀ t ∈ temps, t.2.dims = x.dimsOf (.temporary t.1)

theorem Sized.dropRead {temps : List (Nat × Tensor (A k))} (h : Sized x temps) (o : Operand) :
    Sized x (dropRead temps o) := by
  cases o with
  | temporary slot => exact fun t ht => h t (List.mem_filter.1 ht).1
  | input i => exact h
  | destination => exact h

theorem Sized.hold [∀ k, Element (A k)] {temps temps' : List (Nat × Tensor (A k))}
    (h : Sized x temps) {s : Instruction} (hs : x.hold temps s = .ok temps') : Sized x temps' := by
  have fold : ∀ (os : List Operand) (ts : List (Nat × Tensor (A k))), Sized x ts →
      Sized x (os.foldl Execution.dropRead ts) := by
    intro os
    induction os with
    | nil => exact fun ts h => h
    | cons o os ih => exact fun ts h => ih _ (h.dropRead o)
  unfold Execution.hold at hs
  split at hs
  · next slot =>
    obtain ⟨f, -, hs⟩ := bind_eq_ok.1 hs
    cases hs
    refine fold _ _ fun t ht => ?_
    rcases List.mem_cons.1 ht with rfl | ht
    · rfl
    · exact h t (List.mem_filter.1 ht).1
  · cases hs
    exact h

theorem sized_foldlM [∀ k, Element (A k)] {init : List Instruction}
    {temps : List (Nat × Tensor (A k))} (h : init.foldlM x.hold [] = .ok temps) : Sized x temps :=
  foldlM_inv (Sized x) (fun _ _ _ _ hc hs => hc.hold hs)
    (fun _ h => (List.not_mem_nil h).elim) h

/-! ### Operands -/

section

variable {temps : List (Nat × Tensor (A k))}

omit temps in
/-- The extents of an operand are those noted for the axes of the result. -/
theorem Fits.dimsOf_stored (hf : x.Fits) {v : Located}
    (hv : Lowering.Stored x.plan.network x.plan.temporaries v) :
    x.dimsOf v.source.operand = v.extents.map x.inputExtent := by
  cases hv with
  | @input i hi =>
    have hrank := hf.ranked.rank i hi
    simp only [Lowering.readInput, dimsOf, List.map_map, Factor.rank, ← hrank]
    refine List.ext_getElem (by simp) fun j h₁ h₂ => ?_
    simp only [List.getElem_map, List.getElem_range, Function.comp_apply, inputExtent]
    rw [List.getD_eq_getElem?_getD (l := x.inputDims.getD i []), List.getElem?_eq_getElem h₁,
      Option.getD_some]
  | temporary hm => simp only [dimsOf, hf.plan.temporary? hm]

/-- What is read has the extents of its operand. -/
theorem Fits.dims_operand (hf : x.Fits) (ht : Sized x temps) {o : Operand} {t : Tensor (A k)}
    (h : x.source temps o = .ok t) : t.dims = x.dimsOf o := by
  cases o with
  | input i =>
    rw [source] at h
    split at h
    · next hb =>
      cases h
      rw [dimsOf, hf.dims, List.getD_eq_getElem?_getD, List.getElem?_map, hb]
      rfl
    · cases h
  | temporary slot =>
    rw [source] at h
    split at h
    · next hb =>
      cases h
      exact ht _ (mem_of_lookup hb)
    · cases h
  | destination => cases h

/-- **What is read for a result** has the extents noted for its axes. -/
theorem Fits.dims_source (hf : x.Fits) (ht : Sized x temps) {v : Located}
    (hv : Lowering.Stored x.plan.network x.plan.temporaries v) {t : Tensor (A k)}
    (h : x.source temps v.source.operand = .ok t) : t.dims = v.extents.map x.inputExtent :=
  (hf.dims_operand ht h).trans (hf.dimsOf_stored hv)

theorem extent_eq {t : Tensor (A k)} {es : List (Nat × Nat)}
    (h : t.dims = es.map x.inputExtent) {j : Nat} (hj : j < es.length) :
    t.extent j = x.inputExtent (es.getD j default) := by
  rw [Tensor.extent, h, List.getD_eq_getElem?_getD, List.getD_eq_getElem?_getD, List.getElem?_map,
    List.getElem?_eq_getElem hj]
  rfl

/-- The extents of axes in the order of some labels. -/
def picked (x : Execution κ (Tensors A) k σ (A k)) (rest : List (Label × (Nat × Nat)))
    (labels : List Label) : List Nat :=
  (Lowering.positions labels (rest.map (·.1))).map fun k => x.inputExtent (rest.getD k default).2

/-- The open extents of two tensors are those of the axes that a join leaves open. -/
theorem openExtents_eq {a b : Located} {s t : Tensor (A k)} {fs gs : List Nat}
    (ha : a.Of x.plan.network fs) (hb : b.Of x.plan.network gs)
    (hs : s.dims = a.extents.map x.inputExtent) (ht : t.dims = b.extents.map x.inputExtent)
    (cs : List Label) :
    Tensor.openExtents s t (Lowering.positions cs a.labels) (Lowering.positions cs b.labels) =
      (Lowering.joinAxes a b cs).map fun r => x.inputExtent r.2 := by
  have side : ∀ {v : Located} {t : Tensor (A k)}, v.labels.length = v.extents.length →
      t.dims = v.extents.map x.inputExtent → ∀ axes,
      (t.openAxes axes).map t.extent =
        (Lowering.openAxes v axes).map fun r => x.inputExtent r.2 := by
    intro v t hl ht axes
    have hrank : t.rank = v.labels.length := by rw [Tensor.rank, ht, List.length_map, hl]
    rw [Lowering.openAxes_eq v axes hl, List.map_map, Tensor.openAxes, hrank]
    refine List.map_congr_left fun j hj => ?_
    have hlt := (Lowering.mem_restAxes.1 hj).1
    rw [extent_eq ht (hl ▸ hlt)]
    rfl
  rw [Tensor.openExtents, side ha.length hs, side hb.length ht, Lowering.joinAxes, List.map_append]

end

/-! ### The last step -/

theorem compute_eq_ok [∀ k, Element (A k)] {s : Instruction}
    {temps : List (Nat × Tensor (A k))} {dims : List Nat} {f : List Nat → A k} :
    x.compute s temps dims = .ok f ↔ x.checkExtents s = .ok () ∧
      ∃ action, s.action.resolve (x.source temps) = .ok action ∧
        Tensor.checkAction (.zeros dims) s.perm action = .ok () ∧
          Tensor.actionAt s.perm action = f := by
  unfold compute
  constructor
  · intro h
    obtain ⟨⟨⟩, hchk, h⟩ := bind_eq_ok.1 h
    obtain ⟨action, hact, h⟩ := bind_eq_ok.1 h
    refine ⟨hchk, action, hact, ?_⟩
    split at h
    · next hc =>
      cases h
      exact ⟨hc, rfl⟩
    · cases h
  · rintro ⟨hchk, action, hact, hc, rfl⟩
    rw [hchk, ok_bind, hact, ok_bind, hc]
    rfl

/-- The extents of the destination of a copy or a trace. -/
theorem Fits.dims_trace (hf : x.Fits) {i : Nat} (hi : i < x.plan.network.numFactors)
    {temps : List (Nat × Tensor (A k))} (ht : Sized x temps) {src t : Tensor (A k)}
    {labels : List Label} (hsrc : x.source temps (.input i) = .ok src)
    {pairs : List (Nat × Nat)}
    (h : Tensor.checkTrace src t (Lowering.tracePerm (x.plan.network.factor i) i labels) pairs =
      .ok ()) :
    t.dims = picked x (Lowering.traceAxes (x.plan.network.factor i) i) labels := by
  have hdims := hf.dims_source ht (.input hi) hsrc
  rw [(Tensor.checkTrace_eq_ok.1 h).2.1, Lowering.tracePerm, List.map_map, picked]
  refine List.map_congr_left fun j hj => ?_
  have hlt := Lowering.lt_of_mem_positions hj
  rw [List.length_map, Lowering.traceAxes, List.length_map] at hlt
  have hk := (Lowering.mem_keptAxes hf.plan.network).1 (List.getElem_mem hlt)
  simp only [Function.comp_apply, Lowering.traceAxes, List.getD_eq_getElem?_getD, List.getElem?_map,
    List.getElem?_eq_getElem hlt, Option.map_some, Option.getD_some]
  generalize (Lowering.keptAxes _ _)[j] = m at hk
  have hget :
      (Lowering.readInput (x.plan.network.factor i) i).result.extents[m]? = some (i, m) := by
    rw [Lowering.readInput, List.getElem?_map, Factor.rank, List.getElem?_range hk.1]
    rfl
  refine (extent_eq hdims (List.getElem?_eq_some_iff.1 hget).1).trans ?_
  rw [List.getD_eq_getElem?_getD, hget, Option.getD_some]

/-- The extents of the destination of a contraction. -/
theorem Fits.dims_contract (hf : x.Fits) {temps : List (Nat × Tensor (A k))} (ht : Sized x temps)
    {a b : Located} {fs gs : List Nat} {labels cs : List Label}
    (hs : Lowering.Sides x.plan.network x.plan.temporaries fs gs a b cs) {u v t : Tensor (A k)}
    (hu : x.source temps a.source.operand = .ok u) (hv : x.source temps b.source.operand = .ok v)
    (h : Tensor.checkContract u v t (Lowering.positions cs a.labels)
      (Lowering.positions cs b.labels)
      (Lowering.positions labels ((Lowering.joinAxes a b cs).map (·.1))) = .ok ()) :
    t.dims = picked x (Lowering.joinAxes a b cs) labels := by
  rw [(Tensor.checkContract_eq_ok.1 h).2.2.2,
    openExtents_eq hs.left hs.right (hf.dims_source ht hs.storedLeft hu)
      (hf.dims_source ht hs.storedRight hv), picked]
  refine List.map_congr_left fun j hj => ?_
  have hlt := Lowering.lt_of_mem_positions hj
  rw [List.length_map] at hlt
  simp only [List.getD_eq_getElem?_getD, List.getElem?_map, List.getElem?_eq_getElem hlt,
    Option.map_some, Option.getD_some]

/-- The extents of the axes that are left of all factors, in the order of the output. -/
theorem Fits.outputDims_eq (hf : x.Fits) {fs : List Nat}
    (hfs : ∀ i < x.plan.network.numFactors, i ∈ fs) {rest : List (Label × (Nat × Nat))}
    (h : AxesOf x.plan.network fs rest) :
    x.plan.outputDims x.inputDims = .ok (picked x rest x.plan.network.output) := by
  have hnet := hf.plan.network
  have hperm := hnet.perm_output hfs h
  have hmem : ∀ l ∈ x.plan.network.output, l ∈ rest.map (·.1) := fun l hl => hperm.mem_iff.1 hl
  have hout := Lowering.map_axisLabel_positions hmem
  have hk : ∀ j ∈ Lowering.positions x.plan.network.output (rest.map (·.1)),
      x.plan.outputExtent x.inputDims (Lowering.axisLabel (rest.map (·.1)) j) =
        .ok (x.inputExtent (rest.getD j default).2) := by
    intro j hj
    have hlt := Lowering.lt_of_mem_positions hj
    rw [List.length_map] at hlt
    have hget : rest.getD j default = rest[j] := by
      rw [List.getD_eq_getElem?_getD, List.getElem?_eq_getElem hlt, Option.getD_some]
    have hlabel : Lowering.axisLabel (rest.map (·.1)) j = rest[j].1 :=
      Lowering.axisLabel_eq_of_getElem? (by
        rw [List.getElem?_map, List.getElem?_eq_getElem hlt]
        rfl)
    have hmem := h.places _ (List.getElem_mem hlt)
    have hone : (x.plan.network.placesOf rest[j].1).length = 1 := by
      rw [← hnet.mem_output, hperm.mem_iff]
      exact List.mem_map_of_mem (List.getElem_mem hlt)
    obtain ⟨o, ho⟩ := List.length_eq_one_iff.1 hone
    rw [ho] at hmem
    rw [hlabel, hget, Plan.outputExtent_eq hnet _ ho, ← List.mem_singleton.1 hmem]
    rfl
  unfold Plan.outputDims
  rw [Plan.checkInputs_eq_ok.2 hf.ranked, ok_bind]
  conv => lhs; rw [← hout]
  rw [List.mapM_map, picked]
  exact mapM_eq_ok hk

/-- **When the last step succeeds, the destination has the extents of the output.** -/
theorem Fits.outputDims_of_compute [∀ k, Element (A k)] (hf : x.Fits) {init : List Instruction}
    {last : Instruction} (hs : x.plan.steps = init ++ [last])
    {temps : List (Nat × Tensor (A k))} (ht : Sized x temps) {dims : List Nat}
    {f : List Nat → A k} (h : x.compute last temps dims = .ok f) :
    x.plan.outputDims x.inputDims = .ok dims := by
  obtain ⟨-, action, hact, hchk, -⟩ := compute_eq_ok.1 h
  have hnet := hf.plan.network
  have hall : ∀ i < x.plan.network.numFactors, i ∈ x.plan.tree.root.factors := fun i hi =>
    hf.plan.mem_factors hi
  cases hf.plan.ends hs with
  | @trace id i s root valid _ _ haction perm =>
    have hdims : dims = picked x (Lowering.traceAxes (x.plan.network.factor i) i)
        x.plan.network.output := by
      rcases haction with ha | ⟨ha, -⟩
      · rw [ha] at hact
        obtain ⟨src, hsrc, hact⟩ := bind_eq_ok.1 hact
        cases hact
        exact hf.dims_trace valid ht hsrc (perm ▸ hchk)
      · rw [ha] at hact
        obtain ⟨src, hsrc, hact⟩ := bind_eq_ok.1 hact
        cases hact
        exact hf.dims_trace valid ht hsrc (perm ▸ hchk)
    rw [root] at hall
    rw [hf.outputDims_eq hall (Lowering.axesOf_traceAxes hnet valid), hdims]
  | contract root joined sides _ _ ha perm =>
    rw [ha] at hact
    obtain ⟨u, hu, hact⟩ := bind_eq_ok.1 hact
    obtain ⟨v, hv, hact⟩ := bind_eq_ok.1 hact
    cases hact
    have hdims : dims = picked x _ x.plan.network.output :=
      hf.dims_contract ht sides hu hv (perm ▸ hchk)
    rw [root] at hall
    rw [hf.outputDims_eq hall (sides.axes hnet), hdims]

end Execution

end TensorNet
