import TensorNet.Proofs.Network.Open
import TensorNet.Proofs.Plan.Axes
import TensorNet.Proofs.Tree.Shape

/-!
# Where results are

The axes of the result of a node carry the labels that are open in its factors, each of them once,
and the extent noted for an axis is that of a place where its label stands. The result itself is an
input, a temporary that is listed, or the destination.
-/

namespace TensorNet

namespace Network

variable {net : Network}

/-- A label is in one factor as often as it is among its labels. -/
theorem timesIn_singleton {i : Nat} (hi : i < net.numFactors) (l : Label) :
    net.timesIn [i] l = (net.factor i).labels.count l := by
  have hcount : (net.factor i).labels.count l =
      ((List.range (net.factor i).labels.length).filter fun k =>
        decide ((net.factor i).labels[k]? = some l)).length := by
    conv => lhs; rw [← Lowering.map_axisLabel_range (net.factor i).labels]
    rw [List.count, List.countP_map, List.countP_eq_length_filter]
    refine congrArg List.length (List.filter_congr fun k hk => ?_)
    rw [Lowering.getElem?_eq_axisLabel (List.mem_range.1 hk), Bool.eq_iff_iff]
    simp
  have hperm : (((List.range (net.factor i).labels.length).filter fun k =>
      decide ((net.factor i).labels[k]? = some l)).map (Occurrence.mk i)).Perm
      ((net.placesOf l).filter fun o => decide (o.factor ∈ [i])) := by
    refine (List.perm_ext_iff_of_nodup ?_ ((nodup_placesOf l).filter _)).2 ?_
    · refine List.pairwise_map.2 ((List.nodup_range.filter _).imp fun hne he => hne ?_)
      exact congrArg Occurrence.axis he
    · rintro ⟨j, k⟩
      simp only [List.mem_map, List.mem_filter, List.mem_range, decide_eq_true_eq,
        Occurrence.mk.injEq, mem_placesOf_iff, List.mem_singleton]
      constructor
      · rintro ⟨k', ⟨-, hl⟩, rfl, rfl⟩
        exact ⟨⟨hi, hl⟩, rfl⟩
      · rintro ⟨⟨-, hl⟩, rfl⟩
        exact ⟨k, ⟨(List.getElem?_eq_some_iff.1 hl).1, hl⟩, rfl, rfl⟩
  rw [timesIn, List.countP_eq_length_filter, hcount, ← hperm.length_eq, List.length_map]

theorem Lawful.count_le_two (h : net.Lawful) (i : Nat) (l : Label) :
    (net.factor i).labels.count l ≤ 2 := by
  by_cases hi : i < net.numFactors
  · rw [← timesIn_singleton hi]
    exact h.timesIn_le_two [i] l
  · have : net.factor i = default := by
      rw [factor, List.getD_eq_getElem?_getD, List.getElem?_eq_none (Nat.le_of_not_lt hi),
        Option.getD_none]
    rw [this]
    exact Nat.zero_le 2

end Network

/-! ### Axes with labels and extents -/

/-- The listed axes carry the labels open in some factors, and each has the extent of a place of
its label. -/
structure AxesOf (net : Network) (fs : List Nat) (axes : List (Label × (Nat × Nat))) : Prop where
  nodup : (axes.map (·.1)).Nodup
  mem : ∀ l, l ∈ axes.map (·.1) ↔ net.timesIn fs l = 1
  places : ∀ a ∈ axes, ⟨a.2.1, a.2.2⟩ ∈ net.placesOf a.1

/-- A result has the axes that are open in some factors. -/
structure Located.Of (net : Network) (fs : List Nat) (x : Located) : Prop where
  length : x.labels.length = x.extents.length
  axes : AxesOf net fs (x.labels.zip x.extents)

variable {net : Network} {fs gs : List Nat} {rest : List (Label × (Nat × Nat))}

theorem Located.Of.map_fst {x : Located} (h : x.Of net fs) :
    (x.labels.zip x.extents).map (·.1) = x.labels :=
  List.map_fst_zip (Nat.le_of_eq h.length)

theorem Located.Of.nodup {x : Located} (h : x.Of net fs) : x.labels.Nodup :=
  h.map_fst ▸ h.axes.nodup

theorem Located.Of.mem {x : Located} (h : x.Of net fs) (l : Label) :
    l ∈ x.labels ↔ net.timesIn fs l = 1 := by
  rw [← h.axes.mem, h.map_fst]

theorem mem_map_fst_filter {cs : List Label} {l : Label} :
    l ∈ (rest.filter fun a => decide (a.1 ∉ cs)).map (·.1) ↔ l ∈ rest.map (·.1) ∧ l ∉ cs := by
  constructor
  · intro h
    obtain ⟨a, ha, rfl⟩ := List.mem_map.1 h
    obtain ⟨h1, h2⟩ := List.mem_filter.1 ha
    exact ⟨List.mem_map_of_mem h1, of_decide_eq_true h2⟩
  · rintro ⟨h, hc⟩
    obtain ⟨a, ha, rfl⟩ := List.mem_map.1 h
    exact List.mem_map_of_mem (List.mem_filter.2 ⟨ha, decide_eq_true hc⟩)

/-- **The axes of a join**: those of both sides that do not carry a common label. -/
theorem AxesOf.join (hnet : net.Lawful) {as bs : List (Label × (Nat × Nat))} {cs : List Label}
    (ha : AxesOf net fs as) (hb : AxesOf net gs bs) (hd : ∀ i ∈ fs, i ∉ gs)
    (hcs : ∀ l, l ∈ cs ↔ l ∈ as.map (·.1) ∧ l ∈ bs.map (·.1)) :
    AxesOf net (fs ++ gs) ((as.filter fun a => decide (a.1 ∉ cs)) ++
      bs.filter fun a => decide (a.1 ∉ cs)) := by
  refine ⟨?_, fun l => ?_, fun a hm => ?_⟩
  · rw [List.map_append]
    refine List.nodup_append.2 ⟨?_, ?_, fun l hl k hk he => ?_⟩
    · exact ha.nodup.sublist (List.filter_sublist.map _)
    · exact hb.nodup.sublist (List.filter_sublist.map _)
    · obtain ⟨h1, h2⟩ := mem_map_fst_filter.1 hl
      obtain ⟨h3, -⟩ := mem_map_fst_filter.1 hk
      exact h2 ((hcs l).2 ⟨h1, he ▸ h3⟩)
  · rw [List.map_append, List.mem_append, mem_map_fst_filter, mem_map_fst_filter, hcs, ha.mem,
      hb.mem, Network.timesIn_append hd]
    have := hnet.timesIn_le_two (fs ++ gs) l
    rw [Network.timesIn_append hd] at this
    omega
  · rcases List.mem_append.1 hm with hm | hm
    · exact ha.places a (List.mem_filter.1 hm).1
    · exact hb.places a (List.mem_filter.1 hm).1

/-- The output lists the labels that are open in all factors. -/
theorem Network.Lawful.perm_output (hnet : net.Lawful) (hfs : ∀ i < net.numFactors, i ∈ fs)
    (h : AxesOf net fs rest) : net.output.Perm (rest.map (·.1)) := by
  refine (List.perm_ext_iff_of_nodup hnet.nodup_output h.nodup).2 fun l => ?_
  rw [h.mem, hnet.mem_output, Network.timesIn_all hfs]

namespace Lowering

/-- Axes picked in the order of some labels, with the extents that they have. -/
theorem zip_positions {labels : List Label} (h : ∀ l ∈ labels, l ∈ rest.map (·.1)) :
    labels.zip ((positions labels (rest.map (·.1))).map fun k => (rest.getD k default).2) =
      (positions labels (rest.map (·.1))).map fun k => rest.getD k default := by
  have hfst : labels = ((positions labels (rest.map (·.1))).map fun k =>
      rest.getD k default).map (·.1) := by
    conv => lhs; rw [← map_axisLabel_positions h]
    rw [List.map_map]
    refine List.map_congr_left fun k hk => ?_
    have hlt := lt_of_mem_positions hk
    rw [List.length_map] at hlt
    refine axisLabel_eq_of_getElem? ?_
    rw [List.getElem?_map, List.getElem?_eq_getElem hlt, Function.comp_apply,
      List.getD_eq_getElem?_getD, List.getElem?_eq_getElem hlt]
    rfl
  have hsnd : (positions labels (rest.map (·.1))).map (fun k => (rest.getD k default).2) =
      ((positions labels (rest.map (·.1))).map fun k => rest.getD k default).map (·.2) := by
    rw [List.map_map]
    rfl
  have hzip : ∀ xs : List (Label × (Nat × Nat)), labels = xs.map (·.1) →
      labels.zip (xs.map (·.2)) = xs := by
    intro xs h
    rw [h]
    exact (List.zip_of_prod rfl rfl).symm
  rw [hsnd]
  exact hzip _ hfst

/-- **A result whose axes are picked from others** has them in another order. -/
theorem of_positions {labels : List Label} (hrest : AxesOf net fs rest)
    (h : labels.Perm (rest.map (·.1))) (src : Reading Operand) :
    Located.Of net fs ⟨src, labels,
      (positions labels (rest.map (·.1))).map fun k => (rest.getD k default).2⟩ := by
  have hmem : ∀ l ∈ labels, l ∈ rest.map (·.1) := fun l hl => h.mem_iff.1 hl
  have hlen : labels.length =
      ((positions labels (rest.map (·.1))).map fun k => (rest.getD k default).2).length := by
    rw [List.length_map, length_positions hmem]
  refine ⟨hlen, ⟨?_, fun l => ?_, fun a ha => ?_⟩⟩
  · show ((labels.zip _).map _).Nodup
    rw [List.map_fst_zip (Nat.le_of_eq hlen)]
    exact h.nodup_iff.2 hrest.nodup
  · show l ∈ (labels.zip _).map _ ↔ _
    rw [List.map_fst_zip (Nat.le_of_eq hlen), h.mem_iff, hrest.mem]
  · change a ∈ labels.zip _ at ha
    rw [zip_positions hmem] at ha
    obtain ⟨k, hk, rfl⟩ := List.mem_map.1 ha
    have hlt := lt_of_mem_positions hk
    rw [List.length_map] at hlt
    refine hrest.places _ ?_
    rw [List.getD_eq_getElem?_getD, List.getElem?_eq_getElem hlt]
    exact List.getElem_mem hlt

/-! ### Factors -/

/-- The axes of a factor that are not traced. -/
def traceAxes (f : Factor) (factor : Nat) : List (Label × (Nat × Nat)) :=
  (keptAxes f.rank (pairsFrom 0 f.labels)).map fun k => (axisLabel f.labels k, (factor, k))

theorem mem_keptAxes (hnet : net.Lawful) {i k : Nat} :
    k ∈ keptAxes (net.factor i).rank (pairsFrom 0 (net.factor i).labels) ↔
      k < (net.factor i).labels.length ∧
        (net.factor i).labels.count (axisLabel (net.factor i).labels k) = 1 := by
  rw [Factor.rank, keptAxes_eq, mem_restAxes]
  refine and_congr_right fun hk => ?_
  have h2 := hnet.count_le_two i
  have hpos := List.count_pos_iff.2 (axisLabel_mem hk)
  have := h2 (axisLabel (net.factor i).labels k)
  rw [mem_pairAxes_pairsFrom h2 hk]
  omega

theorem axesOf_traceAxes (hnet : net.Lawful) {i : Nat} (hi : i < net.numFactors) :
    AxesOf net [i] (traceAxes (net.factor i) i) := by
  have hmap : (traceAxes (net.factor i) i).map (·.1) =
      (keptAxes (net.factor i).rank (pairsFrom 0 (net.factor i).labels)).map
        (axisLabel (net.factor i).labels) := by
    rw [traceAxes, List.map_map]
    rfl
  refine ⟨?_, fun l => ?_, fun a ha => ?_⟩
  · rw [hmap]
    refine List.pairwise_map.2 (List.Pairwise.imp_of_mem ?_ (List.nodup_range.filter _))
    intro j k hj hk hne he
    obtain ⟨hjl, hj1⟩ := (mem_keptAxes hnet).1 hj
    obtain ⟨hkl, -⟩ := (mem_keptAxes hnet).1 hk
    have hge := getElem?_eq_axisLabel hjl
    have hge' := getElem?_eq_axisLabel hkl
    rw [← he] at hge'
    rcases Nat.lt_or_gt_of_ne hne with hlt | hlt
    · have := two_le_count hlt hge hge'
      omega
    · have := two_le_count hlt hge' hge
      omega
  · rw [hmap, Network.timesIn_singleton hi, List.mem_map]
    constructor
    · rintro ⟨k, hk, rfl⟩
      exact ((mem_keptAxes hnet).1 hk).2
    · intro h1
      have hm : l ∈ (net.factor i).labels := List.count_pos_iff.1 (by omega)
      obtain ⟨k, hk⟩ := List.mem_iff_getElem?.1 hm
      have hkl := (List.getElem?_eq_some_iff.1 hk).1
      have he := axisLabel_eq_of_getElem? hk
      exact ⟨k, (mem_keptAxes hnet).2 ⟨hkl, by rw [he, h1]⟩, he⟩
  · obtain ⟨k, hk, rfl⟩ := List.mem_map.1 ha
    exact Network.mem_placesOf_iff.2 ⟨hi, getElem?_eq_axisLabel ((mem_keptAxes hnet).1 hk).1⟩

/-- A factor without a repeated label, read where it is. -/
theorem of_readInput (hnet : net.Lawful) {i : Nat} (hi : i < net.numFactors)
    (hp : pairsFrom 0 (net.factor i).labels = []) :
    (readInput (net.factor i) i).result.Of net [i] := by
  have hz : (net.factor i).labels.zip
      ((List.range (net.factor i).rank).map fun k => (i, k)) = traceAxes (net.factor i) i := by
    have hkept : keptAxes (net.factor i).rank [] = List.range (net.factor i).labels.length :=
      List.filter_eq_self.2 fun _ _ => rfl
    rw [traceAxes, hp, hkept]
    conv => lhs; rw [← map_axisLabel_range (net.factor i).labels]
    exact List.zip_map' ..
  refine ⟨by simp [readInput, Factor.rank], ?_⟩
  show AxesOf net [i] ((net.factor i).labels.zip
    ((List.range (net.factor i).rank).map fun k => (i, k)))
  rw [hz]
  exact axesOf_traceAxes hnet hi

/-! ### Nodes -/

/-- Where the result of a node other than the root is: it is an input, or a temporary that is
listed with its labels and extents. -/
inductive Stored (net : Network) (temporaries : List TemporarySpec) : Located → Prop
  | input {i : Nat} (hi : i < net.numFactors) :
      Stored net temporaries (readInput (net.factor i) i).result
  | temporary {slot : Nat} {labels : List Label} {extents : List (Nat × Nat)}
      (h : ⟨slot, labels, extents⟩ ∈ temporaries) :
      Stored net temporaries ⟨⟨.temporary slot, false⟩, labels, extents⟩

theorem Stored.mono {ts ts' : List TemporarySpec} {x : Located} (h : Stored net ts x)
    (hs : ∀ t ∈ ts, t ∈ ts') : Stored net ts' x := by
  cases h with
  | input hi => exact .input hi
  | temporary h => exact .temporary (hs _ h)

/-- The permutation of a trace, which lists axes of the factor. -/
def tracePerm (f : Factor) (factor : Nat) (labels : List Label) : List Nat :=
  (positions labels ((traceAxes f factor).map (·.1))).map fun k =>
    (keptAxes f.rank (pairsFrom 0 f.labels)).getD k 0

section

variable {f : Factor} {i : Nat} {labels : List Label}

theorem map_traceAxes (f : Factor) (i : Nat) : (traceAxes f i).map (·.1) =
    (keptAxes f.labels.length (pairsFrom 0 f.labels)).map (axisLabel f.labels) := by
  rw [traceAxes, List.map_map]
  rfl

theorem tracePerm_eq (hl : ∀ l ∈ labels, l ∈ (traceAxes f i).map (·.1)) :
    (tracePerm f i labels).map (axisLabel f.labels) = labels := by
  conv => rhs; rw [← map_axisLabel_positions hl]
  rw [tracePerm, List.map_map]
  refine List.map_congr_left fun j hj => ?_
  have hlt := lt_of_mem_positions hj
  rw [map_traceAxes, List.length_map] at hlt
  refine (axisLabel_eq_of_getElem? ?_).symm
  rw [map_traceAxes, List.getElem?_map, List.getElem?_eq_getElem hlt, Function.comp_apply,
    List.getD_eq_getElem?_getD, Factor.rank, List.getElem?_eq_getElem hlt]
  rfl

/-- The permutation of a trace lists the axes that are kept. -/
theorem perm_tracePerm (hn : ((traceAxes f i).map (·.1)).Nodup)
    (hl : labels.Perm ((traceAxes f i).map (·.1))) :
    (tracePerm f i labels).Perm (keptAxes f.labels.length (pairsFrom 0 f.labels)) := by
  have hrange : keptAxes f.labels.length (pairsFrom 0 f.labels) =
      (List.range ((traceAxes f i).map (·.1)).length).map fun j =>
        (keptAxes f.rank (pairsFrom 0 f.labels)).getD j 0 := by
    rw [map_traceAxes, List.length_map]
    refine List.ext_getElem (by simp) fun j h₁ h₂ => ?_
    rw [List.getElem_map, List.getElem_range, List.getD_eq_getElem?_getD, Factor.rank,
      List.getElem?_eq_getElem h₁, Option.getD_some]
  rw [hrange]
  exact (perm_positions hn hl).map _

/-- The permutation of a trace stays within the axes. -/
theorem lt_of_mem_tracePerm (hn : ((traceAxes f i).map (·.1)).Nodup)
    (hl : labels.Perm ((traceAxes f i).map (·.1))) :
    ∀ j ∈ tracePerm f i labels, j < f.labels.length := by
  intro j hj
  have hmem := (perm_tracePerm hn hl).mem_iff.1 hj
  rw [keptAxes_eq, mem_restAxes] at hmem
  exact hmem.1

end

theorem traceInput_eq (i id : Nat) (isRoot : Bool) :
    traceInput net (net.factor i) i id isRoot (pairsFrom 0 (net.factor i).labels) =
      let labels := if isRoot then net.output else (traceAxes (net.factor i) i).map (·.1)
      emit id isRoot (.trace ⟨.input i, (net.factor i).conj⟩ (pairsFrom 0 (net.factor i).labels))
        (tracePerm (net.factor i) i labels) labels
        ((positions labels ((traceAxes (net.factor i) i).map (·.1))).map fun k =>
          ((traceAxes (net.factor i) i).getD k default).2) := by
  have hkept : (keptAxes (net.factor i).rank (pairsFrom 0 (net.factor i).labels)).map
      (fun axis => (net.factor i).labels.getD axis default) =
        (traceAxes (net.factor i) i).map (·.1) := by
    rw [traceAxes, List.map_map]
    rfl
  simp only [traceInput, hkept]
  refine congrArg (emit id isRoot _ _ _) ?_
  rw [List.map_map]
  refine List.map_congr_left fun k hk => ?_
  have hlt := lt_of_mem_positions hk
  rw [List.length_map, traceAxes, List.length_map] at hlt
  simp only [traceAxes, Function.comp_apply, List.getD_eq_getElem?_getD, List.getElem?_map,
    List.getElem?_eq_getElem hlt, Option.map_some, Option.getD_some]

/-- The axes that are open after a join. -/
def joinAxes (a b : Located) (cs : List Label) : List (Label × (Nat × Nat)) :=
  openAxes a (positions cs a.labels) ++ openAxes b (positions cs b.labels)

theorem map_joinAxes {net : Network} {a b : Located} {fs gs : List Nat} (ha : a.Of net fs)
    (hb : b.Of net gs) (cs : List Label) : (joinAxes a b cs).map (·.1) =
      (a.labels.filter fun l => decide (l ∉ cs)) ++ b.labels.filter fun l => decide (l ∉ cs) := by
  have side : ∀ {v : Located} {fs : List Nat}, v.Of net fs →
      (Lowering.openAxes v (positions cs v.labels)).map (·.1) =
        v.labels.filter fun l => decide (l ∉ cs) := by
    intro v fs hv
    rw [openAxes_positions v hv.length hv.nodup]
    conv => rhs; rw [← hv.map_fst]
    rw [List.filter_map]
    rfl
  rw [joinAxes, List.map_append, side ha, side hb]

theorem joinResults_eq (id : Nat) (a b : Located) (cs : List Label) (isRoot : Bool) :
    joinResults net id a b cs isRoot =
      let labels := if isRoot then net.output else (joinAxes a b cs).map (·.1)
      emit id isRoot (.contract a.source b.source (positions cs a.labels) (positions cs b.labels))
        (positions labels ((joinAxes a b cs).map (·.1))) labels
        ((positions labels ((joinAxes a b cs).map (·.1))).map fun k =>
          ((joinAxes a b cs).getD k default).2) := rfl

/-- The summed labels of a join are those that both sides have. -/
structure Common (a b : Located) (cs : List Label) : Prop where
  nodup : cs.Nodup
  mem : ∀ l, l ∈ cs ↔ l ∈ a.labels ∧ l ∈ b.labels

theorem axesOf_joinAxes (hnet : net.Lawful) {a b : Located} {cs : List Label} (ha : a.Of net fs)
    (hb : b.Of net gs) (hd : ∀ i ∈ fs, i ∉ gs) (hcs : Common a b cs) :
    AxesOf net (fs ++ gs) (joinAxes a b cs) := by
  rw [joinAxes, openAxes_positions a ha.length ha.nodup, openAxes_positions b hb.length hb.nodup]
  refine ha.axes.join hnet hb.axes hd fun l => ?_
  rw [ha.map_fst, hb.map_fst, hcs.mem]

theorem common_of_built (hnet : net.Lawful) {costs : List Cost} {l r : TreeNode} {a b : Located}
    (hl : l.Built net costs) (hr : r.Built net costs) (hln : l.factors.Nodup)
    (hrn : r.factors.Nodup) (ha : a.Of net l.factors) (hb : b.Of net r.factors) :
    Common a b ((l.openSet.inter r.openSet).toList.map net.label) := by
  have hmem : ∀ id, id ∈ (l.openSet.inter r.openSet).toList ↔ id < net.numLabels ∧
      net.timesIn l.factors (net.label id) = 1 ∧ net.timesIn r.factors (net.label id) = 1 := by
    intro id
    rw [LabelSet.mem_toList, LabelSet.contains_inter, Bool.and_eq_true,
      hl.contains_openSet hnet hln, hr.contains_openSet hnet hrn, Network.contains_openIn,
      Network.contains_openIn]
    constructor
    · rintro ⟨⟨h1, h2⟩, -, h3⟩
      exact ⟨h1, h2, h3⟩
    · rintro ⟨h1, h2, h3⟩
      exact ⟨⟨h1, h2⟩, h1, h3⟩
  refine ⟨?_, fun lab => ?_⟩
  · refine List.pairwise_map.2 ((LabelSet.nodup_toList _).imp_of_mem ?_)
    intro i j hi hj hne he
    exact hne (hnet.label_inj ((hmem i).1 hi).1 ((hmem j).1 hj).1 he)
  · rw [ha.mem, hb.mem, List.mem_map]
    constructor
    · rintro ⟨id, hid, rfl⟩
      exact ((hmem id).1 hid).2
    · rintro ⟨h1, h2⟩
      have hpos : 0 < net.timesIn l.factors lab := by omega
      obtain ⟨o, ho, -⟩ := List.countP_pos_iff.1 hpos
      obtain ⟨id, hid, rfl⟩ := hnet.mem_labels_of_place ho
      exact ⟨id, (hmem id).2 ⟨hid, h1, h2⟩, rfl⟩

/-- **The result of a node has the axes that are open in its factors**, and it is an input or a
temporary of the node. -/
theorem of_lowerNode (hnet : net.Lawful) {costs : List Cost} {t : TreeNode}
    (h : t.Built net costs) (hn : t.factors.Nodup) :
    (lowerNode net false t).result.Of net t.factors ∧
      Stored net (lowerNode net false t).temporaries (lowerNode net false t).result := by
  induction h with
  | @leaf id i hi =>
    rw [lowerNode, lowerLeaf, TreeNode.factors]
    cases hp : pairsFrom 0 (net.factor i).labels with
    | nil => exact ⟨of_readInput hnet hi hp, .input hi⟩
    | cons p ps =>
      dsimp only
      rw [← hp, traceInput_eq]
      refine ⟨?_, .temporary (List.mem_singleton_self _)⟩
      exact of_positions (axesOf_traceAxes hnet hi) (List.Perm.refl _) _
  | @join id l r c hl hr hc ihl ihr =>
    obtain ⟨hln, hrn, -⟩ := List.nodup_append.1 hn
    obtain ⟨hla, -⟩ := ihl hln
    obtain ⟨hra, -⟩ := ihr hrn
    have hd := TreeNode.disjoint_of_nodup hn
    rw [lowerNode]
    simp only [joinResults_eq]
    refine ⟨?_, .temporary ?_⟩
    · exact of_positions (axesOf_joinAxes hnet hla hra hd
        (common_of_built hnet hl hr hln hrn hla hra)) (List.Perm.refl _) _
    · exact List.mem_append_right _ (List.mem_singleton_self _)

/-- The results of two subtrees, of which the labels `cs` are summed. -/
structure Sides (net : Network) (ts : List TemporarySpec) (fs gs : List Nat) (a b : Located)
    (cs : List Label) : Prop where
  left : a.Of net fs
  right : b.Of net gs
  apart : ∀ i ∈ fs, i ∉ gs
  storedLeft : Stored net ts a
  storedRight : Stored net ts b
  common : Common a b cs

theorem Sides.axes {ts : List TemporarySpec} {a b : Located} {cs : List Label}
    (h : Sides net ts fs gs a b cs) (hnet : net.Lawful) :
    AxesOf net (fs ++ gs) (joinAxes a b cs) :=
  axesOf_joinAxes hnet h.left h.right h.apart h.common

/-- Paired axes carry one label. -/
theorem axisLabel_of_mem_paired {ts : List TemporarySpec} {a b : Located} {cs : List Label}
    (hs : Sides net ts fs gs a b cs) {p : Nat × Nat}
    (hp : p ∈ (positions cs a.labels).zip (positions cs b.labels)) :
    p.1 < a.labels.length ∧ p.2 < b.labels.length ∧
      axisLabel a.labels p.1 = axisLabel b.labels p.2 := by
  have hca : ∀ l ∈ cs, l ∈ a.labels := fun l hl => ((hs.common.mem l).1 hl).1
  have hcb : ∀ l ∈ cs, l ∈ b.labels := fun l hl => ((hs.common.mem l).1 hl).2
  obtain ⟨hpa, hpb⟩ := List.of_mem_zip hp
  refine ⟨lt_of_mem_positions hpa, lt_of_mem_positions hpb, ?_⟩
  exact eq_of_mem_zip (by rw [map_axisLabel_positions hca, map_axisLabel_positions hcb]) p hp

/-- A built tree of different factors and nodes, whose temporaries are listed. -/
structure Listed (net : Network) (costs : List Cost) (ts : List TemporarySpec) (t : TreeNode) :
    Prop where
  built : t.Built net costs
  factors : t.factors.Nodup
  ids : t.ids.Nodup
  temporaries : ∀ s ∈ (lowerNode net false t).temporaries, s ∈ ts

/-- Two such trees that have no factor and no node in common. -/
structure Joined (net : Network) (costs : List Cost) (ts : List TemporarySpec)
    (l r : TreeNode) : Prop where
  left : Listed net costs ts l
  right : Listed net costs ts r
  factors : ∀ i ∈ l.factors, i ∉ r.factors
  ids : ∀ i ∈ l.ids, ∀ j ∈ r.ids, i ≠ j

theorem joined_of_nodup {costs : List Cost} {ts : List TemporarySpec} {l r : TreeNode}
    (hl : l.Built net costs) (hr : r.Built net costs) (hn : (l.factors ++ r.factors).Nodup)
    (hids : (l.ids ++ r.ids).Nodup)
    (hts : ∀ s ∈ (lowerNode net false l).temporaries ++ (lowerNode net false r).temporaries,
      s ∈ ts) : Joined net costs ts l r := by
  obtain ⟨hln, hrn, -⟩ := List.nodup_append.1 hn
  obtain ⟨hli, hri, hne⟩ := List.nodup_append.1 hids
  exact ⟨⟨hl, hln, hli, fun s hs => hts s (List.mem_append_left _ hs)⟩,
    ⟨hr, hrn, hri, fun s hs => hts s (List.mem_append_right _ hs)⟩,
    TreeNode.disjoint_of_nodup hn, hne⟩

/-- The two sides of a join. -/
theorem Listed.joined {costs : List Cost} {ts : List TemporarySpec} {id : Nat} {l r : TreeNode}
    {cs : List Label} {c : Cost} {s : LabelSet} (h : Listed net costs ts (.join id l r cs c s)) :
    Joined net costs ts l r := by
  have hids := h.ids
  rw [TreeNode.ids_join] at hids
  cases h.built with
  | join hl hr hc =>
    exact joined_of_nodup hl hr h.factors (List.nodup_append.1 hids).1 fun t ht =>
      h.temporaries t (List.mem_append_left _ ht)

theorem Joined.sides {costs : List Cost} {ts : List TemporarySpec} {l r : TreeNode}
    (h : Joined net costs ts l r) (hnet : net.Lawful) :
    Sides net ts l.factors r.factors (lowerNode net false l).result
      (lowerNode net false r).result ((l.openSet.inter r.openSet).toList.map net.label) := by
  obtain ⟨hla, hls⟩ := of_lowerNode hnet h.left.built h.left.factors
  obtain ⟨hra, hrs⟩ := of_lowerNode hnet h.right.built h.right.factors
  exact ⟨hla, hra, h.factors, hls.mono h.left.temporaries, hrs.mono h.right.temporaries,
    common_of_built hnet h.left.built h.right.built h.left.factors h.right.factors hla hra⟩

/-! ### Steps and temporaries -/

theorem temporaries_emit (id : Nat) (isRoot : Bool) (action : Action Operand) (perm : List Nat)
    (labels : List Label) (extents : List (Nat × Nat)) :
    ((emit id isRoot action perm labels extents).temporaries.map (·.slot)).Sublist [id] := by
  cases isRoot
  · exact List.Sublist.refl _
  · exact List.nil_sublist _

/-- The temporaries of a tree have the numbers of different nodes. -/
theorem slots_lowerNode (net : Network) (isRoot : Bool) (t : TreeNode) :
    ((lowerNode net isRoot t).temporaries.map (·.slot)).Sublist t.ids := by
  induction t generalizing isRoot with
  | leaf id i s =>
    rw [lowerNode, lowerLeaf]
    split
    · exact List.nil_sublist _
    · exact temporaries_emit ..
  | join id l r cs c s ihl ihr =>
    rw [lowerNode, TreeNode.ids_join, List.map_append, List.map_append]
    exact ((ihl false).append (ihr false)).append (temporaries_emit ..)

/-- The slot of a result below the root is the number of a node. -/
theorem mem_ids_of_stored {t : TreeNode} {v : Located}
    (h : Stored net (lowerNode net false t).temporaries v) {slot : Nat}
    (hs : v.source.operand = .temporary slot) : slot ∈ t.ids := by
  cases h with
  | input hi => cases hs
  | temporary hm =>
    cases hs
    exact (slots_lowerNode net false t).subset (List.mem_map_of_mem (f := (·.slot)) hm)

/-- A step that writes a temporary, which does not depend on what was there. -/
structure Interior (s : Instruction) : Prop where
  dst : ∃ slot, s.dst = .temporary slot
  alpha : s.alpha = .one
  beta : s.beta = .zero

/-- **All steps below the root write temporaries** and read nothing of their old contents. -/
theorem interior_lowerNode (net : Network) (t : TreeNode) :
    ∀ s ∈ (lowerNode net false t).steps, Interior s := by
  have hemit : ∀ (id : Nat) (action : Action Operand) (perm : List Nat) (labels : List Label)
      (extents : List (Nat × Nat)),
      ∀ s ∈ (emit id false action perm labels extents).steps, Interior s := by
    intro id action perm labels extents s hs
    rw [List.mem_singleton.1 hs]
    exact ⟨⟨id, rfl⟩, rfl, rfl⟩
  induction t with
  | leaf id i s =>
    rw [lowerNode, lowerLeaf]
    split
    · exact fun s hs => nomatch hs
    · exact hemit _ _ _ _ _
  | join id l r cs c s ihl ihr =>
    intro s hs
    rw [lowerNode] at hs
    rcases List.mem_append.1 hs with hs | hs
    · rcases List.mem_append.1 hs with hs | hs
      · exact ihl s hs
      · exact ihr s hs
    · exact hemit _ _ _ _ _ s hs

end Lowering

end TensorNet
