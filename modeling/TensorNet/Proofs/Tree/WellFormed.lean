import Mathlib
import TensorNet.Proofs.Tree.Runs
import TensorNet.Proofs.Tree.Value

/-!
# Well-formed contraction trees

What a contraction tree of a network is, said of the list of its nodes, and that every strategy
makes such a tree.

## 1. The nodes below a node

Lists that are read off all nodes below a node follow its structure: the factors are those of the
leaves, and every node but the one on top is right below one other node.

## 2. What is summed where

The labels that the nodes sum and those that the factors sum within themselves are all labels that
occur twice, each of them once. A node sums a label that is open on both of its sides. So both
places of the label are below the node, but not below one of its sides.

## 3. The tree as a whole

The strategies give their nodes the numbers from zero on, so the list of nodes is the list of all
that was made, in this order.
-/

namespace TensorNet

/-- All places of a label are below the node. -/
def Network.Covers (net : Network) (id : Nat) (t : TreeNode) : Prop :=
  ∀ o ∈ net.occurrencesOf id, o.factor ∈ t.factors

/-- The product of the costs of the labels that are open in one of two nodes or in both. -/
def CostModel.priceOf (model : CostModel) (net : Network) (l r : TreeNode) : Except Error Cost :=
  Cost.product (((List.range net.numLabels).filter fun id =>
    l.openSet.contains id || r.openSet.contains id).map fun id => model.costOf (net.label id))

/-- **A well-formed contraction tree of a network.** -/
structure ContractionTree.WellFormed (net : Network) (model : CostModel) (t : ContractionTree) :
    Prop where
  /-- There is one leaf for each factor. -/
  leaves : (t.nodes.filterMap TreeNode.factor?).Perm (List.range net.numFactors)
  joins : (t.nodes.filterMap TreeNode.cost?).length = net.numFactors - 1
  /-- The number of a node is its position. -/
  ids : t.nodes.map TreeNode.id = List.range (2 * net.numFactors - 1)
  root : t.nodes.getLast? = some t.root
  below : ∀ v ∈ t.nodes, ∀ c ∈ v.children, c.id < v.id
  /-- Every node except the last one is right below one node. -/
  parents : (t.nodes.flatMap TreeNode.children).Perm t.nodes.dropLast
  /-- The open labels of a node are those with one place in the factors below it. -/
  opens : ∀ v ∈ t.nodes, ∀ id, v.openSet.contains id = true ↔
    ((net.occurrencesOf id).countP fun o => decide (o.factor ∈ v.factors)) = 1
  /-- The contracted labels that are not traced are summed, each of them at one node. -/
  summed : (t.nodes.flatMap TreeNode.contracted).Perm
    ((net.contractedIds.filter fun id => !net.isTraced id).map net.label)
  /-- A label is summed at the lowest node that covers its places. -/
  lowest : ∀ v ∈ t.nodes, ∀ id < net.numLabels, net.label id ∈ v.contracted →
    net.Covers id v ∧ (∀ c ∈ v.children, ¬ net.Covers id c) ∧
      ∀ w ∈ t.nodes, net.Covers id w → v ∈ w.postorder
  output : (t.root.openSet.toList.map net.label).Perm net.output
  total : (t.nodes.filterMap TreeNode.cost?).foldlM Cost.add 0 = .ok t.cost
  price : ∀ i l r cs c s, .join i l r cs c s ∈ t.nodes → model.priceOf net l r = .ok c

/-! ### The nodes below a node -/

namespace TreeNode

variable {net : Network} {costs : List Cost} {t v w : TreeNode}

theorem filterMap_factor? (t : TreeNode) : t.postorder.filterMap factor? = t.factors := by
  induction t with
  | leaf => rfl
  | join i l r cs c s ihl ihr =>
    rw [postorder, List.filterMap_append, List.filterMap_append, ihl, ihr]
    exact List.append_nil _

theorem length_filterMap_cost? (t : TreeNode) :
    (t.postorder.filterMap cost?).length = t.numJoins := by
  induction t with
  | leaf => rfl
  | join i l r cs c s ihl ihr =>
    rw [postorder, List.filterMap_append, List.filterMap_append, List.length_append,
      List.length_append, ihl, ihr]
    rfl

/-- **Every node but the one on top is right below one node.** -/
theorem perm_children (t : TreeNode) :
    (t.postorder.flatMap children ++ [t]).Perm t.postorder := by
  induction t with
  | leaf => exact List.Perm.refl _
  | join i l r cs c s ihl ihr =>
    have hsides := List.Perm.append ihl ihr
    rw [postorder, List.flatMap_append, List.flatMap_append]
    refine List.Perm.append_right _ (List.Perm.trans ?_ hsides)
    show (l.postorder.flatMap children ++ r.postorder.flatMap children ++ ([l] ++ [r])).Perm _
    rw [List.append_assoc, List.append_assoc]
    exact (List.perm_append_comm_assoc _ [l] [r]).append_left _

theorem Built.of_mem_postorder (h : t.Built net costs) (hv : v ∈ t.postorder) :
    v.Built net costs := by
  induction h with
  | leaf hf => exact List.mem_singleton.1 hv ▸ .leaf hf
  | join hl hr hc ihl ihr =>
    rcases List.mem_append.1 hv with hv | hv
    · exact (List.mem_append.1 hv).elim ihl ihr
    · exact List.mem_singleton.1 hv ▸ .join hl hr hc

theorem factors_sublist (hv : v ∈ t.postorder) : v.factors.Sublist t.factors := by
  induction t with
  | leaf => exact List.mem_singleton.1 hv ▸ List.Sublist.refl _
  | join i l r cs c s ihl ihr =>
    rcases List.mem_append.1 hv with hv | hv
    · rcases List.mem_append.1 hv with hv | hv
      · exact (ihl hv).trans (List.sublist_append_left ..)
      · exact (ihr hv).trans (List.sublist_append_right ..)
    · exact List.mem_singleton.1 hv ▸ List.Sublist.refl _

/-- **Two nodes over one factor** are one above the other. -/
theorem mem_postorder_or (hn : t.factors.Nodup) (hv : v ∈ t.postorder) (hw : w ∈ t.postorder)
    {f : Nat} (hfv : f ∈ v.factors) (hfw : f ∈ w.factors) :
    v ∈ w.postorder ∨ w ∈ v.postorder := by
  induction t with
  | leaf =>
    obtain rfl := List.mem_singleton.1 hv
    obtain rfl := List.mem_singleton.1 hw
    exact .inl (List.mem_singleton_self _)
  | join i l r cs c s ihl ihr =>
    obtain ⟨hln, hrn, -⟩ := List.nodup_append.1 hn
    have hd := disjoint_of_nodup hn
    rw [postorder, List.append_assoc, List.mem_append, List.mem_append, List.mem_singleton] at hv hw
    rcases hw with hw | hw | rfl
    · rcases hv with hv | hv | rfl
      · exact ihl hln hv hw
      · exact absurd ((factors_sublist hv).subset hfv) (hd f ((factors_sublist hw).subset hfw))
      · exact .inr (List.mem_append_left _ (List.mem_append_left _ hw))
    · rcases hv with hv | hv | rfl
      · exact absurd ((factors_sublist hw).subset hfw) (hd f ((factors_sublist hv).subset hfv))
      · exact ihr hrn hv hw
      · exact .inr (List.mem_append_left _ (List.mem_append_right _ hw))
    · left
      rw [postorder, List.append_assoc, List.mem_append, List.mem_append, List.mem_singleton]
      exact hv

/-! ### What is summed where -/

/-- **All sums are those of the nodes and those within the factors.** -/
theorem perm_summed (net : Network) (t : TreeNode) : (t.summed net).Perm
    (t.postorder.flatMap contracted ++
      t.factors.flatMap fun i => tracedLabels (net.factor i).labels) := by
  induction t with
  | leaf i f s => exact (List.append_nil _).symm ▸ List.Perm.refl _
  | join i l r cs c s ihl ihr =>
    refine List.perm_iff_count.2 fun a => ?_
    have hl := ihl.count_eq a
    have hr := ihr.count_eq a
    simp only [summed, postorder, factors, contracted, List.flatMap_append, List.flatMap_cons,
      List.flatMap_nil, List.append_nil, List.count_append] at hl hr ⊢
    omega

/-- A join sums labels that have one place on each side. -/
theorem Built.timesIn_of_contracted (hnet : net.Lawful) {i : Nat} {l r : TreeNode}
    {cs : List Label} {c : Cost} {s : LabelSet} (h : (TreeNode.join i l r cs c s).Built net costs)
    (hn : (l.factors ++ r.factors).Nodup) {lab : Label} (hlab : lab ∈ cs) :
    net.timesIn l.factors lab = 1 ∧ net.timesIn r.factors lab = 1 := by
  obtain ⟨hln, hrn, -⟩ := List.nodup_append.1 hn
  cases h with
  | join hl hr hc => exact (mem_common hnet hl hr hln hrn lab).1 hlab

theorem covers_iff (hnet : net.Lawful) {id : Nat} (hid : id < net.numLabels) (t : TreeNode) :
    net.Covers id t ↔
      net.timesIn t.factors (net.label id) = (net.placesOf (net.label id)).length := by
  rw [Network.Covers, hnet.occurrencesOf_eq hid, Network.timesIn, List.countP_eq_length]
  simp only [decide_eq_true_eq]

/-- Both places of a label that is summed are below the join. -/
theorem Built.length_placesOf_contracted (hnet : net.Lawful) {i : Nat} {l r : TreeNode}
    {cs : List Label} {c : Cost} {s : LabelSet} (h : (TreeNode.join i l r cs c s).Built net costs)
    (hn : (l.factors ++ r.factors).Nodup) {lab : Label} (hlab : lab ∈ cs) :
    (net.placesOf lab).length = 2 ∧ net.timesIn (l.factors ++ r.factors) lab = 2 := by
  obtain ⟨hl1, hr1⟩ := h.timesIn_of_contracted hnet hn hlab
  have htimes : net.timesIn (l.factors ++ r.factors) lab =
      net.timesIn l.factors lab + net.timesIn r.factors lab :=
    Network.timesIn_append (disjoint_of_nodup hn) _
  have hle := hnet.atMostTwo lab
  have hpart := List.countP_le_length (l := net.placesOf lab)
    (p := fun o => decide (o.factor ∈ l.factors ++ r.factors))
  rw [← Network.timesIn] at hpart
  omega

/-- **A label is summed at the lowest node that covers its places.** -/
theorem Built.lowest (hnet : net.Lawful) (ht : t.Built net costs) (hn : t.factors.Nodup)
    (hv : v ∈ t.postorder) {id : Nat} (hid : id < net.numLabels)
    (hlab : net.label id ∈ v.contracted) :
    net.Covers id v ∧ (∀ c ∈ v.children, ¬ net.Covers id c) ∧
      ∀ w ∈ t.postorder, net.Covers id w → v ∈ w.postorder := by
  have hb := ht.of_mem_postorder hv
  have hvn := hn.sublist (factors_sublist hv)
  cases v with
  | leaf => cases hlab
  | join i l r cs c s =>
    obtain ⟨hl1, hr1⟩ := hb.timesIn_of_contracted hnet hvn hlab
    obtain ⟨hplaces, htimes⟩ := hb.length_placesOf_contracted hnet hvn hlab
    have hcover : net.Covers id (TreeNode.join i l r cs c s) := by
      rw [covers_iff hnet hid, factors]
      omega
    have hside : ∀ u ∈ [l, r], ¬ net.Covers id u := by
      intro u hu
      rw [covers_iff hnet hid]
      rcases List.mem_cons.1 hu with rfl | hu
      · omega
      · obtain rfl := List.mem_singleton.1 hu
        omega
    refine ⟨hcover, hside, fun w hw hcw => ?_⟩
    obtain ⟨o, ho⟩ := List.exists_mem_of_length_pos
      (l := net.occurrencesOf id) (by rw [hnet.occurrencesOf_eq hid]; omega)
    have hbelow : ∀ u ∈ [l, r], w ∉ u.postorder := fun u hu hm =>
      hside u hu fun o ho => (factors_sublist hm).subset (hcw o ho)
    rcases mem_postorder_or hn hv hw (hcover o ho) (hcw o ho) with hm | hm
    · exact hm
    · rw [postorder, List.append_assoc, List.mem_append, List.mem_append, List.mem_singleton] at hm
      rcases hm with hm | hm | rfl
      · exact absurd hm (hbelow l (by simp))
      · exact absurd hm (hbelow r (by simp))
      · exact self_mem_postorder _

end TreeNode

namespace ContractionTree.Proper

variable {net : Network} {costs : List Cost} {t : ContractionTree}

/-- The labels that the factors sum within themselves are the traced ones. -/
theorem mem_traced (h : t.Proper net costs) (hnet : net.Lawful) {id : Nat}
    (hid : id < net.numLabels) :
    net.label id ∈ (t.root.factors.flatMap fun i => tracedLabels (net.factor i).labels) ↔
      net.isTraced id = true := by
  rw [List.mem_flatMap]
  constructor
  · rintro ⟨i, hi, hm⟩
    have hlab := List.count_pos_iff.1 (by
      rw [(mem_tracedLabels (hnet.count_le_two i)).1 hm]
      exact Nat.two_pos)
    exact (hnet.mem_tracedLabels (h.built.factors_lt i hi) hid hlab).1 hm
  · intro ht
    have hocc : ∃ o, o ∈ net.occurrencesOf id := by
      cases hos : net.occurrencesOf id with
      | nil => rw [Network.isTraced, hos] at ht; cases ht
      | cons o os => exact ⟨o, List.mem_cons_self⟩
    obtain ⟨⟨i, k⟩, ho⟩ := hocc
    rw [hnet.occurrencesOf_eq hid, Network.mem_placesOf_iff] at ho
    refine ⟨i, h.factors.mem_iff.2 (List.mem_range.2 ho.1), ?_⟩
    exact (hnet.mem_tracedLabels ho.1 hid (List.mem_of_getElem? ho.2)).2 ht

theorem mem_untraced (hnet : net.Lawful) {lab : Label} :
    lab ∈ (net.contractedIds.filter fun id => !net.isTraced id).map net.label ↔
      ∃ id < net.numLabels, net.label id = lab ∧ (net.placesOf lab).length = 2 ∧
        net.isTraced id = false := by
  simp only [List.mem_map, List.mem_filter, Network.contractedIds, List.mem_range,
    Network.isContracted, beq_iff_eq, Bool.not_eq_true']
  constructor
  · rintro ⟨id, ⟨⟨hid, h2⟩, ht⟩, rfl⟩
    exact ⟨id, hid, rfl, hnet.occurrencesOf_eq hid ▸ h2, ht⟩
  · rintro ⟨id, hid, rfl, h2, ht⟩
    exact ⟨id, ⟨⟨hid, (hnet.occurrencesOf_eq hid).symm ▸ h2⟩, ht⟩, rfl⟩

/-- **The nodes sum the contracted labels that are not traced**, each of them once. -/
theorem perm_contracted (h : t.Proper net costs) (hnet : net.Lawful) :
    (t.root.postorder.flatMap TreeNode.contracted).Perm
      ((net.contractedIds.filter fun id => !net.isTraced id).map net.label) := by
  have hn := h.factors.nodup_iff.2 List.nodup_range
  obtain ⟨hsn, hsm⟩ := TreeNode.summed_spec hnet h.built hn
  have hperm := TreeNode.perm_summed net t.root
  obtain ⟨hcn, -, hd⟩ := List.nodup_append.1 (hperm.nodup_iff.1 hsn)
  have hall : ∀ i < net.numFactors, i ∈ t.root.factors := fun i hi =>
    h.factors.mem_iff.2 (List.mem_range.2 hi)
  refine (List.perm_ext_iff_of_nodup hcn ?_).2 fun lab => ?_
  · refine List.Nodup.map_on (fun i hi j hj he => ?_) (net.nodup_contractedIds.filter _)
    have hlt : ∀ k ∈ net.contractedIds.filter fun id => !net.isTraced id, k < net.numLabels :=
      fun k hk => Network.lt_of_mem_contractedIds (List.mem_filter.1 hk).1
    exact hnet.label_inj (hlt i hi) (hlt j hj) he
  · have htwice : lab ∈ t.root.summed net ↔ (net.placesOf lab).length = 2 := by
      rw [hsm, Network.timesIn_all hall]
    rw [hperm.mem_iff, List.mem_append] at htwice
    rw [mem_untraced hnet]
    constructor
    · intro hc
      have h2 := htwice.1 (.inl hc)
      obtain ⟨o, ho⟩ := List.exists_mem_of_length_pos (l := net.placesOf lab) (by omega)
      obtain ⟨id, hid, rfl⟩ := hnet.mem_labels_of_place ho
      refine ⟨id, hid, rfl, h2, Bool.eq_false_iff.2 fun ht => ?_⟩
      exact hd _ hc _ ((h.mem_traced hnet hid).2 ht) rfl
    · rintro ⟨id, hid, rfl, h2, ht⟩
      refine (htwice.2 h2).resolve_right fun hm => ?_
      exact Bool.eq_false_iff.1 ht ((h.mem_traced hnet hid).1 hm)

/-- The open labels of the root are those of the output. -/
theorem perm_output (h : t.Proper net costs) (hnet : net.Lawful) :
    (t.root.openSet.toList.map net.label).Perm net.output := by
  have hn := h.factors.nodup_iff.2 List.nodup_range
  have hopen : ∀ id, id ∈ t.root.openSet.toList ↔
      id < net.numLabels ∧ (net.placesOf (net.label id)).length = 1 := fun id => by
    rw [LabelSet.mem_toList, h.built.contains_openSet hnet hn, Network.contains_openIn,
      Network.timesIn_all fun i hi => h.factors.mem_iff.2 (List.mem_range.2 hi)]
  refine (List.perm_ext_iff_of_nodup ?_ hnet.nodup_output).2 fun lab => ?_
  · refine List.Nodup.map_on (fun i hi j hj he => ?_) (LabelSet.nodup_toList _)
    exact hnet.label_inj ((hopen i).1 hi).1 ((hopen j).1 hj).1 he
  · rw [hnet.mem_output, List.mem_map]
    constructor
    · rintro ⟨id, hid, rfl⟩
      exact ((hopen id).1 hid).2
    · intro h1
      obtain ⟨o, ho⟩ := List.exists_mem_of_length_pos (l := net.placesOf lab) (by omega)
      obtain ⟨id, hid, rfl⟩ := hnet.mem_labels_of_place ho
      exact ⟨id, (hopen id).2 ⟨hid, h1⟩, rfl⟩

end ContractionTree.Proper

namespace TreeNode

variable {net : Network} {costs : List Cost} {t v : TreeNode}

/-- The open labels of a node are those with one place in the factors below it. -/
theorem Built.openSet_iff (hnet : net.Lawful) (h : v.Built net costs) (hn : v.factors.Nodup)
    (id : Nat) : v.openSet.contains id = true ↔
      ((net.occurrencesOf id).countP fun o => decide (o.factor ∈ v.factors)) = 1 := by
  rw [h.contains_openSet hnet hn, Network.contains_openIn]
  by_cases hid : id < net.numLabels
  · rw [hnet.occurrencesOf_eq hid, and_iff_right hid, Network.timesIn]
  · have hnone : net.occurrences[id]? = none :=
      List.getElem?_eq_none (hnet.length_occurrences ▸ Nat.le_of_not_lt hid)
    rw [Network.occurrencesOf, List.getD_eq_getElem?_getD, hnone]
    simp [hid]

/-- The members of two sets together, in increasing order. -/
theorem toList_union_eq {a b : LabelSet} {n : Nat} (ha : ∀ id, a.contains id = true → id < n)
    (hb : ∀ id, b.contains id = true → id < n) :
    (a.union b).toList = (List.range n).filter fun id => a.contains id || b.contains id := by
  refine List.Perm.eq_of_pairwise ?_ (LabelSet.pairwise_toList _)
    (List.pairwise_lt_range.filter _) ?_
  · exact fun i j _ _ h1 h2 => absurd h1 (Nat.lt_asymm h2)
  refine (List.perm_ext_iff_of_nodup (LabelSet.nodup_toList _) (List.nodup_range.filter _)).2
    fun id => ?_
  rw [LabelSet.mem_toList, LabelSet.contains_union, List.mem_filter, List.mem_range,
    Bool.or_eq_true]
  exact (and_iff_right_of_imp fun h => h.elim (ha id) (hb id)).symm

/-- The cost of a join is the product of the costs of the labels open on its sides. -/
theorem Built.priceOf_eq (hnet : net.Lawful) {model : CostModel} {i : Nat} {l r : TreeNode}
    {cs : List Label} {c : Cost} {s : LabelSet}
    (h : (TreeNode.join i l r cs c s).Built net (model.resolve net))
    (hn : (l.factors ++ r.factors).Nodup) : model.priceOf net l r = .ok c := by
  obtain ⟨hln, hrn, -⟩ := List.nodup_append.1 hn
  cases h with
  | join hl hr hc =>
    have hlt : ∀ {v : TreeNode}, v.Built net (model.resolve net) → v.factors.Nodup →
        ∀ id, v.openSet.contains id = true → id < net.numLabels := by
      intro v hv hvn id hid
      rw [hv.contains_openSet hnet hvn, Network.contains_openIn] at hid
      exact hid.1
    rw [← hc, joinCost, toList_union_eq (hlt hl hln) (hlt hr hrn), CostModel.priceOf]
    refine congrArg Cost.product (List.map_congr_left fun id hid => ?_)
    have hid := List.mem_range.1 (List.mem_filter.1 hid).1
    rw [CostModel.resolve, List.getD_eq_getElem?_getD, List.getElem?_map,
      Network.getElem?_labels hid]
    rfl

end TreeNode

/-! ### The tree as a whole -/

namespace ContractionTree

variable {net : Network} {model : CostModel} {t : ContractionTree}

/-- The nodes of a tree are those that its run has made, in this order. -/
theorem nodes_eq_made {costs : List Cost} {s : Assembly} {made : List TreeNode}
    (h : Assembly.Holds net costs s made [t.root]) : t.nodes = made := by
  have hperm : made.Perm t.root.postorder := by simpa using h.nodes
  have hmade : made.Pairwise fun a b => a.id ≤ b.id :=
    List.pairwise_map.1 (h.ids ▸ List.pairwise_lt_range.imp Nat.le_of_lt)
  have hnodes : t.nodes.Perm made := (List.mergeSort_perm _ _).trans hperm.symm
  refine List.Perm.eq_of_pairwise (fun a b ha hb h1 h2 => ?_) ?_ hmade hnodes
  · exact List.inj_on_of_nodup_map (h.ids ▸ List.nodup_range) (hnodes.mem_iff.1 ha) hb
      (Nat.le_antisymm h1 h2)
  · refine (List.pairwise_mergeSort (fun a b c h1 h2 => ?_) (fun a b => ?_) _).imp of_decide_eq_true
    · exact decide_eq_true (Nat.le_trans (of_decide_eq_true h1) (of_decide_eq_true h2))
    · simpa using Nat.le_total a.id b.id

/-- **The tree that a run ends with is well-formed.** -/
theorem Grown.wellFormed (h : t.Grown net (model.resolve net))
    (hp : t.Proper net (model.resolve net)) (hnet : net.Lawful) : t.WellFormed net model := by
  obtain ⟨made, s, hrun, hcost⟩ := h
  have hholds := hrun.holds
  have hn := hp.factors.nodup_iff.2 List.nodup_range
  have hnodes := nodes_eq_made hholds
  have hperm : t.nodes.Perm t.root.postorder := List.mergeSort_perm _ _
  have hlast : t.nodes.getLast? = some t.root := hnodes ▸ hrun.getLast?_made
  have hleaves : t.root.numLeaves = net.numFactors := by
    rw [← TreeNode.length_factors, hp.factors.length_eq, List.length_range]
  have hjoins := t.root.numLeaves_eq
  have hbuilt : ∀ v ∈ t.nodes, v.Built net (model.resolve net) ∧ v.factors.Nodup := fun v hv =>
    have hv := hperm.mem_iff.1 hv
    ⟨hp.built.of_mem_postorder hv, hn.sublist (TreeNode.factors_sublist hv)⟩
  exact {
    leaves := by
      have hfactors := hperm.filterMap TreeNode.factor?
      rw [TreeNode.filterMap_factor?] at hfactors
      exact hfactors.trans hp.factors
    joins := by
      rw [(hperm.filterMap TreeNode.cost?).length_eq, TreeNode.length_filterMap_cost?]
      omega
    ids := by
      have hlen := congrArg List.length hholds.ids
      rw [List.length_map, List.length_range, ← hnodes, hperm.length_eq,
        TreeNode.length_postorder] at hlen
      rw [hnodes, hholds.ids]
      exact congrArg List.range (by omega)
    root := hlast
    below := hnodes ▸ hholds.below
    parents := by
      have hall := ((hperm.flatMap_right _).append_right _).trans
        (t.root.perm_children.trans hperm.symm)
      have hsplit := List.dropLast_append_getLast? t.root hlast
      exact (List.perm_append_right_iff [t.root]).1 (hall.trans (List.Perm.of_eq hsplit.symm))
    opens := fun v hv => (hbuilt v hv).1.openSet_iff hnet (hbuilt v hv).2
    summed := (hperm.flatMap_right _).trans (hp.perm_contracted hnet)
    lowest := fun v hv id hid hlab => by
      obtain ⟨h1, h2, h3⟩ := hp.built.lowest hnet hn (hperm.mem_iff.1 hv) hid hlab
      exact ⟨h1, h2, fun w hw => h3 w (hperm.mem_iff.1 hw)⟩
    output := hp.perm_output hnet
    total := by rw [hnodes, hcost, hholds.total]
    price := fun i l r cs c s hv => (hbuilt _ hv).1.priceOf_eq hnet (hbuilt _ hv).2 }

/-- **Every strategy makes a well-formed tree.** -/
theorem wellFormed_of_chosen {factors : List Factor} {output : Option (List Label)}
    (hnet : Network.build factors output = .ok net) (h : t.Chosen net model) :
    t.WellFormed net model :=
  have hlaw := (Network.lawful_of_build hnet).1
  (h.grown hlaw).wellFormed (h.proper hlaw) hlaw

/-- The last two of three matrices first, and a network with a traced label. -/
theorem wellFormed_of_chosen_looped :
    (∃ t : ContractionTree, explicit .chain [.int 2, .int 1] .standard = .ok t ∧
      t.WellFormed .chain .standard) ∧
    ∃ t : ContractionTree, bySign .looped .standard = .ok t ∧ t.WellFormed .looped .standard := by
  obtain ⟨t, ht⟩ : ∃ t, explicit .chain [.int 2, .int 1] .standard = .ok t := ⟨_, by cbv⟩
  obtain ⟨u, hu⟩ : ∃ u, bySign .looped .standard = .ok u := ⟨_, by cbv⟩
  exact ⟨⟨t, ht, wellFormed_of_chosen Network.build_chain (.explicit ht)⟩,
    u, hu, wellFormed_of_chosen Network.build_looped (.bySign hu)⟩

end ContractionTree

end TensorNet
