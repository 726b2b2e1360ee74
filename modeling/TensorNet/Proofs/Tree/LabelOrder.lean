import TensorNet.Proofs.Tree.Accepted
import TensorNet.Proofs.Tree.Connected
import TensorNet.Proofs.Tree.Failures

/-!
# Trees that follow an order of the labels

What a tree is that contracts labels in a given order (`ContractionTree.Follows`), and that the
trees of an accepted order and of the order by sign are such trees.

## What is left at the end

The nodes that are left are the components, each of them once. They are listed by the factors, so
of two of them the one with the lower lowest factor comes first, and they are joined from left to
right. A label is summed at such a join only if its places are in different components. So when
all contracted labels were in the order nothing is summed there.
-/

namespace TensorNet

/-! ### Joining from left to right -/

/-- **Nodes joined from left to right**, and the joins that do it: each further node is put to the
right of what was joined so far. -/
inductive LeftDeep : List TreeNode → List TreeNode → TreeNode → Prop
  | one (x : TreeNode) : LeftDeep [x] [] x
  | next {xs joins : List TreeNode} {t y v : TreeNode} {i : Nat} {cs : List Label} {c : Cost}
      {s : LabelSet} (h : LeftDeep xs joins t) (hv : v = .join i t y cs c s) :
      LeftDeep (xs ++ [y]) (joins ++ [v]) v

theorem LeftDeep.joinAll {net : Network} {acc last : TreeNode × Assembly}
    {xs joins rest : List TreeNode} (h : LeftDeep xs joins acc.1)
    (hj : Assembly.joinAll net acc rest = .ok last) :
    ∃ joins', LeftDeep (xs ++ rest) joins' last.1 := by
  induction rest generalizing acc xs joins with
  | nil =>
    cases hj
    exact ⟨joins, by simpa using h⟩
  | cons y ys ih =>
    unfold Assembly.joinAll at hj
    rw [List.foldlM_cons] at hj
    obtain ⟨⟨v, s⟩, hv, hj⟩ := bind_eq_ok.1 hj
    obtain ⟨c, total, -, -, hv, -⟩ := Assembly.join_eq_ok hv
    have hnext : LeftDeep (xs ++ [y]) (joins ++ [v]) v := h.next hv
    obtain ⟨joins', h'⟩ := ih hnext hj
    exact ⟨joins', by simpa using h'⟩

/-- The joins are nodes below the last one, and each has one of the nodes on its right. -/
theorem LeftDeep.mem_joins {xs joins : List TreeNode} {t v : TreeNode} (h : LeftDeep xs joins t)
    (hv : v ∈ joins) :
    v ∈ t.postorder ∧ ∃ i l y cs c s, v = .join i l y cs c s ∧ y ∈ xs := by
  induction h with
  | one x => cases hv
  | @next xs joins t y w i cs c s _ hw ih =>
    rcases List.mem_append.1 hv with hv | hv
    · obtain ⟨hm, i', l, z, cs', c', s', rfl, hz⟩ := ih hv
      refine ⟨?_, i', l, z, cs', c', s', rfl, List.mem_append_left _ hz⟩
      rw [hw, TreeNode.postorder]
      exact List.mem_append_left _ (List.mem_append_left _ hm)
    · obtain rfl := List.mem_singleton.1 hv
      exact ⟨v.self_mem_postorder, i, t, y, cs, c, s, hw, by simp⟩

/-! ### What is left at the end -/

/-- The lowest factor of the first node is below all factors of the second. -/
def TreeNode.Before (s t : TreeNode) : Prop := ∃ f ∈ s.factors, ∀ g ∈ t.factors, f < g

namespace Components

variable {net : Network} {costs : List Cost} {c : Components} {ids : List Nat}

/-- **These are the components**, each of them once and in the order of their lowest factors. -/
structure Lists (net : Network) (c : Components) (xs : List TreeNode) : Prop where
  mem : ∀ x, x ∈ xs ↔ ∃ f < net.numFactors, c.componentOf f = x
  increasing : xs.Pairwise TreeNode.Before

theorem Sound.mem_held_iff (h : c.Sound net costs) {x : TreeNode} :
    x ∈ c.held ↔ ∃ f < net.numFactors, c.componentOf f = x := by
  constructor
  · intro hx
    obtain ⟨f, hf⟩ := List.mem_iff_getElem?.1 hx
    have hlt : f < net.numFactors := h.length ▸ (List.getElem?_eq_some_iff.1 hf).1
    exact ⟨f, hlt, Option.some.inj ((h.componentOf_mem hlt).2.symm.trans hf)⟩
  · rintro ⟨f, hf, rfl⟩
    exact (h.componentOf_mem hf).1

theorem Sound.lists (h : c.Sound net costs) : c.Lists net (distinct [] c.held) := by
  refine ⟨fun x => h.mem_distinct.trans h.mem_held_iff, ?_⟩
  refine (pairwise_distinct [] c.held).imp_of_mem fun {s t} _ ht hst => ?_
  obtain ⟨f, hf, hlt⟩ := hst
  exact ⟨f, h.own f s hf, fun g hg => hlt g t (h.shared t (h.mem_distinct.1 ht) g hg) rfl⟩

/-- A component has none or both of the places of a label that was contracted. -/
theorem Partitions.timesIn_ne_one (hnet : net.Lawful) (h : c.Partitions net ids)
    (hs : c.Sound net costs) {id : Nat} (hid : id ∈ net.contractedIds) (hmem : id ∈ ids)
    {x : TreeNode} (hx : x ∈ c.held) : net.timesIn x.factors (net.label id) ≠ 1 := by
  obtain ⟨p, q, hpq, hp, hq, hcarry⟩ := hnet.exists_places hid
  have hlink : net.Linked ids p.factor q.factor :=
    ⟨id, hmem, (hcarry _).2 (.inl rfl), (hcarry _).2 (.inr rfl)⟩
  have hsame : c.componentOf p.factor = c.componentOf q.factor :=
    (h.eq_iff hs hp hq).2 (.rel _ _ hlink)
  have hiff : p.factor ∈ x.factors ↔ q.factor ∈ x.factors := by
    rw [← hs.componentOf_eq_iff hp hx, ← hs.componentOf_eq_iff hq hx, hsame]
  rw [Network.timesIn, ← hnet.occurrencesOf_eq (Network.lt_of_mem_contractedIds hid), hpq]
  by_cases hin : p.factor ∈ x.factors
  · simp [hin, hiff.1 hin]
  · simp [hin, mt hiff.2 hin]

end Components

/-! ### The tree of an order -/

namespace ContractionTree

variable {net : Network} {model : CostModel} {ids : List Nat} {t : ContractionTree}

/-- **A tree follows the labels** with these numbers. -/
structure Follows (net : Network) (model : CostModel) (ids : List Nat) (t : ContractionTree) :
    Prop where
  /-- After any part of the order the components are the connected components. -/
  parts : ∀ pre, pre <+: ids →
    ∃ c, Components.after net model pre = .ok c ∧ c.Partitions net pre
  /-- Each label joins the components of its two places, or does nothing. -/
  steps : ∀ pre id, pre ++ [id] <+: ids → ∃ c c', Components.after net model pre = .ok c ∧
    Components.after net model (pre ++ [id]) = .ok c' ∧ Components.Contracts net id c c'
  /-- What is left is joined from left to right. Nothing is summed then if all labels had their
  turn. -/
  rest : ∃ c xs joins, Components.after net model ids = .ok c ∧ c.Lists net xs ∧
    LeftDeep xs joins t.root ∧
    ((∀ id ∈ net.contractedIds, id ∈ ids) → ∀ v ∈ joins, v.contracted = [])

theorem follows_of_ordered (hnet : net.Lawful) (hids : ∀ id ∈ ids, id ∈ net.contractedIds)
    (h : ordered net model ids = .ok t) : t.Follows net model ids := by
  have hp := proper_ordered hnet h
  obtain ⟨c, hc, h⟩ : ∃ c, Components.after net model ids = .ok c ∧ c.joinRest net = .ok t :=
    bind_eq_ok.1 h
  obtain ⟨hs, hparts⟩ := Components.after_spec hnet hids hc
  have hpre : ∀ pre, pre <+: ids → ∃ d, Components.after net model pre = .ok d ∧
      d.Sound net (model.resolve net) ∧ d.Partitions net pre := by
    intro pre hpre
    obtain ⟨d, hd⟩ := Components.after_of_prefix hc hpre
    exact ⟨d, hd, Components.after_spec hnet (fun id hid => hids id (hpre.subset hid)) hd⟩
  refine ⟨fun pre hle => ?_, fun pre id hle => ?_, ?_⟩
  · obtain ⟨d, hd, -, hdp⟩ := hpre pre hle
    exact ⟨d, hd, hdp⟩
  · obtain ⟨d, hd, hds, -⟩ := hpre pre ((List.prefix_append pre [id]).trans hle)
    obtain ⟨d', hd', -, -⟩ := hpre (pre ++ [id]) hle
    have hstep := hd'
    rw [Components.after_concat, hd, ok_bind] at hstep
    exact ⟨d, d', hd, hd', hds.contracts hnet (hids id (hle.subset (by simp))) hstep⟩
  · obtain ⟨x, xs, last, he, hl, rfl⟩ := hs.joinRest_eq_ok hnet h
    obtain ⟨joins, hdeep⟩ := @LeftDeep.joinAll net (x, c.state) last [x] [] xs (.one x) hl
    refine ⟨c, x :: xs, joins, hc, he ▸ hs.lists, hdeep, fun hall v hv => ?_⟩
    obtain ⟨hm, i, l, y, cs, k, s, rfl, hy⟩ := hdeep.mem_joins hv
    have hb := hp.built.of_mem_postorder hm
    have hn := (hp.factors.nodup_iff.2 List.nodup_range).sublist (TreeNode.factors_sublist hm)
    refine List.eq_nil_iff_forall_not_mem.2 fun lab hlab => ?_
    obtain ⟨id, hid, rfl⟩ := List.mem_map.1
      (hnet.mem_contracted.2 (hb.length_placesOf_contracted hnet hn hlab).1)
    have hyh : y ∈ c.held := hs.mem_distinct.1 (he ▸ hy)
    exact hparts.timesIn_ne_one hnet hs hid (hall id hid) hyh
      (hb.timesIn_of_contracted hnet hn hlab).2

/-- A tree is made that follows the labels with these numbers, unless two costs that cannot be
combined are met. -/
def FollowsUnlessCosts (net : Network) (model : CostModel) (ids : List Nat)
    (r : Except Error ContractionTree) : Prop :=
  (∃ t, r = .ok t ∧ t.Follows net model ids) ∨ ∃ x y, r = .error (.incomparableCost x y)

theorem FollowsUnlessCosts.follows (h : FollowsUnlessCosts net model ids (.ok t)) :
    t.Follows net model ids := by
  rcases h with ⟨u, hu, hfollows⟩ | ⟨x, y, he⟩
  · cases hu
    exact hfollows
  · cases he

theorem followsUnlessCosts_ordered (hnet : net.Lawful) (hids : ∀ id ∈ ids, id ∈ net.contractedIds)
    (model : CostModel) : FollowsUnlessCosts net model ids (ordered net model ids) := by
  rcases (failsByCost_ordered model ids).ok_or_incomparable with ⟨t, ht⟩ | hfail
  · exact .inl ⟨t, ht, follows_of_ordered hnet hids ht⟩
  · exact .inr hfail

/-- **Trees follow the order of the labels.** An order is refused, and then it is not a permutation
of the contracted labels, or its tree follows it. The tree of the order by sign follows that. -/
theorem follows_order {factors : List Factor} {output : Option (List Label)}
    (h : Network.build factors output = .ok net) (model : CostModel) :
    (∀ order, (¬ order.Perm net.contracted ∧
        ∃ fault, explicit net order model = .error (.invalidOrder fault)) ∨
      ∃ ids, ids.map net.label = order ∧ ids.Perm net.contractedIds ∧
        FollowsUnlessCosts net model ids (explicit net order model)) ∧
    ∃ ids, BySign net ids ∧ FollowsUnlessCosts net model ids (bySign net model) := by
  have hnet := (Network.lawful_of_build h).1
  constructor
  · intro order
    refine (explicit_cases hnet order model).imp_right ?_
    rintro ⟨ids, hlabels, hperm, he⟩
    refine ⟨ids, hlabels, hperm, ?_⟩
    rw [he]
    exact followsUnlessCosts_ordered hnet (fun id => hperm.mem_iff.1) model
  · obtain ⟨ids, hids, he⟩ := bySign_eq hnet model
    refine ⟨ids, hids, ?_⟩
    rw [he]
    exact followsUnlessCosts_ordered hnet (fun id hid => ((hids.mem id).1 hid).1) model

/-- The second product first: what is left are both products, in the order of their factors. -/
theorem follows_order_pairs :
    (∃ t, explicit .pairs [.int 2, .int 1] .standard = .ok t ∧ t.text = "((0,2),(1,3))" ∧
      ∃ ids, ids.map Network.pairs.label = [.int 2, .int 1] ∧ t.Follows .pairs .standard ids) ∧
    ∃ t, bySign .pairs .standard = .ok t ∧
      ∃ ids, BySign .pairs ids ∧ t.Follows .pairs .standard ids := by
  obtain ⟨t, ht, htext⟩ : ∃ t, explicit .pairs [.int 2, .int 1] .standard = .ok t ∧
      t.text = "((0,2),(1,3))" := ⟨_, by cbv, by cbv⟩
  obtain ⟨u, hu⟩ : ∃ u, bySign .pairs .standard = .ok u := ⟨_, by cbv⟩
  obtain ⟨horder, ids, hids, hsign⟩ := follows_order Network.build_pairs .standard
  refine ⟨⟨t, ht, htext, ?_⟩, u, hu, ids, hids, (hu ▸ hsign).follows⟩
  rcases horder [.int 2, .int 1] with ⟨-, fault, hrefused⟩ | ⟨js, hjs, -, hout⟩
  · rw [ht] at hrefused
    cases hrefused
  · exact ⟨js, hjs, (ht ▸ hout).follows⟩

end ContractionTree

end TensorNet
