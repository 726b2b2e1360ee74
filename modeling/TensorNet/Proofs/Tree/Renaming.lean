import TensorNet.Proofs.Network.Renaming
import TensorNet.Proofs.Tree.Ordered
import TensorNet.Proofs.Tree.Failures
import TensorNet.Tree.Optimal

/-!
# Trees under other names

A contraction tree knows labels by their numbers, and names them only in the lists of what its
joins sum. So the tree of the renamed network is the tree of the network with these lists renamed
(`TreeNode.rename`); the numbers of its nodes, its open sets and its costs are the same.

A node keeps the numbers of its open labels within those of the network (`TreeNode.Bounded`); this
is what it takes for the labels of a join to have their renamed copies at the same numbers. The
search for the cheapest tree never looks at a label, and its table is the same for both networks.
-/

namespace TensorNet

variable {f : Label → Label} {net net' : Network}

/-! ### Nodes -/

namespace TreeNode

/-- The node with the labels that are summed below it renamed. -/
def rename (f : Label → Label) : TreeNode → TreeNode
  | leaf id factor openSet => .leaf id factor openSet
  | join id l r contracted cost openSet =>
    .join id (l.rename f) (r.rename f) (contracted.map f) cost openSet

@[simp] theorem id_rename (t : TreeNode) : (t.rename f).id = t.id := by
  cases t with
  | leaf id i s => rfl
  | join id l r cs c s => rfl

@[simp] theorem openSet_rename (t : TreeNode) : (t.rename f).openSet = t.openSet := by
  cases t with
  | leaf id i s => rfl
  | join id l r cs c s => rfl

/-- The open labels of the node have numbers in the network. -/
def Bounded (net : Network) (t : TreeNode) : Prop :=
  ∀ id, t.openSet.contains id = true → id < net.numLabels

theorem bounded_default : (default : TreeNode).Bounded net := by
  intro id h
  have hempty : (default : TreeNode).openSet.contains id = false := LabelSet.contains_empty id
  rw [hempty] at h
  cases h

end TreeNode

/-- The tree with the labels that are summed at its joins renamed. -/
def ContractionTree.rename (f : Label → Label) (t : ContractionTree) : ContractionTree :=
  ⟨t.root.rename f, t.cost⟩

/-- Costs that cannot be combined are reported without naming a label. -/
theorem FailsByCost.unlabelled {α : Type} {x : Except Error α} (h : FailsByCost x) :
    FailsWith Error.Unlabelled x := by
  intro e he
  obtain ⟨a, b, rfl⟩ := h e he
  exact fun f => rfl

/-! ### Putting a tree together -/

namespace Assembly

/-- A node and its renamed copy, at the same state of the assembly. -/
structure Renamed (f : Label → Label) (net : Network) (x y : TreeNode × Assembly) : Prop where
  eq : y = (x.1.rename f, x.2)
  bounded : x.1.Bounded net

section

variable (hf : f.Injective) (h : Network.Renamed f net net')

include hf h in
theorem renamed_leaf (i : Nat) (s : Assembly) : Renamed f net (s.leaf net i) (s.leaf net' i) := by
  refine ⟨?_, fun id hid => Network.lt_of_contains_openSetOf hid⟩
  rw [leaf, h.openSetOf hf]
  rfl

include h

/-- **A join agrees under a renaming**: it sums the renamed labels, at the same cost. -/
theorem agree_join {l r : TreeNode} (hl : l.Bounded net) (hr : r.Bounded net) (s : Assembly) :
    Agree f (Renamed f net) (s.join net l r) (s.join net' (l.rename f) (r.rename f)) := by
  unfold join
  rw [TreeNode.openSet_rename, TreeNode.openSet_rename]
  refine (Agree.same (failsByCost_joinCost _ _ _).unlabelled).bind ?_
  rintro cost _ rfl
  refine (Agree.same (Cost.failsByCost_add _ _).unlabelled).bind ?_
  rintro total _ rfl
  have hlabels : (l.openSet.inter r.openSet).toList.map net'.label =
      ((l.openSet.inter r.openSet).toList.map net.label).map f := by
    rw [List.map_map]
    refine List.map_congr_left fun id hid => h.label (hl id ?_)
    rw [LabelSet.mem_toList, LabelSet.contains_inter, Bool.and_eq_true] at hid
    exact hid.1
  refine .ok ⟨?_, fun id hid => ?_⟩
  · rw [hlabels]
    rfl
  · have hid : (l.openSet.symmDiff r.openSet).contains id = true := hid
    rw [LabelSet.contains_symmDiff] at hid
    cases hc : l.openSet.contains id with
    | true => exact hl id hc
    | false =>
      rw [hc, Bool.false_xor] at hid
      exact hr id hid

theorem agree_joinAll {ts : List TreeNode} (hts : ∀ t ∈ ts, t.Bounded net)
    {x y : TreeNode × Assembly} (hxy : Renamed f net x y) :
    Agree f (Renamed f net) (joinAll net x ts) (joinAll net' y (ts.map (TreeNode.rename f))) := by
  unfold joinAll
  rw [List.foldlM_map]
  refine Agree.foldlM (fun a c t ht hac => ?_) hxy
  obtain ⟨rfl, ha⟩ := hac
  exact agree_join h ha (hts t ht) a.2

include hf in
theorem agree_joinLeaf {x y : TreeNode × Assembly} (hxy : Renamed f net x y) (i : Nat) :
    Agree f (Renamed f net) (joinLeaf net x i) (joinLeaf net' y i) := by
  obtain ⟨rfl, hx⟩ := hxy
  obtain ⟨hleaf, hb⟩ := renamed_leaf hf h i x.2
  unfold joinLeaf
  dsimp only
  rw [hleaf]
  exact agree_join h hx hb _

end

theorem finish_rename {x y : TreeNode × Assembly} (hxy : Renamed f net x y) :
    finish y = (finish x).rename f := by
  rw [hxy.eq]
  rfl

end Assembly

/-! ### Components -/

namespace Components

/-- Components and their renamed copies, at the same state of the assembly. -/
structure Renamed (f : Label → Label) (net : Network) (c c' : Components) : Prop where
  held : c'.held = c.held.map (TreeNode.rename f)
  state : c'.state = c.state
  bounded : ∀ t ∈ c.held, t.Bounded net

theorem Renamed.componentOf {c c' : Components} (h : Renamed f net c c') (i : Nat) :
    c'.componentOf i = (c.componentOf i).rename f ∧ (c.componentOf i).Bounded net := by
  constructor
  · rw [Components.componentOf, h.held]
    exact List.getD_map c.held default (TreeNode.rename f)
  · rw [Components.componentOf, List.getD_eq_getElem?_getD]
    cases ht : c.held[i]? with
    | none => exact TreeNode.bounded_default
    | some t => exact h.bounded t (List.mem_of_getElem? ht)

theorem merge_rename (a b joined t : TreeNode) :
    merge (a.rename f) (b.rename f) (joined.rename f) (t.rename f) =
      (merge a b joined t).rename f := by
  unfold merge
  simp only [TreeNode.id_rename]
  split
  · rfl
  · rfl

theorem distinct_rename (seen : List Nat) (ts : List TreeNode) :
    distinct seen (ts.map (TreeNode.rename f)) = (distinct seen ts).map (TreeNode.rename f) := by
  induction ts generalizing seen with
  | nil => rfl
  | cons t ts ih =>
    rw [List.map_cons, distinct, distinct, TreeNode.id_rename, ih, ih]
    split
    · rfl
    · rfl

section

variable (hf : f.Injective) (h : Network.Renamed f net net')

include hf h in
theorem renamed_leaves (is : List Nat) (s : Assembly) :
    Renamed f net (leaves net is s) (leaves net' is s) := by
  obtain ⟨hheld, hstate⟩ := leaves_eq net is s
  obtain ⟨hheld', hstate'⟩ := leaves_eq net' is s
  refine ⟨?_, hstate'.trans hstate.symm, fun t ht id hid => ?_⟩
  · rw [hheld, hheld', h.openSetOf hf]
    simp only [List.mapIdx_eq_zipIdx_map, List.map_map]
    rfl
  · rw [hheld] at ht
    obtain ⟨k, hk, rfl⟩ := List.mem_mapIdx.1 ht
    exact Network.lt_of_contains_openSetOf hid

include h

theorem agree_connect {c c' : Components} (hc : Renamed f net c c') (i j : Nat) :
    Agree f (Renamed f net) (c.connect net i j) (c'.connect net' i j) := by
  obtain ⟨ha, hab⟩ := hc.componentOf i
  obtain ⟨hb, hbb⟩ := hc.componentOf j
  unfold connect
  dsimp only
  rw [ha, hb, TreeNode.id_rename, TreeNode.id_rename, hc.state]
  split
  · exact .ok hc
  · refine (Assembly.agree_join h hab hbb c.state).bind ?_
    rintro ⟨joined, s⟩ _ ⟨rfl, hj⟩
    refine .ok ⟨?_, rfl, fun t ht => ?_⟩
    · rw [hc.held, List.map_map, List.map_map]
      exact List.map_congr_left fun t _ => merge_rename _ _ _ t
    · obtain ⟨u, hu, rfl⟩ := List.mem_map.1 ht
      unfold merge
      split
      · exact hj
      · exact hc.bounded u hu

theorem agree_contract {c c' : Components} (hc : Renamed f net c c') (id : Nat) :
    Agree f (Renamed f net) (c.contract net id) (c'.contract net' id) := by
  unfold contract
  rw [h.occurrencesOf]
  split
  · exact agree_connect h hc _ _
  · exact .ok hc

theorem agree_joinRest {c c' : Components} (hc : Renamed f net c c') :
    Agree f (fun t t' => t' = t.rename f) (c.joinRest net) (c'.joinRest net') := by
  have hbound : ∀ t ∈ distinct [] c.held, t.Bounded net := fun t ht =>
    hc.bounded t (mem_of_mem_distinct ht).1
  unfold joinRest
  rw [hc.held, hc.state, distinct_rename]
  cases hd : distinct [] c.held with
  | nil => exact .ok rfl
  | cons t rest =>
    rw [hd] at hbound
    have hfirst : Assembly.Renamed f net (t, c.state) (t.rename f, c.state) :=
      ⟨rfl, hbound t List.mem_cons_self⟩
    have hrest : ∀ u ∈ rest, u.Bounded net := fun u hu => hbound u (List.mem_cons_of_mem _ hu)
    exact (Assembly.agree_joinAll h hrest hfirst).bind fun x y hxy =>
      .ok (Assembly.finish_rename hxy)

end

end Components

/-! ### The search -/

namespace Search

theorem unlabelled_unsolved : (Error.invalidOrder .unsolved).Unlabelled := fun _ => rfl

section

variable (p : Problem) (t : Table)

theorem joinCost_unlabelled (left right : Nat) :
    FailsWith Error.Unlabelled (joinCost p t left right) := by
  unfold joinCost
  split
  · exact (failsByCost_joinCost _ _ _).unlabelled
  · exact .error unlabelled_unsolved

theorem hopeless_unlabelled (prune : Bool) (parts : Cost) (best : Option Choice) :
    FailsWith Error.Unlabelled (hopeless prune parts best) := by
  unfold hopeless
  split
  · exact (Cost.failsByCost_lt _ _).unlabelled.bind fun _ => .ok _
  · exact .ok _

theorem aboveBound_unlabelled (total : Cost) :
    FailsWith Error.Unlabelled (aboveBound p total) := by
  unfold aboveBound
  split
  · exact (Cost.failsByCost_lt _ _).unlabelled
  · exact .ok _

theorem improves_unlabelled (total : Cost) (best : Option Choice) :
    FailsWith Error.Unlabelled (improves total best) := by
  unfold improves
  split
  · exact (Cost.failsByCost_lt _ _).unlabelled
  · exact .ok _

theorem consider_unlabelled (best : Option Choice) (left right : Nat) :
    FailsWith Error.Unlabelled (consider p t best left right) := by
  unfold consider
  split
  · refine (Cost.failsByCost_add _ _).unlabelled.bind fun parts => ?_
    refine (hopeless_unlabelled _ _ _).bind fun drop => ?_
    split
    · exact .ok _
    · refine (joinCost_unlabelled p t left right).bind fun joined => ?_
      refine (Cost.failsByCost_add _ _).unlabelled.bind fun total => ?_
      refine (aboveBound_unlabelled p total).bind fun above => ?_
      split
      · exact .ok _
      · refine (improves_unlabelled total best).bind fun better => ?_
        split
        · exact .ok _
        · exact .ok _
  · exact .ok _

theorem best_unlabelled (s : Nat) : FailsWith Error.Unlabelled (best p t s) := by
  unfold best
  exact .foldlM (fun b lr => consider_unlabelled p t b lr.1 lr.2) (splits s) none

theorem noteOpen_unlabelled (s : Nat) : FailsWith Error.Unlabelled (noteOpen t s) := by
  unfold noteOpen
  split
  · exact .ok _
  · exact .error unlabelled_unsolved

theorem solve_unlabelled (s : Nat) : FailsWith Error.Unlabelled (solve p t s) := by
  unfold solve
  refine (noteOpen_unlabelled t s).bind fun noted => ?_
  refine (best_unlabelled p noted s).bind fun found => ?_
  split
  · exact .ok _
  · exact .ok _

end

/-- The search for the cheapest splits never reports a label. -/
theorem solveAll_unlabelled (p : Problem) (net : Network) :
    FailsWith Error.Unlabelled (solveAll p net) :=
  .foldlM (fun t _ => .foldlM (solve_unlabelled p) _ t) _ _

section

variable (hf : f.Injective) (h : Network.Renamed f net net')
include hf h

/-- **The search finds the same** for a network and its renamed copy. -/
theorem solveAll_renamed (p : Problem) : solveAll p net' = solveAll p net := by
  have hnote : noteFactor net' = noteFactor net := by
    funext t i
    rw [noteFactor, h.openSetOf hf, noteFactor]
  rw [solveAll, start, hnote, h.numFactors, solveAll, start]

theorem agree_rebuild (t : Table) (depth s : Nat) (a : Assembly) :
    Agree f (Assembly.Renamed f net) (rebuild net t depth s a) (rebuild net' t depth s a) := by
  induction depth generalizing s a with
  | zero => exact .unlabelled unlabelled_unsolved
  | succ depth ih =>
    unfold rebuild
    split
    · exact .ok (Assembly.renamed_leaf hf h _ a)
    · cases t.choices[s]? with
      | none => exact .unlabelled unlabelled_unsolved
      | some c =>
        refine (ih c.left a).bind ?_
        rintro ⟨l, b⟩ _ ⟨rfl, hl⟩
        refine (ih (s ^^^ c.left) b).bind ?_
        rintro ⟨r, d⟩ _ ⟨rfl, hr⟩
        exact Assembly.agree_join h hl hr d

end

end Search

/-! ### The trees of a network -/

namespace ContractionTree

/-- A tree and its renamed copy. -/
abbrev Renamed (f : Label → Label) (t t' : ContractionTree) : Prop := t' = t.rename f

section

variable (hf : f.Injective) (h : Network.Renamed f net net')
include hf h

section

variable {m m' : CostModel} (hm : m'.resolve net' = m.resolve net)
include hm

/-- **Taking the factors as they come agrees under a renaming.** -/
theorem agree_leftToRight : Agree f (Renamed f) (leftToRight net m) (leftToRight net' m') := by
  unfold leftToRight
  rw [hm, h.numFactors]
  refine Agree.bind (.foldlM (fun x y i _ hxy => Assembly.agree_joinLeaf hf h hxy i) ?_) ?_
  · exact Assembly.renamed_leaf hf h 0 _
  · exact fun x y hxy => .ok (Assembly.finish_rename hxy)

/-- **The search for the cheapest tree agrees under a renaming.** -/
theorem agree_optimal (prune : Bool) :
    Agree f (Renamed f) (optimal net m prune) (optimal net' m' prune) := by
  unfold optimal
  rw [hm, h.numFactors]
  dsimp only
  split
  · exact .error (.tooManyFactors _ _)
  · refine (agree_leftToRight hf h hm).bind ?_
    rintro reference _ rfl
    split
    · exact .ok rfl
    · rw [Search.solveAll_renamed hf h]
      refine (Agree.same (Search.solveAll_unlabelled _ net)).bind ?_
      rintro t _ rfl
      split
      · refine (Search.agree_rebuild hf h t _ _ _).bind fun x y hxy => ?_
        exact .ok (Assembly.finish_rename hxy)
      · exact .ok rfl

/-- Following the same numbers agrees under a renaming. -/
theorem agree_ordered (ids : List Nat) :
    Agree f (Renamed f) (ordered net m ids) (ordered net' m' ids) := by
  unfold ordered
  rw [hm, h.numFactors]
  refine Agree.bind (.foldlM (fun c c' id _ hc => Components.agree_contract h hc id) ?_) ?_
  · exact Components.renamed_leaves hf h _ _
  · exact fun c c' hc => Components.agree_joinRest h hc

end

/-- The renamed order lists the same numbers, or has the same fault. -/
theorem agree_orderIds (seen : List Nat) (order : List Label) :
    Agree f Eq (orderIds net seen order) (orderIds net' seen (order.map f)) := by
  induction order generalizing seen with
  | nil => exact .ok rfl
  | cons l order ih =>
    rw [List.map_cons]
    unfold orderIds
    rw [h.idOf? hf, h.isContracted]
    split
    · exact .error (.invalidOrder (.unknown l))
    · split
      · exact .error (.invalidOrder (.free l))
      · split
        · exact .error (.invalidOrder (.repeated l))
        · refine (ih _).bind ?_
          rintro ids _ rfl
          exact .ok rfl

omit hf in
theorem agree_checkComplete (ids : List Nat) :
    Agree f Eq (checkComplete net ids) (checkComplete net' ids) := by
  unfold checkComplete
  rw [h.contractedIds]
  cases hfind : net.contractedIds.find? fun id => !ids.contains id with
  | none => exact .ok rfl
  | some id =>
    have hid : id < net.numLabels :=
      Network.lt_of_mem_contractedIds (List.mem_of_find?_eq_some hfind)
    dsimp only
    rw [h.label hid]
    exact .error (.invalidOrder (.missing (net.label id)))

/-- **Following an order agrees under a renaming** of the network and the order. -/
theorem agree_explicit {m m' : CostModel} (hm : m'.resolve net' = m.resolve net)
    (order : List Label) :
    Agree f (Renamed f) (explicit net order m) (explicit net' (order.map f) m') := by
  unfold explicit
  refine (agree_orderIds hf h [] order).bind ?_
  rintro ids _ rfl
  exact (agree_checkComplete h ids).bind fun _ _ _ => agree_ordered hf h hm ids

end

end ContractionTree

end TensorNet
