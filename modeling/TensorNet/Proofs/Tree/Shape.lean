import TensorNet.Proofs.Network.Open
import TensorNet.Tree.Basic

/-!
# Trees of factors

A contraction tree without its bookkeeping is a binary tree with factors at its leaves. The cost of
such a tree is the sum over its joins of what it costs to join the open labels of the two sides.

## Why bookkeeping can be left out

`Assembly` numbers the nodes, keeps the open sets by symmetric differences and adds the costs up as
it goes. A node it makes is *built*: its open set is that of its two children without what both
have, its summed labels are those that both have, and a leaf starts with the labels that its factor
does not sum by itself. On a built node whose leaves are different factors the open set is the set
of labels that stand exactly once below it (`contains_openSet`).
-/

namespace TensorNet

/-- A binary tree with factors at its leaves. -/
inductive Shape
  | leaf (factor : Nat)
  | join (left right : Shape)
deriving DecidableEq, Repr, Inhabited

namespace Shape

variable (net : Network)

/-- The factors at the leaves, from left to right. -/
def factors : Shape → List Nat
  | leaf f => [f]
  | join l r => l.factors ++ r.factors

@[simp] theorem length_factors_leaf (f : Nat) : (leaf f).factors.length = 1 := rfl

@[simp] theorem length_factors_join (l r : Shape) :
    (join l r).factors.length = l.factors.length + r.factors.length := List.length_append

theorem length_factors_pos (u : Shape) : 0 < u.factors.length := by
  induction u with
  | leaf f => exact Nat.one_pos
  | join l r hl hr =>
    rw [length_factors_join]
    omega

theorem factors_ne_nil (u : Shape) : u.factors ≠ [] :=
  List.ne_nil_of_length_pos u.length_factors_pos

/-- A join is never over a single factor. -/
theorem two_le_length (l r : Shape) : 2 ≤ (join l r).factors.length := by
  have hl := l.length_factors_pos
  have hr := r.length_factors_pos
  rw [length_factors_join]
  omega

/-- **The cost of a tree of factors**: the sum over its joins of the cost of joining the labels
open in the factors of either side. -/
def cost (costs : List Cost) : Shape → Except Error Cost
  | leaf _ => .ok 0
  | join l r => do
    let x ← l.cost costs
    let y ← r.cost costs
    let below ← x.add y
    below.add (← joinCost costs (net.openIn l.factors) (net.openIn r.factors))

/-- Makes the nodes of a tree, the left side first and the root last. -/
def assemble : Shape → Assembly → Except Error (TreeNode × Assembly)
  | leaf f, a => .ok (a.leaf net f)
  | join l r, a => do
    let (x, a) ← l.assemble a
    let (y, a) ← r.assemble a
    a.join net x y

/-- The tree that takes the factors from `0` to `k` as they come. -/
def leftDeep : Nat → Shape
  | 0 => leaf 0
  | k + 1 => join (leftDeep k) (leaf (k + 1))

theorem factors_leftDeep (k : Nat) : (leftDeep k).factors = List.range (k + 1) := by
  induction k with
  | zero => rfl
  | succ k ih => rw [leftDeep, factors, ih, factors, ← List.range_succ]

end Shape

namespace TreeNode

variable (net : Network)

/-- A node without its bookkeeping. -/
def shape : TreeNode → Shape
  | leaf _ f _ => .leaf f
  | join _ l r _ _ _ => .join l.shape r.shape

@[simp] theorem factors_shape (t : TreeNode) : t.shape.factors = t.factors := by
  induction t with
  | leaf => rfl
  | join i l r c k s hl hr => rw [shape, Shape.factors, hl, hr, factors]

/-- The numbers of a node and of all nodes below it, children first. -/
def ids (t : TreeNode) : List Nat := t.postorder.map id

@[simp] theorem ids_leaf (i f : Nat) (s : LabelSet) : (leaf i f s).ids = [i] := rfl

@[simp] theorem ids_join (i : Nat) (l r : TreeNode) (c : List Label) (k : Cost) (s : LabelSet) :
    (join i l r c k s).ids = l.ids ++ r.ids ++ [i] := by
  simp only [ids, postorder, List.map_append, List.map_cons, List.map_nil]
  rfl

theorem id_mem_ids (t : TreeNode) : t.id ∈ t.ids := by
  cases t with
  | leaf => exact List.mem_singleton_self _
  | join => simp [TreeNode.id]

/-- A node is *built*: what it says of itself is computed from its children, or from its factor. -/
inductive Built (costs : List Cost) : TreeNode → Prop
  | leaf {i f : Nat} (hf : f < net.numFactors) : Built costs (leaf i f (net.openSetOf f))
  | join {i : Nat} {l r : TreeNode} {c : Cost} (hl : Built costs l) (hr : Built costs r)
      (hc : joinCost costs l.openSet r.openSet = .ok c) :
      Built costs (join i l r ((l.openSet.inter r.openSet).toList.map net.label) c
        (l.openSet.symmDiff r.openSet))

variable {net} {costs : List Cost} {t : TreeNode}

theorem Built.factors_lt (h : t.Built net costs) : ∀ f ∈ t.factors, f < net.numFactors := by
  induction h with
  | leaf hf =>
    intro f hm
    rwa [List.mem_singleton.1 hm]
  | join _ _ _ ihl ihr =>
    intro f hm
    rcases List.mem_append.1 hm with hm | hm
    · exact ihl f hm
    · exact ihr f hm

theorem disjoint_of_nodup {fs gs : List Nat} (h : (fs ++ gs).Nodup) : ∀ i ∈ fs, i ∉ gs :=
  fun i hi hj => (List.nodup_append.1 h).2.2 i hi i hj rfl

/-- **The open set of a node holds the labels that stand exactly once below it.** -/
theorem Built.contains_openSet (hnet : net.Lawful) (h : t.Built net costs)
    (hn : t.factors.Nodup) (id : Nat) :
    t.openSet.contains id = (net.openIn t.factors).contains id := by
  induction h with
  | leaf hf => exact hnet.contains_openSetOf hf id
  | join _ _ _ ihl ihr =>
    have hd := disjoint_of_nodup hn
    obtain ⟨h1, h2, -⟩ := List.nodup_append.1 hn
    rw [openSet, LabelSet.contains_symmDiff, ihl h1, ihr h2, factors,
      hnet.contains_openIn_append hd]

end TreeNode

/-! ### What assembling does -/

namespace Assembly

variable {net : Network} {a a' : Assembly} {l r t : TreeNode}

theorem join_eq_ok (h : a.join net l r = .ok (t, a')) :
    ∃ c total, joinCost a.costs l.openSet r.openSet = .ok c ∧ a.total.add c = .ok total ∧
      t = .join a.next l r ((l.openSet.inter r.openSet).toList.map net.label) c
        (l.openSet.symmDiff r.openSet) ∧
      a' = { a with next := a.next + 1, total } := by
  unfold join at h
  obtain ⟨c, hc, h⟩ := bind_eq_ok.1 h
  obtain ⟨total, ht, h⟩ := bind_eq_ok.1 h
  cases h
  exact ⟨c, total, hc, ht, rfl, rfl⟩

/-- A node was made between two states of an assembly: it is built, and its numbers are new. -/
structure Made (net : Network) (a : Assembly) (t : TreeNode) (a' : Assembly) : Prop where
  built : t.Built net a.costs
  costs : a'.costs = a.costs
  fresh : ∀ i ∈ t.ids, a.next ≤ i ∧ i < a'.next
  nodup : t.ids.Nodup

theorem Made.le (h : Made net a t a') : a.next < a'.next := by
  obtain ⟨h1, h2⟩ := h.fresh _ t.id_mem_ids
  omega

theorem made_leaf {f : Nat} (hf : f < net.numFactors) :
    Made net a (a.leaf net f).1 (a.leaf net f).2 :=
  ⟨.leaf hf, rfl, by simp [leaf], by simp [leaf]⟩

theorem Made.join {b c : Assembly} (hl : Made net a l b) (hr : Made net b r c)
    (h : c.join net l r = .ok (t, a')) : Made net a t a' := by
  obtain ⟨k, total, hk, -, rfl, rfl⟩ := join_eq_ok h
  have hcosts : c.costs = a.costs := hr.costs.trans hl.costs
  refine ⟨.join hl.built (hl.costs ▸ hr.built) (hcosts ▸ hk), hcosts, fun i hi => ?_, ?_⟩
  · show a.next ≤ i ∧ i < c.next + 1
    have h1 := hl.le
    have h2 := hr.le
    simp only [TreeNode.ids_join, List.mem_append, List.mem_singleton] at hi
    rcases hi with (hi | hi) | rfl
    · have := hl.fresh i hi
      omega
    · have := hr.fresh i hi
      omega
    · omega
  · rw [TreeNode.ids_join, List.nodup_append, List.nodup_append]
    refine ⟨⟨hl.nodup, hr.nodup, fun i hi j hj => ?_⟩, by simp, fun i hi j hj => ?_⟩
    · have := hl.fresh i hi
      have := hr.fresh j hj
      omega
    · have h1 := hl.le
      have h2 := hr.le
      rw [List.mem_singleton.1 hj]
      rcases List.mem_append.1 hi with hi | hi
      · have := hl.fresh i hi
        omega
      · have := hr.fresh i hi
        omega

end Assembly

/-- Assembling a tree of factors makes a built node of this shape. -/
theorem Shape.made_of_assemble {net : Network} {u : Shape} {a a' : Assembly} {t : TreeNode}
    (hu : ∀ f ∈ u.factors, f < net.numFactors) (h : u.assemble net a = .ok (t, a')) :
    t.shape = u ∧ a.Made net t a' := by
  induction u generalizing a a' t with
  | leaf f =>
    cases h
    exact ⟨rfl, Assembly.made_leaf (hu f (List.mem_singleton_self f))⟩
  | join l r ihl ihr =>
    unfold assemble at h
    obtain ⟨⟨x, b⟩, hx, h⟩ := bind_eq_ok.1 h
    obtain ⟨⟨y, c⟩, hy, h⟩ := bind_eq_ok.1 h
    obtain ⟨hxs, hxm⟩ := ihl (fun f hf => hu f (List.mem_append_left _ hf)) hx
    obtain ⟨hys, hym⟩ := ihr (fun f hf => hu f (List.mem_append_right _ hf)) hy
    refine ⟨?_, hxm.join hym h⟩
    obtain ⟨k, total, -, -, rfl, -⟩ := Assembly.join_eq_ok h
    rw [TreeNode.shape, hxs, hys]

/-- **A proper tree of a network**: its nodes are built and have different numbers, and its leaves
are the factors, each of them once. -/
structure ContractionTree.Proper (net : Network) (costs : List Cost) (t : ContractionTree) : Prop
    where
  built : t.root.Built net costs
  factors : t.root.factors.Perm (List.range net.numFactors)
  nodup : t.root.ids.Nodup

namespace ContractionTree

variable {net : Network} {model : CostModel} {t : ContractionTree}

theorem proper_of_assemble {costs : List Cost} {u : Shape} {a : Assembly} {n : TreeNode}
    (hu : u.factors.Perm (List.range net.numFactors))
    (h : u.assemble net { costs } = .ok (n, a)) :
    (Assembly.finish (n, a)).Proper net costs := by
  obtain ⟨hs, hm⟩ := u.made_of_assemble (fun f hf => List.mem_range.1 (hu.mem_iff.1 hf)) h
  refine ⟨hm.built, ?_, hm.nodup⟩
  show n.factors.Perm _
  rwa [← n.factors_shape, hs]

/-- Taking the factors as they come assembles the left-deep tree. -/
theorem leftToRight_eq (net : Network) (model : CostModel) :
    leftToRight net model = (do
      let last ← (Shape.leftDeep (net.numFactors - 1)).assemble net { costs := model.resolve net }
      return Assembly.finish last) := by
  have fold : ∀ k, (List.range' 1 k).foldlM (Assembly.joinLeaf net)
      (Assembly.leaf net 0 { costs := model.resolve net }) =
      (Shape.leftDeep k).assemble net { costs := model.resolve net } := by
    intro k
    induction k with
    | zero => rfl
    | succ k ih =>
      rw [List.range'_1_concat, List.foldlM_append, ih, Shape.leftDeep, Shape.assemble]
      refine bind_congr fun x => ?_
      simp only [List.foldlM_cons, List.foldlM_nil, bind_pure, Nat.add_comm 1 k]
      rfl
  rw [leftToRight, fold]

/-- A tree that comes from making the nodes of some tree over all factors. -/
def Assembled (net : Network) (costs : List Cost) (t : ContractionTree) : Prop :=
  ∃ (u : Shape) (n : TreeNode) (a : Assembly), u.factors.Perm (List.range net.numFactors) ∧
    u.assemble net { costs } = .ok (n, a) ∧ Assembly.finish (n, a) = t

theorem Assembled.proper {costs : List Cost} (h : t.Assembled net costs) : t.Proper net costs := by
  obtain ⟨u, n, a, hu, hn, rfl⟩ := h
  exact proper_of_assemble hu hn

theorem assembled_leftToRight (hnet : net.Lawful) (h : leftToRight net model = .ok t) :
    t.Assembled net (model.resolve net) := by
  rw [leftToRight_eq] at h
  obtain ⟨⟨n, a⟩, hn, h⟩ := bind_eq_ok.1 h
  refine ⟨_, n, a, ?_, hn, Except.ok.inj h⟩
  have := hnet.pos
  rw [Shape.factors_leftDeep, Nat.sub_add_cancel this]

theorem proper_leftToRight (hnet : net.Lawful) (h : leftToRight net model = .ok t) :
    t.Proper net (model.resolve net) := (assembled_leftToRight hnet h).proper

end ContractionTree

end TensorNet
