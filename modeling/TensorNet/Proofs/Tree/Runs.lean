import Mathlib
import TensorNet.Proofs.Tree.Strategies

/-!
# Making a tree node by node

All strategies make a tree in the same way: they start from nothing, make a leaf or join two nodes
that are not yet below another one, and go on until one node is left. What such a run has made does
not depend on the order in which the strategy went.

## 1. Runs

A run (`Assembly.Run`) keeps the list of all nodes made so far and the list of the *roots*, which
are the nodes that no other node is above.

## 2. What a run has made

The nodes made are those below the roots, each of them once, and they have the numbers from zero on
in the order in which they were made (`Assembly.Run.holds`).

## 3. The strategies are runs

A strategy that assembles a shape makes the left side, then the right side, and joins the two. A
strategy that follows an order of labels holds a component for each factor, and its components are
the roots.
-/

namespace TensorNet

namespace TreeNode

/-- The nodes right below a node. -/
def children : TreeNode → List TreeNode
  | leaf _ _ _ => []
  | join _ l r _ _ _ => [l, r]

/-- The factor of a leaf. -/
def factor? : TreeNode → Option Nat
  | leaf _ f _ => some f
  | join _ _ _ _ _ _ => none

/-- The cost of a join. -/
def cost? : TreeNode → Option Cost
  | leaf _ _ _ => none
  | join _ _ _ _ c _ => some c

/-- The labels that are summed at a node. -/
def contracted : TreeNode → List Label
  | leaf _ _ _ => []
  | join _ _ _ cs _ _ => cs

theorem self_mem_postorder (t : TreeNode) : t ∈ t.postorder := by
  cases t with
  | leaf => exact List.mem_singleton_self _
  | join => exact List.mem_append_right _ (List.mem_singleton_self _)

end TreeNode

/-! ### Runs -/

namespace Assembly

variable {net : Network} {costs : List Cost} {s s' : Assembly} {made roots : List TreeNode}

/-- **A run of an assembly**, with the nodes that it has made, in this order, and the roots. -/
inductive Run (net : Network) (costs : List Cost) :
    Assembly → List TreeNode → List TreeNode → Prop
  | start : Run net costs { costs } [] []
  | leaf {s : Assembly} {made roots : List TreeNode} (h : Run net costs s made roots) {f : Nat}
      (hf : f < net.numFactors) :
      Run net costs (s.leaf net f).2 (made ++ [(s.leaf net f).1]) ((s.leaf net f).1 :: roots)
  | join {s s' : Assembly} {made roots rest : List TreeNode} {l r t : TreeNode}
      (h : Run net costs s made roots) (hp : roots.Perm (l :: r :: rest))
      (hj : s.join net l r = .ok (t, s')) : Run net costs s' (made ++ [t]) (t :: rest)

/-- What an assembly that has made some nodes holds. -/
structure Holds (net : Network) (costs : List Cost) (s : Assembly) (made roots : List TreeNode) :
    Prop where
  costs_eq : s.costs = costs
  nodes : made.Perm (roots.flatMap TreeNode.postorder)
  ids : made.map TreeNode.id = List.range s.next
  below : ∀ t ∈ made, ∀ c ∈ t.children, c.id < t.id
  total : (made.filterMap TreeNode.cost?).foldlM Cost.add 0 = .ok s.total

theorem Holds.mem_made (h : Holds net costs s made roots) {t : TreeNode} (ht : t ∈ roots) :
    t ∈ made :=
  h.nodes.mem_iff.2 (List.mem_flatMap.2 ⟨t, ht, t.self_mem_postorder⟩)

/-- The numbers of all nodes made are below the next one. -/
theorem Holds.id_lt (h : Holds net costs s made roots) {t : TreeNode} (ht : t ∈ made) :
    t.id < s.next := by
  rw [← List.mem_range, ← h.ids]
  exact List.mem_map_of_mem ht

theorem Holds.nodup_made (h : Holds net costs s made roots) : made.Nodup :=
  List.Nodup.of_map _ (h.ids ▸ List.nodup_range)

/-- **No node is a root twice**, as its number would be used twice. -/
theorem Holds.nodup_roots (h : Holds net costs s made roots) : roots.Nodup := by
  have hn := (h.nodes.nodup_iff.1 h.nodup_made)
  refine (List.nodup_flatMap.1 hn).2.imp fun {t u} hd he => ?_
  exact hd t.self_mem_postorder (he ▸ u.self_mem_postorder)

/-- A new node with the next number, over roots that it takes away. -/
theorem Holds.push (h : Holds net costs s made roots) {t : TreeNode} {kept : List TreeNode}
    {total : Cost} (hid : t.id = s.next)
    (hnodes : (t :: roots.flatMap TreeNode.postorder).Perm
      ((t :: kept).flatMap TreeNode.postorder))
    (hbelow : ∀ c ∈ t.children, c ∈ made)
    (htotal : (t.cost?.toList).foldlM Cost.add s.total = .ok total) :
    Holds net costs { s with next := s.next + 1, total } (made ++ [t]) (t :: kept) where
  costs_eq := h.costs_eq
  nodes := (List.perm_append_singleton t made).trans ((h.nodes.cons t).trans hnodes)
  ids := by
    rw [List.map_append, h.ids, List.map_singleton, hid]
    exact List.range_succ.symm
  below u hu c hc := by
    rcases List.mem_append.1 hu with hu | hu
    · exact h.below u hu c hc
    · obtain rfl := List.mem_singleton.1 hu
      exact hid ▸ h.id_lt (hbelow c hc)
  total := by
    have hcost : [t].filterMap TreeNode.cost? = t.cost?.toList := by
      cases hc : t.cost? <;> simp [hc]
    rw [List.filterMap_append, List.foldlM_append, h.total, ok_bind, hcost]
    exact htotal

/-- **What a run has made.** -/
theorem Run.holds (h : Run net costs s made roots) : Holds net costs s made roots := by
  induction h with
  | start => exact ⟨rfl, List.Perm.refl _, rfl, nofun, rfl⟩
  | leaf h hf ih => exact ih.push rfl (List.Perm.refl _) nofun rfl
  | @join s s' made roots rest l r t h hp hj ih =>
    obtain ⟨c, total, -, htotal, rfl, rfl⟩ := join_eq_ok hj
    have hroots := hp.flatMap_right TreeNode.postorder
    rw [List.flatMap_cons, List.flatMap_cons, ← List.append_assoc] at hroots
    refine ih.push rfl ?_ (fun c hc => ih.mem_made (hp.mem_iff.2 ?_)) (foldlM_single htotal)
    · rw [List.flatMap_cons, TreeNode.postorder, List.append_assoc _ [_]]
      exact (hroots.cons _).trans List.perm_middle.symm
    · exact List.mem_append_left rest hc

/-- The node made last is a root. -/
theorem Run.getLast?_made {t : TreeNode} (h : Run net costs s made (t :: roots)) :
    made.getLast? = some t := by
  cases h with
  | leaf h hf => exact List.getLast?_concat
  | join h hp hj => exact List.getLast?_concat

/-- Joining all roots to one of them, in any order, leaves one root. -/
theorem Run.joinAll {rest : List TreeNode} {acc : TreeNode} {last : TreeNode × Assembly}
    (h : Run net costs s made roots) (hp : roots.Perm (acc :: rest))
    (hj : Assembly.joinAll net (acc, s) rest = .ok last) :
    ∃ made', Run net costs last.2 made' [last.1] := by
  induction rest generalizing s made roots acc with
  | nil =>
    cases hj
    exact ⟨made, List.perm_singleton.1 hp ▸ h⟩
  | cons r rest ih =>
    unfold Assembly.joinAll at hj
    rw [List.foldlM_cons] at hj
    obtain ⟨⟨t, s'⟩, ht, hj⟩ := bind_eq_ok.1 hj
    exact ih (h.join hp ht) (List.Perm.refl _) hj

end Assembly

/-! ### The strategies are runs -/

/-- **Assembling a shape** adds one root. -/
theorem Shape.run_of_assemble {net : Network} {costs : List Cost} {u : Shape} {a a' : Assembly}
    {made roots : List TreeNode} {t : TreeNode} (hu : ∀ f ∈ u.factors, f < net.numFactors)
    (h : Assembly.Run net costs a made roots) (hs : u.assemble net a = .ok (t, a')) :
    ∃ made', Assembly.Run net costs a' made' (t :: roots) := by
  induction u generalizing a a' t made roots with
  | leaf f =>
    cases hs
    exact ⟨_, h.leaf (hu f (List.mem_singleton_self f))⟩
  | join l r ihl ihr =>
    unfold assemble at hs
    obtain ⟨⟨x, b⟩, hx, hs⟩ := bind_eq_ok.1 hs
    obtain ⟨⟨y, c⟩, hy, hs⟩ := bind_eq_ok.1 hs
    obtain ⟨_, h⟩ := ihl (fun f hf => hu f (List.mem_append_left _ hf)) h hx
    obtain ⟨_, h⟩ := ihr (fun f hf => hu f (List.mem_append_right _ hf)) h hy
    exact ⟨_, h.join (List.Perm.swap x y _) hs⟩

namespace Components

variable {net : Network} {costs : List Cost} {c c' : Components} {made roots : List TreeNode}

/-- The components are the roots of a run. -/
structure Rooted (net : Network) (costs : List Cost) (c : Components) : Prop where
  sound : c.Sound net costs
  run : ∃ made roots, Assembly.Run net costs c.state made roots ∧ ∀ t, t ∈ roots ↔ t ∈ c.held

theorem run_leaves {fs : List Nat} {s : Assembly} (hfs : ∀ f ∈ fs, f < net.numFactors)
    (h : Assembly.Run net costs s made roots) :
    ∃ made' roots', Assembly.Run net costs (leaves net fs s).state made' roots' ∧
      ∀ t, t ∈ roots' ↔ t ∈ (leaves net fs s).held ∨ t ∈ roots := by
  induction fs generalizing s made roots with
  | nil => exact ⟨made, roots, h, fun t => by simp [leaves]⟩
  | cons f fs ih =>
    obtain ⟨made', roots', hrun, hmem⟩ := ih (fun g hg => hfs g (List.mem_cons_of_mem _ hg))
      (h.leaf (hfs f List.mem_cons_self))
    refine ⟨made', roots', hrun, fun t => ?_⟩
    rw [hmem, leaves, List.mem_cons, List.mem_cons, or_left_comm, or_assoc]

theorem rooted_leaves :
    (leaves net (List.range net.numFactors) { costs }).Rooted net costs := by
  have hstart : Assembly.Run net costs { costs } [] [] := .start
  obtain ⟨made, roots, hrun, hmem⟩ := run_leaves (fun f hf => List.mem_range.1 hf) hstart
  exact ⟨sound_leaves, made, roots, hrun, fun t => by simpa using hmem t⟩

/-- The components after two were merged. -/
theorem Sound.mem_merged_iff (h : c.Sound net costs) {a b t : TreeNode} (ha : a ∈ c.held)
    (hb : b ∈ c.held) {y : TreeNode} :
    y ∈ c.held.map (merge a b t) ↔ y = t ∨ (y ∈ c.held ∧ y ≠ a ∧ y ≠ b) := by
  refine ⟨h.mem_merged ha hb, fun hy => List.mem_map.2 ?_⟩
  rcases hy with rfl | ⟨hy, hya, hyb⟩
  · exact ⟨a, ha, by rw [h.merge_eq ha hb ha, if_pos (.inl rfl)]⟩
  · exact ⟨y, hy, by rw [h.merge_eq ha hb hy, if_neg (not_or.2 ⟨hya, hyb⟩)]⟩

/-- **Joining two components** joins two roots. -/
theorem Rooted.connect {f g : Nat} (h : c.Rooted net costs) (hf : f < net.numFactors)
    (hg : g < net.numFactors) (hc : c.connect net f g = .ok c') : c'.Rooted net costs := by
  refine ⟨h.sound.connect hf hg hc, ?_⟩
  obtain ⟨made, roots, hrun, hmem⟩ := h.run
  obtain ⟨ha, -⟩ := h.sound.componentOf_mem hf
  obtain ⟨hb, -⟩ := h.sound.componentOf_mem hg
  obtain ⟨-, rfl⟩ | ⟨hne, t, s, hj, rfl⟩ := connect_cases hc
  · exact ⟨made, roots, hrun, hmem⟩
  · have hn := hrun.holds.nodup_roots
    have hba : c.componentOf g ≠ c.componentOf f := fun he => hne (he ▸ rfl)
    have hperm := (List.perm_cons_erase ((hmem _).2 ha)).trans
      ((List.perm_cons_erase ((List.mem_erase_of_ne hba).2 ((hmem _).2 hb))).cons _)
    refine ⟨_, _, hrun.join hperm hj, fun y => ?_⟩
    rw [h.sound.mem_merged_iff ha hb, List.mem_cons, (hn.erase _).mem_erase_iff, hn.mem_erase_iff,
      hmem]
    exact or_congr_right ⟨fun h => ⟨h.2.2, h.2.1, h.1⟩, fun h => ⟨h.2.2, h.2.1, h.1⟩⟩

theorem Rooted.contract {id : Nat} (hnet : net.Lawful) (h : c.Rooted net costs)
    (hc : c.contract net id = .ok c') : c'.Rooted net costs := by
  obtain rfl | ⟨f, g, hf, hg, hc⟩ := contract_cases hnet hc
  · exact h
  · exact h.connect hf hg hc

/-- The components that are left are the roots. -/
theorem Rooted.perm_distinct (h : c.Rooted net costs) :
    ∃ made roots, Assembly.Run net costs c.state made roots ∧
      roots.Perm (distinct [] c.held) := by
  obtain ⟨made, roots, hrun, hmem⟩ := h.run
  have hd := nodup_distinct [] c.held
  refine ⟨made, roots, hrun, (List.perm_ext_iff_of_nodup hrun.holds.nodup_roots hd).2 fun t => ?_⟩
  rw [hmem, h.sound.mem_distinct]

end Components

namespace ContractionTree

variable {net : Network} {model : CostModel} {t : ContractionTree}

/-- **A tree that is the one root of a run**, with what the run adds up to. -/
def Grown (net : Network) (costs : List Cost) (t : ContractionTree) : Prop :=
  ∃ made s, Assembly.Run net costs s made [t.root] ∧ t.cost = s.total

theorem Assembled.grown {costs : List Cost} (h : t.Assembled net costs) : t.Grown net costs := by
  obtain ⟨u, n, a, hu, hn, rfl⟩ := h
  have hlt : ∀ f ∈ u.factors, f < net.numFactors := fun f hf =>
    List.mem_range.1 (hu.mem_iff.1 hf)
  obtain ⟨made, hrun⟩ := u.run_of_assemble hlt .start hn
  exact ⟨made, a, hrun, rfl⟩

theorem grown_ordered {ids : List Nat} (hnet : net.Lawful) (h : ordered net model ids = .ok t) :
    t.Grown net (model.resolve net) := by
  unfold ordered at h
  obtain ⟨c, hc, h⟩ := bind_eq_ok.1 h
  have hrooted : c.Rooted net (model.resolve net) :=
    foldlM_inv (Components.Rooted net (model.resolve net))
      (fun _ _ _ _ hs hstep => hs.contract hnet hstep) Components.rooted_leaves hc
  obtain ⟨x, xs, last, he, hl, rfl⟩ := hrooted.sound.joinRest_eq_ok hnet h
  obtain ⟨made, roots, hrun, hp⟩ := hrooted.perm_distinct
  obtain ⟨made', hrun'⟩ := hrun.joinAll (he ▸ hp) hl
  exact ⟨made', last.2, hrun', rfl⟩

/-- **Every strategy is a run.** -/
theorem Chosen.grown (h : t.Chosen net model) (hnet : net.Lawful) :
    t.Grown net (model.resolve net) := by
  cases h with
  | leftToRight h => exact (assembled_leftToRight hnet h).grown
  | bySign h => exact grown_ordered hnet h
  | explicit h =>
    obtain ⟨ids, h⟩ := exists_ordered_of_explicit h
    exact grown_ordered hnet h
  | optimal h => exact (assembled_optimal hnet h).grown

end ContractionTree

end TensorNet
