import TensorNet.Proofs.Tree.Search

/-!
# The cheapest tree is the cheapest tree

With or without bounds, what `ContractionTree.optimal` makes is the canonical tree over all factors
of the network. One and two factors are not searched; there the left-to-right tree is canonical, as
there is no other tree with the least factor on the left.
-/

namespace TensorNet

open Search

variable {net : Network} {model : CostModel} {sym : String} {cap : Nat → Nat}

namespace Shape

variable {costs : List Cost}

theorem exists_solves_range (g : Gauge net costs sym cap) (hnet : net.Lawful) :
    ∃ u : Shape, u.Solves net costs (Subset.full net.numFactors) := by
  rw [← mask_leftDeep hnet.pos]
  exact exists_solves g (within_of_perm (perm_leftDeep hnet.pos))

theorem Solves.perm_range {u : Shape} (h : u.Solves net costs (Subset.full net.numFactors)) :
    u.factors.Perm (List.range net.numFactors) := h.within.perm_range h.mask

/-- Up to two factors the canonical tree takes them as they come. -/
theorem Canonical.eq_leftDeep {u : Shape} (hu : u.Canonical net costs)
    (hperm : u.factors.Perm (List.range net.numFactors)) (hn : 0 < net.numFactors)
    (h2 : net.numFactors ≤ 2) : u = leftDeep (net.numFactors - 1) := by
  have hlen := hperm.length_eq
  rw [List.length_range] at hlen
  have hmem : ∀ f ∈ u.factors, f < net.numFactors := fun f hf =>
    List.mem_range.1 (hperm.mem_iff.1 hf)
  cases hu with
  | leaf f =>
    have hf := hmem f (List.mem_singleton_self f)
    rw [length_factors_leaf] at hlen
    obtain rfl : f = 0 := by omega
    rw [← hlen]
    rfl
  | @join l r left right least cheapest first =>
    have hlpos := l.length_factors_pos
    have hrpos := r.length_factors_pos
    rw [length_factors_join] at hlen
    have hnodup := (within_of_perm hperm).disjoint
    cases left with
    | @join a b _ _ _ _ _ =>
      have := two_le_length a b
      omega
    | leaf f =>
      cases right with
      | @join a b _ _ _ _ _ =>
        have := two_le_length a b
        omega
      | leaf k =>
        have hf := hmem f (by simp [factors])
        have hk := hmem k (by simp [factors])
        have hne : f ≠ k := by
          rintro rfl
          exact hnodup f (List.mem_singleton_self f) (List.mem_singleton_self f)
        have hle : f ≤ k := by
          obtain ⟨m, hm, hmin⟩ := least
          rw [List.mem_singleton.1 hm] at hmin
          exact hmin k (.inr (List.mem_singleton_self k))
        rw [length_factors_leaf, length_factors_leaf] at hlen
        obtain rfl : f = 0 := by omega
        obtain rfl : k = 1 := by omega
        rw [← hlen]
        rfl

end Shape

namespace ContractionTree

/-- **The search makes the canonical tree**, and for three or more factors it does so from the
table, not by falling back to the left-to-right tree. -/
theorem optimal_eq (hnet : net.Lawful) (g : Gauge net (model.resolve net) sym cap)
    (hmax : net.numFactors ≤ maxSearchFactors) {u : Shape}
    (hu : u.Solves net (model.resolve net) (Subset.full net.numFactors)) (prune : Bool) :
    optimal net model prune = (do
        let last ← u.assemble net { costs := model.resolve net }
        return Assembly.finish last) ∧
      ∃ reference, leftToRight net model = .ok reference ∧
        (3 ≤ net.numFactors → ∃ t,
          solveAll ⟨model.resolve net, reference.cost, prune⟩ net = .ok t ∧
          t.choices.contains (Subset.full net.numFactors) = true) := by
  have hn := hnet.pos
  -- the left-to-right tree
  have hldw : (Shape.leftDeep (net.numFactors - 1)).Within net.numFactors :=
    Shape.within_of_perm (Shape.perm_leftDeep hn)
  obtain ⟨root, a, hld, hldc⟩ := Shape.exists_assemble_cost hnet hldw g.costs_over
  have href : leftToRight net model = .ok (Assembly.finish (root, a)) := by
    rw [leftToRight_eq, hld]
    rfl
  -- its cost is the bound
  obtain ⟨c, hc, hco, hcr, -⟩ :=
    (Shape.leftDeep (net.numFactors - 1)).cost_spec net g.costs_over
  rw [hldc] at hc
  obtain rfl := Except.ok.inj hc
  have hkept : Kept cap net ⟨model.resolve net, a.total, prune⟩ u := by
    intro _
    rw [g.rank_cost hldw hldc]
    exact hu.weight_le g hldw (Shape.mask_leftDeep hn)
  obtain ⟨t, ht, hprog⟩ := solveAll_spec (p := ⟨model.resolve net, a.total, prune⟩) g hco hcr hnet
  have hulen : u.factors.length = net.numFactors := by
    rw [hu.perm_range.length_eq, List.length_range]
  have hcontains : t.choices.contains (Subset.full net.numFactors) = true := by
    obtain ⟨k, -, hk⟩ := (hprog.known _ ⟨u, hu.within, hu.mask, hulen.le⟩ _ hu).kept hkept
    rw [hu.mask] at hk
    rw [Std.HashMap.contains_eq_isSome_getElem?, hk]
    rfl
  refine ⟨?_, _, href, fun _ => ⟨t, ht, hcontains⟩⟩
  have hnot : ¬ maxSearchFactors < net.numFactors := by omega
  simp only [optimal, hnot, if_false, href, ok_bind, pure_eq_ok]
  by_cases h2 : net.numFactors ≤ 2
  · rw [if_pos h2, hu.canonical.eq_leftDeep hu.perm_range hn h2, hld]
    rfl
  · simp only [h2, if_false, Assembly.finish, ht, ok_bind, hcontains, if_true]
    rw [rebuild_eq g hprog hu hkept hulen.le]

variable (model) in
/-- The tree that is made and its cost. -/
theorem exists_optimal (hnet : net.Lawful) (g : Gauge net (model.resolve net) sym cap)
    (hmax : net.numFactors ≤ maxSearchFactors) :
    ∃ t : ContractionTree, (∀ prune, optimal net model prune = .ok t) ∧
      t.root.shape.Solves net (model.resolve net) (Subset.full net.numFactors) ∧
      t.root.shape.cost net (model.resolve net) = .ok t.cost := by
  obtain ⟨u, hu⟩ := Shape.exists_solves_range g hnet
  obtain ⟨root, a, ha, hcost⟩ := Shape.exists_assemble_cost hnet hu.within g.costs_over
  obtain ⟨hshape, -⟩ := u.made_of_assemble hu.within.lt ha
  refine ⟨Assembly.finish (root, a), fun prune => ?_, ?_, ?_⟩
  · rw [(optimal_eq hnet g hmax hu prune).1, ha]
    rfl
  · show root.shape.Solves net (model.resolve net) _
    rwa [hshape]
  · show root.shape.cost net (model.resolve net) = .ok a.total
    rw [hshape, hcost]

/-! ### Optimality -/

/-- **No tree is cheaper than the one the search finds.** For a built network of up to thirty
factors and comparable costs the search succeeds with or without bounds. Its tree has every factor
once, the total is the sum of the costs of its joins, and no tree over the same factors, whatever
its shape and the order of its children, costs strictly less. -/
theorem optimal_cheapest {factors : List Factor} {output : Option (List Label)}
    (hbuild : Network.build factors output = .ok net)
    (hmax : net.numFactors ≤ maxSearchFactors)
    (hcosts : Comparable net (model.resolve net)) (prune : Bool) :
    ∃ t : ContractionTree, optimal net model prune = .ok t ∧
      t.root.factors.Perm (List.range net.numFactors) ∧
      t.root.shape.cost net (model.resolve net) = .ok t.cost ∧
      ∀ u : Shape, u.factors.Perm (List.range net.numFactors) →
        ∃ c, u.cost net (model.resolve net) = .ok c ∧ c.lt t.cost = .ok false := by
  obtain ⟨hnet, -⟩ := Network.lawful_of_build hbuild
  obtain ⟨sym, cap, g⟩ := hcosts.exists_gauge
  obtain ⟨t, ht, hsolves, hcost⟩ := exists_optimal model hnet g hmax
  refine ⟨t, ht prune, ?_, hcost, fun u hu => ?_⟩
  · rw [← t.root.factors_shape]
    exact hsolves.perm_range
  · have huw : u.Within net.numFactors := Shape.within_of_perm hu
    have hum : u.mask = Subset.full net.numFactors := by
      rw [← hsolves.mask]
      exact Shape.mask_eq_of_perm (hu.trans hsolves.perm_range.symm)
    have hle := hsolves.weight_le g huw hum
    obtain ⟨c, hc, hco, hcr, -⟩ := u.cost_spec net g.costs_over
    obtain ⟨d, hd, hdo, hdr, -⟩ := t.root.shape.cost_spec net g.costs_over
    rw [hcost] at hd
    obtain rfl := Except.ok.inj hd
    refine ⟨c, hc, ?_⟩
    rw [Cost.lt_of_over hco hdo hcr hdr, g.rank_cost huw hc, g.rank_cost hsolves.within hcost,
      decide_eq_false (by omega)]

/-- The product of three matrices, with extents for costs. -/
theorem optimal_cheapest_chain :
    Comparable .chain (CostModel.resolve (.ofExtents [(.int 1, 3), (.int 2, 5)]) .chain) ∧
      ∃ t : ContractionTree, optimal .chain (.ofExtents [(.int 1, 3), (.int 2, 5)]) true = .ok t ∧
        ∀ u : Shape, u.factors.Perm [0, 1, 2] → ∃ c,
          u.cost .chain (CostModel.resolve (.ofExtents [(.int 1, 3), (.int 2, 5)]) .chain) = .ok c ∧
          c.lt t.cost = .ok false := by
  have hc : Comparable .chain (CostModel.resolve (.ofExtents [(.int 1, 3), (.int 2, 5)]) .chain) :=
    .inl (by decide)
  obtain ⟨t, ht, -, -, h⟩ := optimal_cheapest Network.build_chain (by decide) hc true
  exact ⟨hc, t, ht, h⟩

/-- **Bounds do not change the answer.** With and without them the search returns the same tree.
For three or more factors it is the canonical one, read off the table in both cases. -/
theorem optimal_prune_eq {factors : List Factor} {output : Option (List Label)}
    (hbuild : Network.build factors output = .ok net)
    (hmax : net.numFactors ≤ maxSearchFactors)
    (hcosts : Comparable net (model.resolve net)) :
    ∃ t : ContractionTree, optimal net model true = .ok t ∧ optimal net model false = .ok t ∧
      (3 ≤ net.numFactors → t.root.shape.Canonical net (model.resolve net) ∧
        ∀ prune, ∃ reference table, leftToRight net model = .ok reference ∧
          solveAll ⟨model.resolve net, reference.cost, prune⟩ net = .ok table ∧
          table.choices.contains (Subset.full net.numFactors) = true) := by
  obtain ⟨hnet, -⟩ := Network.lawful_of_build hbuild
  obtain ⟨sym, cap, g⟩ := hcosts.exists_gauge
  obtain ⟨t, ht, hsolves, -⟩ := exists_optimal model hnet g hmax
  refine ⟨t, ht true, ht false, fun h3 => ⟨hsolves.canonical, fun prune => ?_⟩⟩
  obtain ⟨-, reference, href, htable⟩ := optimal_eq hnet g hmax hsolves prune
  obtain ⟨table, h⟩ := htable h3
  exact ⟨reference, table, href, h⟩

theorem optimal_prune_eq_chain :
    Comparable .chain (CostModel.resolve (.ofExtents [(.int 1, 3), (.int 2, 5)]) .chain) ∧
      ∃ t : ContractionTree, optimal .chain (.ofExtents [(.int 1, 3), (.int 2, 5)]) true = .ok t ∧
        optimal .chain (.ofExtents [(.int 1, 3), (.int 2, 5)]) false = .ok t ∧
        t.root.shape.Canonical .chain
          (CostModel.resolve (.ofExtents [(.int 1, 3), (.int 2, 5)]) .chain) := by
  have hc : Comparable .chain (CostModel.resolve (.ofExtents [(.int 1, 3), (.int 2, 5)]) .chain) :=
    .inl (by decide)
  obtain ⟨t, h1, h2, h3⟩ := optimal_prune_eq Network.build_chain (by decide) hc
  exact ⟨hc, t, h1, h2, (h3 (by decide)).1⟩

end ContractionTree

end TensorNet
