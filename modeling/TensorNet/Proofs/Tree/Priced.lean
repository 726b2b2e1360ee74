import TensorNet.Proofs.Tree.Fallback
import TensorNet.Tree.Ordered

/-!
# Trees of costs in one variable

Costs in one variable can always be added and multiplied, and the result is in this variable again.
So a tree is always made that has only to be priced: an order of labels is followed to the end
(`ContractionTree.exists_ordered_of_over`), and the search for the cheapest tree comes back with one, with
or without bounds (`ContractionTree.exists_optimal_of_over`).
-/

namespace TensorNet

namespace Assembly

/-- The costs of an assembly are in one variable: those of the labels, and the total so far. -/
structure Over (s : String) (a : Assembly) : Prop where
  costs : ∀ c ∈ a.costs, c.Over s
  total : a.total.Over s

variable {net : Network} {s : String} {a : Assembly}

theorem over_new {costs : List Cost} (h : ∀ c ∈ costs, c.Over s) :
    Over s ({ costs } : Assembly) := ⟨h, Cost.over_zero s⟩

variable (net) in
theorem Over.exists_join (h : a.Over s) (l r : TreeNode) :
    ∃ t a', a.join net l r = .ok (t, a') ∧ a'.Over s := by
  obtain ⟨c, hc, hco, -⟩ := exists_joinCost h.costs l.openSet r.openSet
  obtain ⟨total, ht, hto, -⟩ := Cost.add_of_over h.total hco
  refine ⟨.join a.next l r ((l.openSet.inter r.openSet).toList.map net.label) c
    (l.openSet.symmDiff r.openSet), { a with next := a.next + 1, total }, ?_, h.costs, hto⟩
  rw [join, hc, ok_bind, ht, ok_bind]
  rfl

variable (net) in
theorem Over.exists_joinAll {t : TreeNode} (h : a.Over s) (ts : List TreeNode) :
    ∃ last, joinAll net (t, a) ts = .ok last := by
  obtain ⟨last, hlast, -⟩ := exists_foldlM (l := ts)
    (f := fun acc t => acc.2.join net acc.1 t) (fun _ acc => acc.2.Over s)
    (fun _ t _ acc _ hacc => by
      obtain ⟨t', a', hj, ha'⟩ := hacc.exists_join net acc.1 t
      exact ⟨(t', a'), hj, ha'⟩) (c := (t, a)) h
  exact ⟨last, hlast⟩

end Assembly

namespace Components

variable {net : Network} {s : String} {c : Components}

theorem state_leaves_over {a : Assembly} (fs : List Nat) (h : a.Over s) :
    (leaves net fs a).state.Over s := by
  induction fs generalizing a with
  | nil => exact h
  | cons f fs ih => exact ih ⟨h.costs, h.total⟩

theorem exists_contract (h : c.state.Over s) (id : Nat) :
    ∃ c', c.contract net id = .ok c' ∧ c'.state.Over s := by
  unfold contract connect
  split
  · next p q _ =>
    dsimp only
    split
    · exact ⟨c, rfl, h⟩
    · obtain ⟨t, a, hj, ha⟩ :=
        h.exists_join net (c.componentOf p.factor) (c.componentOf q.factor)
      exact ⟨_, by rw [hj]; rfl, ha⟩
  · exact ⟨c, rfl, h⟩

variable (net) in
theorem exists_joinRest (h : c.state.Over s) : ∃ t, c.joinRest net = .ok t := by
  unfold joinRest
  split
  · exact ⟨_, rfl⟩
  · next t ts _ =>
    obtain ⟨last, hlast⟩ := h.exists_joinAll net (t := t) ts
    exact ⟨Assembly.finish last, by rw [hlast]; rfl⟩

end Components

namespace ContractionTree

open Search

variable {net : Network} {model : CostModel} {s : String}
  (hcosts : ∀ c ∈ model.resolve net, c.Over s)
include hcosts

/-- **Every order is followed to the end.** -/
theorem exists_ordered_of_over (ids : List Nat) : ∃ t, ordered net model ids = .ok t := by
  obtain ⟨c, hc, ho⟩ := exists_foldlM (l := ids) (f := Components.contract net)
    (fun _ c => c.state.Over s)
    (fun _ id _ c _ h => Components.exists_contract h id)
    (Components.state_leaves_over (List.range net.numFactors) (Assembly.over_new hcosts))
  obtain ⟨t, ht⟩ := Components.exists_joinRest net ho
  exact ⟨t, by rw [ordered, hc, ok_bind, ht]⟩

/-- **The search comes back with a tree** if it is not asked for too many factors. -/
theorem exists_optimal_of_over (hnet : net.Lawful) (hmax : net.numFactors ≤ maxSearchFactors)
    (prune : Bool) : ∃ t, optimal net model prune = .ok t := by
  obtain ⟨reference, href, hro, hrr⟩ := exists_leftToRight hnet hcosts
  simp only [optimal, Nat.not_lt.2 hmax, if_false, href, ok_bind, pure_eq_ok]
  by_cases h2 : net.numFactors ≤ 2
  · exact ⟨reference, if_pos h2⟩
  obtain ⟨table, htable, hfilled⟩ := exists_filled (p := ⟨model.resolve net, reference.cost, prune⟩)
    hcosts hro hrr hnet
  simp only [h2, if_false, htable, ok_bind]
  split
  · next hall =>
    rw [Std.HashMap.contains_eq_isSome_getElem?] at hall
    obtain ⟨c, hc⟩ := Option.isSome_iff_exists.1 hall
    obtain ⟨-, last, -, -, -, hread, -⟩ := exists_read hnet hcosts hfilled hc
    exact ⟨Assembly.finish last, by rw [hread]; rfl⟩
  · exact ⟨reference, rfl⟩

end ContractionTree

end TensorNet
