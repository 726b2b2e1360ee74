import TensorNet.Proofs.Cost.NormalForm
import TensorNet.Proofs.Tree.Renaming
import TensorNet.Proofs.Tree.Totals

/-!
# Trees under other costs of labels

The costs of the labels are only ever looked at to price a join. So two models under which every
join has the same price lead to the same trees, with the same costs at every node, or to the same
failure. Here is how this goes through each way of making a tree: an assembly with the one costs
and an assembly with the others stay alike (`Assembly.Repriced`), and the search fills one table.

Main statement: planning does not depend on whether costs are in normal form. A join has the same
price for costs in one variable and for their normal forms, and all prices and totals are normal.

Two computations that do the same, with related results, agree under the renaming that leaves all
labels as they are.
-/

namespace TensorNet

variable {net : Network}

/-! ### Agreement with all labels as they are -/

@[simp] theorem Error.rename_id (e : Error) : e.rename id = e := by
  cases e with
  | invalidOrder fault => cases fault <;> rfl
  | _ => rfl

namespace Agree

variable {α : Type}

theorem refl (x : Except Error α) : Agree id Eq x x := by
  cases x with
  | ok a => exact .ok rfl
  | error e =>
    have h : Agree id Eq (.error e : Except Error α) (.error (e.rename id)) := .error e
    rwa [Error.rename_id] at h

theorem eq {x y : Except Error α} (h : Agree id Eq x y) : x = y := by
  cases h with
  | ok h => rw [h]
  | error e => rw [Error.rename_id]

end Agree

/-! ### Putting a tree together -/

/-- Every join has the same price. -/
def SamePrices (costs costs' : List Cost) : Prop :=
  ∀ a b : LabelSet, joinCost costs' a b = joinCost costs a b

namespace Assembly

/-- The same assembly, with other costs of the labels that give every join the same price. -/
structure Repriced (a a' : Assembly) : Prop where
  next : a'.next = a.next
  total : a'.total = a.total
  prices : SamePrices a.costs a'.costs

/-- The same node, at assemblies that are alike. -/
structure Alike (x y : TreeNode × Assembly) : Prop where
  node : y.1 = x.1
  state : x.2.Repriced y.2

variable {a a' : Assembly} {x y : TreeNode × Assembly}

theorem Repriced.leaf (h : a.Repriced a') (f : Nat) : Alike (a.leaf net f) (a'.leaf net f) := by
  refine ⟨?_, ⟨?_, h.total, h.prices⟩⟩
  · show TreeNode.leaf a'.next f _ = TreeNode.leaf a.next f _
    rw [h.next]
  · show a'.next + 1 = a.next + 1
    rw [h.next]

/-- **A join is made alike**: it has the same price, and so has what has been made so far. -/
theorem Repriced.join (h : a.Repriced a') (l r : TreeNode) :
    Agree id Alike (a.join net l r) (a'.join net l r) := by
  unfold Assembly.join
  rw [h.prices, h.total, h.next]
  refine (Agree.refl _).bind ?_
  rintro cost _ rfl
  refine (Agree.refl _).bind ?_
  rintro total _ rfl
  exact .ok ⟨rfl, rfl, rfl, h.prices⟩

theorem Alike.joinLeaf (h : Alike x y) (f : Nat) :
    Agree id Alike (joinLeaf net x f) (joinLeaf net y f) := by
  have hleaf : Alike (x.2.leaf net f) (y.2.leaf net f) := h.state.leaf f
  unfold Assembly.joinLeaf
  dsimp only
  rw [h.node, hleaf.node]
  exact hleaf.state.join _ _

theorem Alike.joinAll (h : Alike x y) (ts : List TreeNode) :
    Agree id Alike (joinAll net x ts) (joinAll net y ts) := by
  refine Agree.foldlM (fun x y t _ h => ?_) h
  rw [h.node]
  exact h.state.join _ _

theorem Alike.finish (h : Alike x y) : finish x = finish y := by
  rw [Assembly.finish, Assembly.finish, h.node, h.state.total]

end Assembly

/-! ### Components -/

namespace Components

/-- The same components, at assemblies that are alike. -/
structure Alike (c c' : Components) : Prop where
  held : c'.held = c.held
  state : c.state.Repriced c'.state

variable {c c' : Components}

theorem alike_leaves (fs : List Nat) {a a' : Assembly} (h : a.Repriced a') :
    Alike (leaves net fs a) (leaves net fs a') := by
  obtain ⟨hheld, hstate⟩ := leaves_eq net fs a
  obtain ⟨hheld', hstate'⟩ := leaves_eq net fs a'
  refine ⟨by rw [hheld, hheld', h.next], ?_⟩
  rw [hstate, hstate']
  exact ⟨by rw [h.next], h.total, h.prices⟩

theorem Alike.connect (h : Alike c c') (f g : Nat) :
    Agree id Alike (c.connect net f g) (c'.connect net f g) := by
  unfold Components.connect Components.componentOf
  dsimp only
  rw [h.held]
  split
  · exact .ok h
  · refine (h.state.join _ _).bind ?_
    rintro ⟨joined, s⟩ ⟨_, s'⟩ ⟨rfl, hs⟩
    exact .ok ⟨rfl, hs⟩

theorem Alike.contract (h : Alike c c') (label : Nat) :
    Agree id Alike (c.contract net label) (c'.contract net label) := by
  unfold Components.contract
  split
  · exact h.connect _ _
  · exact .ok h

theorem Alike.joinRest (h : Alike c c') : c.joinRest net = c'.joinRest net := by
  unfold Components.joinRest
  rw [h.held, h.state.total]
  cases distinct [] c.held with
  | nil => rfl
  | cons t rest =>
    have hfirst : Assembly.Alike (t, c.state) (t, c'.state) := ⟨rfl, h.state⟩
    refine ((hfirst.joinAll rest).bind fun x y hxy => ?_).eq
    rw [hxy.finish]
    exact .refl _

end Components

/-! ### The search -/

namespace Search

variable {costs costs' : List Cost} (h : SamePrices costs costs') (bound : Cost) (prune : Bool)
include h

/-- **The search fills one table.** -/
theorem solveAll_repriced : solveAll ⟨costs', bound, prune⟩ net =
    solveAll ⟨costs, bound, prune⟩ net := by
  have hconsider : consider ⟨costs', bound, prune⟩ = consider ⟨costs, bound, prune⟩ := by
    funext t best l r
    have hjoin : joinCost ⟨costs', bound, prune⟩ t l r = joinCost ⟨costs, bound, prune⟩ t l r := by
      unfold joinCost
      split
      · exact h _ _
      · rfl
    unfold consider
    rw [hjoin]
    rfl
  have hsolve : solve ⟨costs', bound, prune⟩ = solve ⟨costs, bound, prune⟩ := by
    funext t s
    unfold solve best
    rw [hconsider]
  unfold solveAll solveSize
  rw [hsolve]

omit h in
/-- A tree is read off a table alike. -/
theorem rebuild_repriced (t : Table) (depth s : Nat) {a a' : Assembly} (ha : a.Repriced a') :
    Agree id Assembly.Alike (rebuild net t depth s a) (rebuild net t depth s a') := by
  induction depth generalizing s a a' with
  | zero => exact .unlabelled unlabelled_unsolved
  | succ depth ih =>
    unfold rebuild
    split
    · exact .ok (ha.leaf _)
    · cases t.choices[s]? with
      | none => exact .unlabelled unlabelled_unsolved
      | some c =>
        refine (ih c.left ha).bind ?_
        rintro ⟨l, b⟩ ⟨_, b'⟩ ⟨rfl, hb⟩
        refine (ih (s ^^^ c.left) hb).bind ?_
        rintro ⟨r, d⟩ ⟨_, d'⟩ ⟨rfl, hd⟩
        exact hd.join _ _

end Search

/-! ### The trees of a network -/

namespace ContractionTree

section

variable {m m' : CostModel} (h : SamePrices (m.resolve net) (m'.resolve net))
include h

theorem leftToRight_repriced : leftToRight net m' = leftToRight net m := by
  have hstart : ({ costs := m.resolve net } : Assembly).Repriced { costs := m'.resolve net } :=
    ⟨rfl, rfl, h⟩
  unfold leftToRight
  refine (Agree.bind (Agree.foldlM (fun x y f _ hxy => hxy.joinLeaf f) (hstart.leaf 0)) ?_).eq.symm
  intro x y hxy
  rw [hxy.finish]
  exact .refl _

theorem ordered_repriced (ids : List Nat) : ordered net m' ids = ordered net m ids := by
  have hstart : ({ costs := m.resolve net } : Assembly).Repriced { costs := m'.resolve net } :=
    ⟨rfl, rfl, h⟩
  unfold ordered
  refine (Agree.bind (Agree.foldlM (fun c c' i _ hc => hc.contract i)
    (Components.alike_leaves _ hstart)) ?_).eq.symm
  intro c c' hc
  rw [hc.joinRest]
  exact .refl _

theorem bySign_repriced : bySign net m' = bySign net m := ordered_repriced h _

theorem explicit_repriced (order : List Label) : explicit net order m' = explicit net order m := by
  unfold explicit
  simp only [ordered_repriced h]

theorem optimal_repriced (prune : Bool) : optimal net m' prune = optimal net m prune := by
  have hstart : ({ costs := m.resolve net } : Assembly).Repriced { costs := m'.resolve net } :=
    ⟨rfl, rfl, h⟩
  have hread : ∀ t : Search.Table,
      (do return Assembly.finish (← Search.rebuild net t net.numFactors
        (Subset.full net.numFactors) { costs := m'.resolve net })) =
      (do return Assembly.finish (← Search.rebuild net t net.numFactors
        (Subset.full net.numFactors) { costs := m.resolve net })) := by
    intro t
    refine ((Search.rebuild_repriced t _ _ hstart).bind fun x y hxy => ?_).eq.symm
    rw [hxy.finish]
    exact .refl _
  unfold optimal
  simp only [leftToRight_repriced h, Search.solveAll_repriced h, hread]

end

/-! ### Costs that are not in normal form -/

section

variable {model : CostModel} {s : String} (hcosts : ∀ c ∈ model.resolve net, c.Over s)
include hcosts

theorem samePrices_normalized :
    SamePrices (model.resolve net) (model.normalized.resolve net) := by
  intro a b
  rw [CostModel.resolve_normalized]
  exact joinCost_normalForm hcosts a b

theorem normalIn_normalized : ∀ c ∈ model.normalized.resolve net, c.NormalIn s := by
  rw [CostModel.resolve_normalized]
  intro c hc
  obtain ⟨d, hd, rfl⟩ := List.mem_map.1 hc
  exact Cost.normalIn_normalForm (hcosts d hd)

theorem Chosen.normalized {t : ContractionTree} (ht : t.Chosen net model) :
    t.Chosen net model.normalized := by
  have h := samePrices_normalized hcosts
  cases ht with
  | leftToRight ht => exact .leftToRight ((leftToRight_repriced h).trans ht)
  | bySign ht => exact .bySign ((bySign_repriced h).trans ht)
  | explicit ht => exact .explicit ((explicit_repriced h _).trans ht)
  | optimal ht => exact .optimal ((optimal_repriced h _).trans ht)

/-- The costs of a tree are normal, whatever those of the labels are. -/
theorem Chosen.normalIn (hnet : net.Lawful) {t : ContractionTree} (ht : t.Chosen net model) :
    t.cost.NormalIn s ∧ ∀ c ∈ t.nodes.filterMap TreeNode.cost?, c.NormalIn s := by
  have ht' := ht.normalized hcosts
  have hproper := ht'.proper hnet
  have hnodes : ∀ c ∈ t.nodes.filterMap TreeNode.cost?, c.NormalIn s := fun c hc =>
    Cost.normalIn_of_join (normalIn_normalized hcosts) hproper (List.mem_filterMap.1 hc)
  exact ⟨Cost.normalIn_of_sum hnodes ((ht'.grown hnet).wellFormed hproper hnet).total, hnodes⟩

end

/-- **Planning does not depend on whether costs are in normal form.** For costs in one variable,
every way of making a tree returns the same, tree or failure, as for their normal forms, and the
total and the costs of all nodes are in normal form. -/
theorem planned_normalized {factors : List Factor} {output : Option (List Label)}
    (hbuild : Network.build factors output = .ok net) {model : CostModel} {s : String}
    (hcosts : ∀ c ∈ model.resolve net, c.Over s) :
    leftToRight net model.normalized = leftToRight net model ∧
      bySign net model.normalized = bySign net model ∧
      (∀ order, explicit net order model.normalized = explicit net order model) ∧
      (∀ prune, optimal net model.normalized prune = optimal net model prune) ∧
      ∀ t : ContractionTree, t.Chosen net model →
        t.cost.NormalIn s ∧ ∀ c ∈ t.nodes.filterMap TreeNode.cost?, c.NormalIn s := by
  obtain ⟨hnet, -⟩ := Network.lawful_of_build hbuild
  have h := samePrices_normalized hcosts
  exact ⟨leftToRight_repriced h, bySign_repriced h, explicit_repriced h, optimal_repriced h,
    fun t ht => ht.normalIn hcosts hnet⟩

/-- The product of three matrices, with a cost that has a zero term and costs that are polynomials
without a variable. -/
theorem planned_normalized_chain :
    ∃ (model : CostModel) (t : ContractionTree),
      model = ⟨[(.int 1, .polynomial ⟨"χ", .ofSum [(0, 0), (1, 2)]⟩)],
        .polynomial ⟨"χ", .ofSum [(0, 3)]⟩⟩ ∧
      model.normalized = ⟨[(.int 1, .power "χ" 2 1)], .integer 3⟩ ∧
      leftToRight .chain model = .ok t ∧ leftToRight .chain model.normalized = .ok t ∧
      (∀ prune, optimal .chain model.normalized prune = optimal .chain model prune) ∧
      t.cost = .ofTerms "χ" [(1, 18), (0, 27)] ∧ t.cost.NormalIn "χ" := by
  obtain ⟨model, hm⟩ : ∃ m : CostModel, m = ⟨[(.int 1, .polynomial ⟨"χ", .ofSum [(0, 0), (1, 2)]⟩)],
    .polynomial ⟨"χ", .ofSum [(0, 3)]⟩⟩ := ⟨_, rfl⟩
  have hcosts : ∀ c ∈ model.resolve .chain, c.Over "χ" := by
    intro c hc
    obtain ⟨l, -, rfl⟩ := List.mem_map.1 hc
    rw [hm, CostModel.costOf, List.lookup_cons]
    split
    · exact Cost.over_symbol _
    · exact Cost.over_symbol _
  obtain ⟨hltr, -, -, hopt, hnormal⟩ := planned_normalized Network.build_chain hcosts
  have hcost : (leftToRight .chain model).map ContractionTree.cost =
      .ok (.ofTerms "χ" [(1, 18), (0, 27)]) := by
    rw [hm]
    cbv
  cases ht : leftToRight .chain model with
  | error e =>
    rw [ht] at hcost
    cases hcost
  | ok t =>
    rw [ht] at hcost hltr
    refine ⟨model, t, hm, ?_, ht, hltr, hopt, Except.ok.inj hcost,
      (hnormal t (.leftToRight ht)).1⟩
    rw [hm]
    decide

end ContractionTree

end TensorNet
