import Mathlib
import TensorNet.Plan.Basic
import TensorNet.Proofs.Tree.Renaming

/-!
# Plans under other names

Planning treats labels as labels: it asks whether two are equal, and where a label stands, but never
which of two comes first or what a label is made of. So a plan depends on the graph of its network
alone. Renaming all labels, in the factors, in the output, in the order and in the costs, gives the
same plan with its labels renamed, and a failure becomes the same failure of the renamed label
(`create_renamed`).

The strategies that look at the signs of labels are the exception: whether integers follow the sign
convention, and in which order they contract, is a matter of what the labels are.

The steps of a plan are positions of axes. Those that the lowering finds by looking for a label in a
list of labels are the same for renamed lists (`positions_rename`, `pairsFrom_rename`), and so every
node is lowered to the same steps.
-/

namespace TensorNet

variable {f : Label → Label} {net net' : Network}

/-! ### What nodes are lowered to -/

/-- The value with the labels of its axes renamed. -/
def Located.rename (f : Label → Label) (v : Located) : Located :=
  { v with labels := v.labels.map f }

/-- The temporary with the labels of its axes renamed. -/
def TemporarySpec.rename (f : Label → Label) (t : TemporarySpec) : TemporarySpec :=
  { t with labels := t.labels.map f }

/-- The same steps, with the labels of all temporaries and of the result renamed. -/
def Lowered.rename (f : Label → Label) (x : Lowered) : Lowered :=
  ⟨x.steps, x.temporaries.map (TemporarySpec.rename f), x.result.rename f⟩

namespace Lowering

theorem openAxes_rename (v : Located) (axes : List Nat) :
    openAxes (v.rename f) axes = (openAxes v axes).map (Prod.map f id) := by
  have hzip : (v.rename f).labels.zip (v.rename f).extents =
      (v.labels.zip v.extents).map (Prod.map f id) := List.zip_map_left
  rw [openAxes, hzip, List.zipIdx_map, List.filter_map, List.map_map, openAxes, List.map_map]
  rfl

theorem map_fst_renamed (axes : List (Label × (Nat × Nat))) :
    (axes.map (Prod.map f id)).map (·.1) = (axes.map (·.1)).map f := by
  rw [List.map_map, List.map_map]
  rfl

theorem snd_getD_renamed (axes : List (Label × (Nat × Nat))) (k : Nat) :
    ((axes.map (Prod.map f id)).getD k default).2 = (axes.getD k default).2 := by
  rw [List.getD_eq_getElem?_getD, List.getElem?_map, List.getD_eq_getElem?_getD]
  cases axes[k]? with
  | none => rfl
  | some x => rfl

theorem emit_rename (id : Nat) (isRoot : Bool) (action : Action Operand) (perm : List Nat)
    (labels : List Label) (extents : List (Nat × Nat)) :
    emit id isRoot action perm (labels.map f) extents =
      (emit id isRoot action perm labels extents).rename f := by
  cases isRoot with
  | true => rfl
  | false => rfl

theorem readInput_rename (x : Factor) (i : Nat) :
    readInput (x.rename f) i = (readInput x i).rename f := by
  unfold readInput
  rw [Factor.rank_rename]
  rfl

section

variable (hf : f.Injective) (h : Network.Renamed f net net')

include h in
/-- The labels of a result: those of the output at the root. -/
theorem resultLabels_rename (isRoot : Bool) (labels : List Label) :
    (if isRoot then net'.output else labels.map f) =
      (if isRoot then net.output else labels).map f := by
  cases isRoot with
  | true => exact h.output
  | false => rfl

include hf

theorem positions_rename (labels among : List Label) :
    positions (labels.map f) (among.map f) = positions labels among := by
  have hpos : (among.map f).idxOf? ∘ f = among.idxOf? := funext fun l => idxOf?_map hf l among
  rw [positions, List.filterMap_map, hpos, positions]

theorem pairsFrom_rename (k : Nat) (ls : List Label) :
    pairsFrom k (ls.map f) = pairsFrom k ls := by
  induction ls generalizing k with
  | nil => rfl
  | cons l ls ih =>
    rw [List.map_cons, pairsFrom, idxOf?_map hf, pairsFrom]
    split
    · rw [ih]
    · rw [ih]

include h

theorem traceInput_rename (x : Factor) (i id : Nat) (isRoot : Bool) (pairs : List (Nat × Nat)) :
    traceInput net' (x.rename f) i id isRoot pairs =
      (traceInput net x i id isRoot pairs).rename f := by
  have hkept : (keptAxes x.rank pairs).map (fun axis => (x.labels.map f).getD axis default) =
      ((keptAxes x.rank pairs).map fun axis => x.labels.getD axis default).map f := by
    rw [List.map_map]
    refine List.map_congr_left fun axis ha => getD_map_of_lt ?_ _ _
    exact List.mem_range.1 (List.mem_of_mem_filter ha)
  unfold traceInput
  dsimp only
  rw [Factor.rank_rename, Factor.labels_rename, hkept, resultLabels_rename h,
    positions_rename hf, emit_rename, Factor.conj_rename]

theorem lowerLeaf_rename (id i : Nat) (isRoot : Bool) :
    lowerLeaf net' id i isRoot = (lowerLeaf net id i isRoot).rename f := by
  unfold lowerLeaf
  dsimp only
  rw [h.factor, Factor.labels_rename, pairsFrom_rename hf]
  split
  · exact readInput_rename _ i
  · exact traceInput_rename hf h _ i id isRoot _

theorem joinResults_rename (id : Nat) (a b : Located) (contracted : List Label) (isRoot : Bool) :
    joinResults net' id (a.rename f) (b.rename f) (contracted.map f) isRoot =
      (joinResults net id a b contracted isRoot).rename f := by
  have hpos : ∀ v : Located, positions (contracted.map f) (v.rename f).labels =
      positions contracted v.labels := fun v => positions_rename hf contracted v.labels
  unfold joinResults
  dsimp only
  rw [hpos, hpos, openAxes_rename, openAxes_rename, ← List.map_append, map_fst_renamed,
    resultLabels_rename h, positions_rename hf, emit_rename]
  simp only [snd_getD_renamed]
  rfl

/-- **A renamed node is lowered to the same steps**, and its values are the renamed ones. -/
theorem lowerNode_rename (isRoot : Bool) (t : TreeNode) :
    lowerNode net' isRoot (t.rename f) = (lowerNode net isRoot t).rename f := by
  induction t generalizing isRoot with
  | leaf id i s => exact lowerLeaf_rename hf h id i isRoot
  | join id l r cs c s ihl ihr =>
    rw [TreeNode.rename, lowerNode, ihl, ihr, lowerNode]
    simp only [Lowered.rename, joinResults_rename hf h, List.map_append]

end

end Lowering

/-- **The steps of the renamed tree are the same**, and its temporaries are the renamed ones. -/
theorem ContractionTree.lower_rename (hf : f.Injective) (h : Network.Renamed f net net')
    (t : ContractionTree) : (t.rename f).lower net' =
      ((t.lower net).1, (t.lower net).2.map (TemporarySpec.rename f)) := by
  have hcopy : ∀ v : Located, Lowering.copyOut net' (v.rename f) = Lowering.copyOut net v := by
    intro v
    rw [Lowering.copyOut, h.output]
    exact congrArg (Instruction.mk _ _ · _ _) (Lowering.positions_rename hf net.output v.labels)
  unfold lower
  dsimp only
  rw [ContractionTree.rename, Lowering.lowerNode_rename hf h]
  simp only [Lowered.rename, hcopy]
  by_cases hdst : (Lowering.lowerNode net true t.root).result.source.operand = .destination
  · rw [if_pos hdst]
    exact if_pos hdst
  · rw [if_neg hdst]
    exact if_neg hdst

/-! ### The same settings under other names -/

/-- The strategy that makes the same choices for renamed labels. Those that look at the signs of
labels have none. -/
inductive Strategy.Renamed (f : Label → Label) : Strategy → Strategy → Prop
  | optimal : Renamed f .optimal .optimal
  | leftToRight : Renamed f .leftToRight .leftToRight
  | explicit (order : List Label) : Renamed f (.explicit order) (.explicit (order.map f))

/-- **Settings and their renamed copy**: the orders name the same labels, a renamed label costs what
the label does, the flags are the same, and the identity of the plan is fixed. -/
structure PlanConfig.Renamed (f : Label → Label) (config config' : PlanConfig) : Prop where
  strategy : config.strategy.Renamed f config'.strategy
  costOf : ∀ l, (config'.costModel.getD .standard).costOf (f l) =
    (config.costModel.getD .standard).costOf l
  conjugate : config'.conjugate = config.conjugate
  prune : config'.prune = config.prune
  planId : ∃ id, config.planId = some id ∧ config'.planId = some id

namespace CostModel

/-- The model that gives the renamed labels the costs of the labels. -/
def rename (f : Label → Label) (m : CostModel) : CostModel :=
  ⟨m.costs.map (Prod.map f id), m.rest⟩

/-- There is a renamed copy of every model. -/
theorem costOf_rename (hf : f.Injective) (m : CostModel) (l : Label) :
    (m.rename f).costOf (f l) = m.costOf l := by
  have hlookup : ∀ costs : List (Label × Cost),
      (costs.map (Prod.map f id)).lookup (f l) = costs.lookup l := by
    intro costs
    induction costs with
    | nil => rfl
    | cons x costs ih =>
      rw [List.map_cons, List.lookup_cons, Prod.map_fst, hf.beq_eq, ih, List.lookup_cons]
      rfl
  exact congrArg (·.getD m.rest) (hlookup m.costs)

theorem resolve_renamed {m m' : CostModel} (hm : ∀ l, m'.costOf (f l) = m.costOf l)
    (h : Network.Renamed f net net') : m'.resolve net' = m.resolve net := by
  rw [resolve, h.labels, List.map_map, resolve]
  exact List.map_congr_left fun l _ => hm l

end CostModel

/-! ### Plans -/

/-- **A plan and its renamed copy**: the same tree, steps and temporaries, with the labels of the
network, those summed at the joins and those of the temporaries renamed. -/
structure Plan.Renamed (f : Label → Label) (p p' : Plan) : Prop where
  id : p'.id = p.id
  network : p.network.Renamed f p'.network
  tree : p'.tree = p.tree.rename f
  steps : p'.steps = p.steps
  temporaries : p'.temporaries = p.temporaries.map (TemporarySpec.rename f)

namespace Plan

variable {config config' : PlanConfig}

theorem agree_chooseTree (hf : f.Injective) (hc : config.Renamed f config')
    (h : Network.Renamed f net net') :
    Agree f (ContractionTree.Renamed f)
      (chooseTree net (config.costModel.getD .standard) config.prune (resolveStrategy net config))
      (chooseTree net' (config'.costModel.getD .standard) config'.prune
        (resolveStrategy net' config')) := by
  have hm := CostModel.resolve_renamed hc.costOf h
  have hs := hc.strategy
  unfold resolveStrategy
  rw [hc.prune]
  generalize config.strategy = s at hs ⊢
  generalize config'.strategy = s' at hs ⊢
  cases hs with
  | optimal => exact ContractionTree.agree_optimal hf h hm config.prune
  | leftToRight => exact ContractionTree.agree_leftToRight hf h hm
  | explicit order => exact ContractionTree.agree_explicit hf h hm order

/-- **Planning agrees under a renaming** of a network and the settings. -/
theorem agree_create (hf : f.Injective) (hc : config.Renamed f config')
    (h : Network.Renamed f net net') (ids ids' : PlanIds) :
    Agree f (fun x x' => x.1.Renamed f x'.1 ∧ x.2 = ids ∧ x'.2 = ids')
      (create ids net config) (create ids' net' config') := by
  have hnet : Network.Renamed f (if config.conjugate then net.conjugated else net)
      (if config'.conjugate then net'.conjugated else net') := by
    rw [hc.conjugate]
    split
    · exact h.conjugated
    · exact h
  obtain ⟨id, hid, hid'⟩ := hc.planId
  unfold create
  dsimp only
  rw [hid, hid']
  refine (agree_chooseTree hf hc hnet).bind ?_
  rintro tree _ rfl
  rw [ContractionTree.lower_rename hf hnet]
  exact .ok ⟨⟨rfl, hnet, rfl, rfl, rfl⟩, rfl, rfl⟩

/-- **A plan depends on the labels only by where they stand.** Under every renaming, with the output
given and the same settings for the renamed labels, a network is built and planned exactly if its
renamed copy is; a failure is the same failure of the renamed label, and a plan is the same plan
with its labels renamed. -/
theorem create_renamed (hf : f.Injective) (hc : config.Renamed f config') (factors : List Factor)
    (output : List Label) (ids ids' : PlanIds) :
    Agree f (fun x x' => x.1.Renamed f x'.1 ∧ x.2 = ids ∧ x'.2 = ids')
      (Network.build factors (some output) >>= fun net => create ids net config)
      (Network.build (factors.map (Factor.rename f)) (some (output.map f)) >>= fun net =>
        create ids' net config') :=
  (Network.agree_build hf factors output).bind fun _ _ h => agree_create hf hc h ids ids'

/-- Exchanges an integer with a name, and another integer with another name. -/
def exchange : Label ≃ Label :=
  (Equiv.swap (.int 1) (.name "a")).trans (Equiv.swap (.int (-1)) (.name "row"))

/-- An order of the chain whose contracted labels cost three and five steps. -/
def chainOrder : PlanConfig where
  strategy := .explicit [.int 2, .int 1]
  costModel := some (.ofExtents [(.int 1, 3), (.int 2, 5)])
  conjugate := true
  planId := some 7

/-- The same order with one label renamed. -/
def namedOrder : PlanConfig where
  strategy := .explicit [.int 2, .name "a"]
  costModel := some (.ofExtents [(.name "a", 3), (.int 2, 5)])
  conjugate := true
  planId := some 7

theorem renamed_chainOrder : chainOrder.Renamed exchange namedOrder where
  strategy := .explicit [.int 2, .int 1]
  costOf := by
    have hmodel : CostModel.ofExtents [(.name "a", 3), (.int 2, 5)] =
        (CostModel.ofExtents [(.int 1, 3), (.int 2, 5)]).rename exchange := by decide
    intro l
    show (CostModel.ofExtents [(.name "a", 3), (.int 2, 5)]).costOf _ = _
    rw [hmodel]
    exact CostModel.costOf_rename exchange.injective _ l
  conjugate := rfl
  prune := rfl
  planId := ⟨7, rfl, rfl⟩

/-- A plan for the chain in this order. -/
def orderedChain : Plan := ((create {} .chain chainOrder).toOption.map (·.1)).getD default

theorem create_orderedChain : create {} .chain chainOrder = .ok (orderedChain, {}) := by cbv

/-- The chain is planned under other names as it is under its own. -/
theorem create_renamed_chain : Function.Injective exchange ∧ chainOrder.Renamed exchange namedOrder ∧
    create {} .chain chainOrder = .ok (orderedChain, {}) ∧
    ∃ p, (Network.build [{ labels := [.name "row", .name "a"] },
          { labels := [.name "a", .int 2] }, { labels := [.int 2, .int (-2)] }]
        (some [.name "row", .int (-2)]) >>= fun net => create ⟨2⟩ net namedOrder) = .ok (p, ⟨2⟩) ∧
      orderedChain.Renamed exchange p := by
  refine ⟨exchange.injective, renamed_chainOrder, create_orderedChain, ?_⟩
  have hagree := create_renamed exchange.injective renamed_chainOrder Network.chain.factors
    Network.chain.output {} ⟨2⟩
  have hfactors : Network.chain.factors.map (Factor.rename exchange) =
      [{ labels := [.name "row", .name "a"] }, { labels := [.name "a", .int 2] },
        { labels := [.int 2, .int (-2)] }] := by decide
  have houtput : Network.chain.output.map exchange = [.name "row", .int (-2)] := by decide
  rw [hfactors, houtput, Network.build_chain, ok_bind] at hagree
  obtain ⟨⟨p, ids⟩, hp, hrenamed, -, rfl⟩ := hagree.exists_ok create_orderedChain
  exact ⟨p, hp, hrenamed⟩

end Plan

end TensorNet
