import TensorNet.Network.Build
import TensorNet.Plan.Config
import TensorNet.Plan.Lowering
import TensorNet.Tree.Optimal
import TensorNet.Tree.Ordered

/-!
# Plans

A plan is a network with a contraction tree and the steps that the tree is lowered to. It can be
carried out any number of times, on any tensors that fit the network.
-/

namespace TensorNet

/-- A network ready to be contracted. -/
structure Plan where
  /-- What tells the temporaries of one plan from those of another. -/
  id : UInt64
  network : Network
  tree : ContractionTree
  steps : List Instruction
  /-- The temporaries in the order in which they are written. -/
  temporaries : List TemporarySpec
deriving DecidableEq, Inhabited

/-- The source of fresh plan identities. -/
structure PlanIds where
  next : UInt64 := 1
deriving DecidableEq, Repr, Inhabited

namespace Plan

/-! ### Access -/

/-- The temporary in a slot. -/
def temporary? (p : Plan) (slot : Nat) : Option TemporarySpec :=
  p.temporaries.find? fun t => t.slot == slot

/-- The number of tensors that the plan reads. -/
def numInputs (p : Plan) : Nat := p.network.numFactors

/-- The labels of an operand, axis by axis. -/
def labelsOf (p : Plan) : Operand → List Label
  | .input i => (p.network.factor i).labels
  | .temporary slot => ((p.temporary? slot).map (·.labels)).getD []
  | .destination => p.network.output

/-- The plan in lines: what it contracts, the tree with its cost, and the numbered steps. -/
def text (p : Plan) : String :=
  "plan " ++ toString p.id.toNat ++ " for " ++ p.network.text ++ "\n" ++
    "  tree " ++ p.tree.text ++ " with cost " ++ p.tree.cost.text ++ "\n" ++
    String.join (p.steps.mapIdx fun i s => "  " ++ toString i ++ ": " ++ s.text ++ "\n")

/-! ### Planning -/

/-- The strategy that `auto` stands for. -/
def resolveStrategy (net : Network) (config : PlanConfig) : Strategy :=
  match config.strategy with
  | .auto =>
    if config.costModel.isSome then .optimal
    else if net.signed then .bySign
    else .leftToRight
  | s => s

/-- The tree that a strategy chooses. -/
def chooseTree (net : Network) (model : CostModel) (prune : Bool) (strategy : Strategy) :
    Except Error ContractionTree :=
  match strategy with
  | .optimal => ContractionTree.optimal net model prune
  | .bySign =>
    if net.signed then ContractionTree.bySign net model else .error (.invalidOrder .unsigned)
  | .explicit order => ContractionTree.explicit net order model
  | .leftToRight | .auto => ContractionTree.leftToRight net model

/-- **Plans a network.** A fresh identity is drawn only when the tree is found. -/
def create (ids : PlanIds) (net : Network) (config : PlanConfig) :
    Except Error (Plan × PlanIds) := do
  let net := if config.conjugate then net.conjugated else net
  let model := config.costModel.getD .standard
  let tree ← chooseTree net model config.prune (resolveStrategy net config)
  let (steps, temporaries) := tree.lower net
  match config.planId with
  | some id => return (⟨id, net, tree, steps, temporaries⟩, ids)
  | none => return (⟨ids.next, net, tree, steps, temporaries⟩, ⟨ids.next + 1⟩)

end Plan

end TensorNet
