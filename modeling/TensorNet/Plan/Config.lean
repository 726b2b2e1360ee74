import TensorNet.Cost.Model

/-!
# How to plan
-/

namespace TensorNet

/-- How the contraction tree is chosen. -/
inductive Strategy
  /-- The cheapest tree if a cost model is given, the order of the signs if the labels have them,
  and from left to right otherwise. -/
  | auto
  /-- The cheapest tree. -/
  | optimal
  /-- Positive labels in increasing order. -/
  | bySign
  /-- The factors as they come. -/
  | leftToRight
  /-- The listed labels in their order. -/
  | explicit (order : List Label)
deriving DecidableEq, Repr, Inhabited

/-- The settings of a plan. -/
structure PlanConfig where
  strategy : Strategy := .auto
  /-- What the labels cost; every label costs the variable if none is given. -/
  costModel : Option CostModel := none
  /-- Conjugate the whole expression. -/
  conjugate : Bool := false
  /-- Use bounds in the search for the cheapest tree. -/
  prune : Bool := true
  /-- A fixed identity for the plan; a fresh one is drawn if none is given. -/
  planId : Option UInt64 := none
deriving DecidableEq, Inhabited

/-- The cheapest tree with every label costing the variable. -/
def PlanConfig.optimal : PlanConfig := { strategy := .optimal, costModel := some .standard }

end TensorNet
