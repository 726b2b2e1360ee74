import TensorNet.Cost.Basic
import TensorNet.Network.Basic

/-!
# Cost models

A cost model says what each label costs. Joining two intermediate tensors runs over every label
that is open on either of them, those that survive and those summed in the join, so its cost is
the product of their costs.
-/

namespace TensorNet

/-- The variable that stands for an extent where no other is named. -/
def defaultSymbol : String := "χ"

/-- How the labels of a list are weighted. -/
inductive Weighting
  /-- Listed labels cost the variable and all others one step. -/
  | expensive
  /-- Listed labels cost one step and all others the variable. -/
  | cheap
deriving DecidableEq, Repr

/-- The costs of some labels, and one cost for all others. A label stands at most once among the
models made here, and the first entry counts. -/
structure CostModel where
  costs : List (Label × Cost)
  rest : Cost
deriving DecidableEq, Inhabited

namespace CostModel

/-- Every label costs the variable. -/
def standard : CostModel := ⟨[], .var defaultSymbol⟩

/-- The cost of a label. -/
def costOf (m : CostModel) (l : Label) : Cost := (m.costs.lookup l).getD m.rest

/-- Sets the cost of one label. -/
def setCost (l : Label) (c : Cost) : List (Label × Cost) → List (Label × Cost)
  | [] => [(l, c)]
  | (k, d) :: rest => if k = l then (l, c) :: rest else (k, d) :: setCost l c rest

/-- The model with the cost of one label replaced. -/
def withCost (m : CostModel) (l : Label) (c : Cost) : CostModel :=
  { m with costs := setCost l c m.costs }

/-- The model with another cost for the labels that are not listed. -/
def withRest (m : CostModel) (c : Cost) : CostModel := { m with rest := c }

/-- The listed costs, a later one for the same label replacing an earlier one, and one step for
all other labels. -/
def explicit (pairs : List (Label × Cost)) : CostModel :=
  pairs.foldl (fun m p => m.withCost p.1 p.2) ⟨[], 1⟩

/-- One cost for all listed labels. -/
def uniform (labels : List Label) (c : Cost) : CostModel := explicit (labels.map fun l => (l, c))

/-- The listed labels weighted against all others. -/
def listed (labels : List Label) (w : Weighting) (symbol : String) : CostModel :=
  match w with
  | .expensive => uniform labels (.var symbol)
  | .cheap => (uniform labels 1).withRest (.var symbol)

/-- Each label costs as many steps as its extent. -/
def ofExtents (pairs : List (Label × Nat)) : CostModel :=
  explicit (pairs.map fun p => (p.1, .ofNat p.2))

/-- The costs of a network's labels, by number. -/
def resolve (m : CostModel) (net : Network) : List Cost := net.labels.map m.costOf

end CostModel

/-- The product of costs, taken from left to right. -/
def Cost.product (cs : List Cost) : Except Error Cost := cs.foldlM Cost.mul 1

/-- The cost of joining two tensors with the given open labels. -/
def joinCost (costs : List Cost) (a b : LabelSet) : Except Error Cost :=
  Cost.product ((a.union b).toList.map fun id => costs.getD id default)

end TensorNet
