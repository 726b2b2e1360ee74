import TensorNet.Backend.Dense
import TensorNet.Backend.Recorded
import TensorNet.Document.Values
import TensorNet.OneShot
import TensorNet.Tensor.Number
import TensorNet.Proofs.LabelSet
import TensorNet.Proofs.Network.Occurrences
import TensorNet.Proofs.Network.Open
import TensorNet.Proofs.Tree.Shape
import TensorNet.Proofs.Tree.Ordered
import TensorNet.Proofs.Tree.Masks
import TensorNet.Proofs.Cost.Coefficients
import TensorNet.Proofs.Cost.Rank
import TensorNet.Proofs.Tree.Weight
import TensorNet.Proofs.Tree.Canonical
import TensorNet.Proofs.Tree.Search
import TensorNet.Proofs.Tree.Optimality
import TensorNet.Proofs.Cache.Sound
import TensorNet.Proofs.Cache.Consistent
import TensorNet.Proofs.Plan.Axes
import TensorNet.Proofs.Plan.Located
import TensorNet.Proofs.Tree.Strategies
import TensorNet.Proofs.Plan.Created
import TensorNet.Proofs.Execution.Held
import TensorNet.Proofs.Execution.Answer
import TensorNet.Proofs.Execution.Extents
import TensorNet.Proofs.Execution.Transparency
import TensorNet.Proofs.Tensor.Lawful
import TensorNet.Proofs.Tensor.Index
import TensorNet.Proofs.Tensor.Sum
import TensorNet.Proofs.Backend.Values
import TensorNet.Proofs.Execution.Aligned
import TensorNet.Proofs.Tree.Value
import TensorNet.Proofs.Execution.Correct
import TensorNet.Proofs.Cache.Shared
import TensorNet.Proofs.Cache.Recency
import TensorNet.Proofs.Plan.Steps
import TensorNet.Proofs.Execution.Checked
import TensorNet.Proofs.Execution.Mismatch
import TensorNet.Proofs.Cache.Clients
import TensorNet.Proofs.Cache.Used
import TensorNet.Proofs.Plan.Linear
import TensorNet.Proofs.Execution.Exchanges
import TensorNet.Proofs.Tree.Runs
import TensorNet.Proofs.Tree.WellFormed
import TensorNet.Proofs.Cache.Owned
import TensorNet.Proofs.Plan.Maps
import TensorNet.Proofs.Cost.Semiring
import TensorNet.Proofs.Tree.Totals
import TensorNet.Proofs.Tree.Fallback
import TensorNet.Proofs.Cost.Growth
import TensorNet.Proofs.Network.Rules
import TensorNet.Proofs.Network.Tables
import TensorNet.Proofs.Tree.Accepted
import TensorNet.Proofs.Tree.Failures
import TensorNet.Proofs.Tree.Connected
import TensorNet.Proofs.Tree.LabelOrder
import TensorNet.Proofs.Tree.Faults
import TensorNet.Proofs.Tree.Priced
import TensorNet.Proofs.Plan.Refusals
import TensorNet.Proofs.Cache.Lasting
import TensorNet.Proofs.Backend.Careful
import TensorNet.Proofs.Execution.Arguments
import TensorNet.Proofs.Execution.Atomic
import TensorNet.Proofs.Renaming
import TensorNet.Proofs.Network.Renaming
import TensorNet.Proofs.Tree.Renaming
import TensorNet.Proofs.Plan.Renaming
import TensorNet.Proofs.Cache.Cleared
import TensorNet.Proofs.Tensor.Place
import TensorNet.Proofs.Backend.Pointwise
import TensorNet.Proofs.Backend.Contraction
import TensorNet.Proofs.Cache.Unevicted
import TensorNet.Proofs.Execution.Maintained
import TensorNet.Proofs.Execution.Recorded
import TensorNet.Proofs.Execution.Reuse
import TensorNet.Proofs.LabelSet.Canonical
import TensorNet.Proofs.Cost.NormalForm
import TensorNet.Proofs.Tree.Repriced
import TensorNet.Proofs.Tree.Lookups
import TensorNet.Proofs.Document.Parsing
import TensorNet.Proofs.Document.Shapes
import TensorNet.Proofs.Document.Costs
import TensorNet.Proofs.Document.Persisted
import TensorNet.Proofs.Document.Instructions
import TensorNet.Proofs.Tensor.Odometer
import TensorNet.Proofs.Tree.Enumeration
