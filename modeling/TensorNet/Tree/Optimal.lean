import Std.Data.HashMap
import TensorNet.Tree.Basic
import TensorNet.Tree.Subsets

/-!
# The cheapest tree

## 1. The search

Every set of factors is solved once, by increasing size. To solve a set, all its splits in two
are tried: the part that has the lowest factor goes to the left, and the other part runs through
the proper subsets of the rest in descending order. A split costs what its parts cost and what
their join costs. The first of the cheapest splits is kept.

## 2. Bounds

With pruning on, a split is dropped without pricing its join when its parts alone cost as much as
the best split so far, and a set whose splits all cost more than the left-to-right tree of the
network stays unsolved. If nothing is found below the bound, the left-to-right tree is the answer.
-/

namespace TensorNet

/-- The number of factors up to which the search is done. -/
def maxSearchFactors : Nat := 30

namespace Search

/-- The best way found to contract a set: its cost and its left part, which is empty for a single
factor. -/
structure Choice where
  cost : Cost
  left : Nat
deriving DecidableEq, Inhabited

/-- What the search works on. -/
structure Problem where
  /-- The costs of the labels by number. -/
  costs : List Cost
  /-- The cost of the left-to-right tree. -/
  bound : Cost
  /-- The bounds are used. -/
  prune : Bool

/-- What has been found: the open labels of the sets looked at, and the choices made. -/
structure Table where
  openSets : Std.HashMap Nat LabelSet := ∅
  choices : Std.HashMap Nat Choice := ∅

/-! ### One split -/

/-- With pruning, parts that cost no less than the best split need not be joined. -/
def hopeless (prune : Bool) (parts : Cost) (best : Option Choice) : Except Error Bool :=
  match prune, best with
  | true, some b => do return !(← parts.lt b.cost)
  | _, _ => .ok false

/-- With pruning, a split that costs more than the bound is dropped. -/
def aboveBound (p : Problem) (total : Cost) : Except Error Bool :=
  if p.prune then p.bound.lt total else .ok false

/-- A split is kept if it is strictly cheaper than the best so far. -/
def improves (total : Cost) (best : Option Choice) : Except Error Bool :=
  match best with
  | some b => total.lt b.cost
  | none => .ok true

/-- The cost of joining two sets whose open labels are known. -/
def joinCost (p : Problem) (t : Table) (left right : Nat) : Except Error Cost :=
  match t.openSets[left]?, t.openSets[right]? with
  | some a, some b => TensorNet.joinCost p.costs a b
  | _, _ => .error (.invalidOrder .unsolved)

/-- The best choice after one more split. A split with an unsolved part is passed over. -/
def consider (p : Problem) (t : Table) (best : Option Choice) (left right : Nat) :
    Except Error (Option Choice) :=
  match t.choices[left]?, t.choices[right]? with
  | some l, some r => do
    let parts ← l.cost.add r.cost
    if ← hopeless p.prune parts best then return best
    else
      let total ← parts.add (← joinCost p t left right)
      if ← aboveBound p total then return best
      else if ← improves total best then return some ⟨total, left⟩
      else return best
  | _, _ => .ok best

/-! ### One set -/

/-- The splits of a set, the part with the lowest factor first. -/
def splits (s : Nat) : List (Nat × Nat) :=
  let low := Subset.lowest s
  let rest := Subset.dropLowest s
  (Subset.proper rest).map fun sub => (low ||| sub, rest ^^^ sub)

/-- The best choice for a set. -/
def best (p : Problem) (t : Table) (s : Nat) : Except Error (Option Choice) :=
  (splits s).foldlM (fun b lr => consider p t b lr.1 lr.2) none

/-- Notes the open labels of a set: those open on exactly one of its two parts. -/
def noteOpen (t : Table) (s : Nat) : Except Error Table :=
  match t.openSets[Subset.lowest s]?, t.openSets[Subset.dropLowest s]? with
  | some a, some b => .ok { t with openSets := t.openSets.insert s (a.symmDiff b) }
  | _, _ => .error (.invalidOrder .unsolved)

/-- Solves one set. -/
def solve (p : Problem) (t : Table) (s : Nat) : Except Error Table := do
  let t ← noteOpen t s
  match ← best p t s with
  | some c => return { t with choices := t.choices.insert s c }
  | none => return t

/-! ### All sets -/

/-- A single factor costs nothing. -/
def noteFactor (net : Network) (t : Table) (factor : Nat) : Table where
  openSets := t.openSets.insert (Subset.single factor) (net.openSetOf factor)
  choices := t.choices.insert (Subset.single factor) ⟨0, 0⟩

/-- The table of the single factors. -/
def start (net : Network) : Table := (List.range net.numFactors).foldl (noteFactor net) {}

/-- Solves the sets of one size. -/
def solveSize (p : Problem) (n : Nat) (t : Table) (size : Nat) : Except Error Table :=
  (Subset.ofSize n size).foldlM (solve p) t

/-- Solves all sets of two or more factors, by increasing size. -/
def solveAll (p : Problem) (net : Network) : Except Error Table :=
  (List.range' 2 (net.numFactors - 1)).foldlM (solveSize p net.numFactors) (start net)

/-! ### The tree -/

/-- Reads the tree of a set off the table. A chosen left part is smaller than its set, so as many
steps as there are factors are enough. -/
def rebuild (net : Network) (t : Table) : Nat → Nat → Assembly →
    Except Error (TreeNode × Assembly)
  | 0, _, _ => .error (.invalidOrder .unsolved)
  | depth + 1, s, a =>
    if Subset.isSingleton s then .ok (a.leaf net (Subset.member s))
    else
      match t.choices[s]? with
      | none => .error (.invalidOrder .unsolved)
      | some c => do
        let (l, a) ← rebuild net t depth c.left a
        let (r, a) ← rebuild net t depth (s ^^^ c.left) a
        a.join net l r

end Search

/-- **The cheapest tree** of a network under a cost model, with or without pruning. -/
def ContractionTree.optimal (net : Network) (model : CostModel) (prune : Bool) :
    Except Error ContractionTree := do
  let n := net.numFactors
  if maxSearchFactors < n then throw (.tooManyFactors n maxSearchFactors)
  let reference ← leftToRight net model
  if n ≤ 2 then return reference
  let costs := model.resolve net
  let t ← Search.solveAll ⟨costs, reference.cost, prune⟩ net
  let all := Subset.full n
  if t.choices.contains all then
    let last ← Search.rebuild net t n all { costs }
    return Assembly.finish last
  else
    return reference

end TensorNet
