import TensorNet.Cost.Model

/-!
# Contraction trees

A contraction tree says in which pairs the factors of a network are multiplied: its leaves are the
factors, and an inner node joins the results of its two children, summing the labels open on both.

Nodes are numbered in the order in which they are made. Children are made before their parent, so
the root has the largest number.
-/

namespace TensorNet

/-- A node with what lies below it. -/
inductive TreeNode
  /-- A factor. -/
  | leaf (id : Nat) (factor : Nat) (openSet : LabelSet)
  /-- The contraction of two results: the labels summed there, in the order of their numbers, and
  the cost of this step alone. -/
  | join (id : Nat) (left right : TreeNode) (contracted : List Label) (cost : Cost)
      (openSet : LabelSet)
deriving DecidableEq, Inhabited

namespace TreeNode

/-- The number of a node. -/
def id : TreeNode → Nat
  | leaf i _ _ => i
  | join i _ _ _ _ _ => i

/-- The labels open on the result of a node. -/
def openSet : TreeNode → LabelSet
  | leaf _ _ s => s
  | join _ _ _ _ _ s => s

/-- A node and all nodes below it, children first. -/
def postorder : TreeNode → List TreeNode
  | t@(leaf _ _ _) => [t]
  | t@(join _ l r _ _ _) => l.postorder ++ r.postorder ++ [t]

/-- The factors below a node, from left to right. -/
def factors : TreeNode → List Nat
  | leaf _ f _ => [f]
  | join _ l r _ _ _ => l.factors ++ r.factors

/-- The number of leaves. -/
def numLeaves : TreeNode → Nat
  | leaf _ _ _ => 1
  | join _ l r _ _ _ => l.numLeaves + r.numLeaves

/-- The number of inner nodes. -/
def numJoins : TreeNode → Nat
  | leaf _ _ _ => 0
  | join _ l r _ _ _ => l.numJoins + r.numJoins + 1

/-- Nested pairs of factor positions. -/
def text : TreeNode → String
  | leaf _ f _ => toString f
  | join _ l r _ _ _ => "(" ++ l.text ++ "," ++ r.text ++ ")"

/-- There is one leaf more than there are inner nodes. -/
theorem numLeaves_eq (t : TreeNode) : t.numLeaves = t.numJoins + 1 := by
  induction t with
  | leaf => rfl
  | join i l r c k s hl hr => simp only [numLeaves, numJoins, hl, hr]; omega

@[simp] theorem length_factors (t : TreeNode) : t.factors.length = t.numLeaves := by
  induction t with
  | leaf => rfl
  | join i l r c k s hl hr => simp only [factors, numLeaves, List.length_append, hl, hr]

@[simp] theorem length_postorder (t : TreeNode) :
    t.postorder.length = t.numLeaves + t.numJoins := by
  induction t with
  | leaf => rfl
  | join i l r c k s hl hr =>
    simp only [postorder, numLeaves, numJoins, List.length_append, List.length_singleton, hl, hr]
    omega

end TreeNode

/-- A contraction tree and the sum of the costs of its joins. -/
structure ContractionTree where
  root : TreeNode
  cost : Cost
deriving DecidableEq, Inhabited

namespace ContractionTree

/-- All nodes in the order of their numbers. -/
def nodes (t : ContractionTree) : List TreeNode :=
  t.root.postorder.mergeSort fun a b => decide (a.id ≤ b.id)

/-- Nested pairs of factor positions, such as `((0,2),1)`. -/
def text (t : ContractionTree) : String := t.root.text

instance : ToString ContractionTree := ⟨text⟩

end ContractionTree

/-! ### Putting a tree together -/

/-- What is known while a tree is put together: the costs of the labels by number, the next free
node number, and the cost of the joins made so far. -/
structure Assembly where
  costs : List Cost
  next : Nat := 0
  total : Cost := 0

namespace Assembly

variable (net : Network)

/-- A new leaf. -/
def leaf (factor : Nat) (s : Assembly) : TreeNode × Assembly :=
  (.leaf s.next factor (net.openSetOf factor), { s with next := s.next + 1 })

/-- A new join of two nodes. It is priced before its cost goes into the total. -/
def join (l r : TreeNode) (s : Assembly) : Except Error (TreeNode × Assembly) := do
  let cost ← joinCost s.costs l.openSet r.openSet
  let total ← s.total.add cost
  let contracted := (l.openSet.inter r.openSet).toList.map net.label
  let node := TreeNode.join s.next l r contracted cost (l.openSet.symmDiff r.openSet)
  return (node, { s with next := s.next + 1, total })

/-- A new leaf, joined to the right of a node. -/
def joinLeaf (acc : TreeNode × Assembly) (factor : Nat) : Except Error (TreeNode × Assembly) :=
  let (next, s) := acc.2.leaf net factor
  s.join net acc.1 next

/-- Joins nodes to the right of a first one, from left to right. -/
def joinAll (acc : TreeNode × Assembly) (rest : List TreeNode) :
    Except Error (TreeNode × Assembly) :=
  rest.foldlM (fun acc t => acc.2.join net acc.1 t) acc

/-- The finished tree. -/
def finish (acc : TreeNode × Assembly) : ContractionTree := ⟨acc.1, acc.2.total⟩

end Assembly

/-- The tree `((0,1),2),…` that takes the factors as they come. -/
def ContractionTree.leftToRight (net : Network) (model : CostModel) :
    Except Error ContractionTree := do
  let first := Assembly.leaf net 0 { costs := model.resolve net }
  let last ← (List.range' 1 (net.numFactors - 1)).foldlM (Assembly.joinLeaf net) first
  return Assembly.finish last

end TensorNet
