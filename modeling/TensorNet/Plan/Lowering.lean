import TensorNet.Plan.Instruction
import TensorNet.Tree.Basic

/-!
# From a tree to instructions

The nodes are visited children first, and each adds at most one step.

* A factor without a repeated label is read where it is.
* A factor with repeated labels is traced first.
* An inner node becomes a contraction. Its result keeps the open axes of the left child, then
  those of the right one.

The root writes to the destination, in the order of the output, and its step alone carries the
caller's scalars. Every other step writes a temporary of its own.
-/

namespace TensorNet

/-- Where the result of a node is, and what its axes are. -/
structure Located where
  source : Reading Operand
  labels : List Label
  /-- For each axis, an axis of an input with the same extent. -/
  extents : List (Nat × Nat)
deriving DecidableEq, Inhabited

/-- What a subtree is lowered to: its steps, its temporaries in the order of writing, and where
its result is. -/
structure Lowered where
  steps : List Instruction
  temporaries : List TemporarySpec
  result : Located
deriving DecidableEq, Inhabited

namespace Lowering

/-! ### Axes -/

/-- The pairs of axes that carry one label, from axis `k` on: each axis with the next one that
carries the same label. -/
def pairsFrom : Nat → List Label → List (Nat × Nat)
  | _, [] => []
  | k, l :: ls =>
    match ls.idxOf? l with
    | some j => (k, k + 1 + j) :: pairsFrom (k + 1) ls
    | none => pairsFrom (k + 1) ls

/-- The axes that no pair has. -/
def keptAxes (rank : Nat) (pairs : List (Nat × Nat)) : List Nat :=
  (List.range rank).filter fun axis => !pairs.any fun p => p.1 == axis || p.2 == axis

/-- The axes of a value that are not listed, each with its label and extent. -/
def openAxes (v : Located) (axes : List Nat) : List (Label × (Nat × Nat)) :=
  ((v.labels.zip v.extents).zipIdx.filter fun x => !axes.contains x.2).map (·.1)

/-- The positions of the listed labels among others. A label that is not there is passed over. -/
def positions (labels among : List Label) : List Nat := labels.filterMap among.idxOf?

/-! ### Nodes -/

/-- Writes the result of a node that is the root to the destination with the caller's scalars, and
any other to a temporary of its own. -/
def emit (id : Nat) (isRoot : Bool) (action : Action Operand) (perm : List Nat) (labels : List Label)
    (extents : List (Nat × Nat)) : Lowered :=
  if isRoot then
    ⟨[⟨action, .destination, perm, .callerAlpha, .callerBeta⟩], [],
      ⟨⟨.destination, false⟩, labels, extents⟩⟩
  else
    ⟨[⟨action, .temporary id, perm, .one, .zero⟩], [⟨id, labels, extents⟩],
      ⟨⟨.temporary id, false⟩, labels, extents⟩⟩

/-- A factor that is read where it is. -/
def readInput (f : Factor) (factor : Nat) : Lowered :=
  ⟨[], [], ⟨⟨.input factor, f.conj⟩, f.labels, (List.range f.rank).map (factor, ·)⟩⟩

/-- A factor that is traced over the given pairs of axes. -/
def traceInput (net : Network) (f : Factor) (factor id : Nat) (isRoot : Bool)
    (pairs : List (Nat × Nat)) : Lowered :=
  let kept := keptAxes f.rank pairs
  let keptLabels := kept.map fun axis => f.labels.getD axis default
  let labels := if isRoot then net.output else keptLabels
  let perm := (positions labels keptLabels).map fun k => kept.getD k 0
  emit id isRoot (.trace ⟨.input factor, f.conj⟩ pairs) perm labels (perm.map (factor, ·))

/-- A factor. -/
def lowerLeaf (net : Network) (id factor : Nat) (isRoot : Bool) : Lowered :=
  let f := net.factor factor
  match pairsFrom 0 f.labels with
  | [] => readInput f factor
  | pairs => traceInput net f factor id isRoot pairs

/-- The contraction of two results over the given labels. -/
def joinResults (net : Network) (id : Nat) (a b : Located) (contracted : List Label)
    (isRoot : Bool) : Lowered :=
  let axesA := positions contracted a.labels
  let axesB := positions contracted b.labels
  let rest := openAxes a axesA ++ openAxes b axesB
  let restLabels := rest.map (·.1)
  let labels := if isRoot then net.output else restLabels
  let perm := positions labels restLabels
  emit id isRoot (.contract a.source b.source axesA axesB) perm labels
    (perm.map fun k => (rest.getD k default).2)

/-- A node with all that lies below it. -/
def lowerNode (net : Network) (isRoot : Bool) : TreeNode → Lowered
  | .leaf id factor _ => lowerLeaf net id factor isRoot
  | .join id l r contracted _ _ =>
    let a := lowerNode net false l
    let b := lowerNode net false r
    let c := joinResults net id a.result b.result contracted isRoot
    ⟨a.steps ++ b.steps ++ c.steps, a.temporaries ++ b.temporaries ++ c.temporaries, c.result⟩

/-- The permuted copy of a factor that is the whole network and has nothing to trace. -/
def copyOut (net : Network) (v : Located) : Instruction :=
  ⟨.copy v.source, .destination, positions net.output v.labels, .callerAlpha, .callerBeta⟩

end Lowering

/-- **The steps and temporaries of a contraction tree.** -/
def ContractionTree.lower (net : Network) (t : ContractionTree) :
    List Instruction × List TemporarySpec :=
  let x := Lowering.lowerNode net true t.root
  if x.result.source.operand = .destination then (x.steps, x.temporaries)
  else (x.steps ++ [Lowering.copyOut net x.result], x.temporaries)

end TensorNet
