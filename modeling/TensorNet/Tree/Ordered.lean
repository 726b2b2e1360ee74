import TensorNet.Tree.Basic

/-!
# Trees from an order of the labels

Every factor starts as a component of its own. For each label of an order, the components that
hold its two occurrences are joined, which sums every label they share; a label whose occurrences
are in one component already adds nothing. Components that are left at the end are joined from
left to right, by their first factors.
-/

namespace TensorNet

/-! ### Components -/

/-- The component of each factor, by the position of the factor, and the assembly so far. -/
structure Components where
  held : List TreeNode
  state : Assembly

namespace Components

variable (net : Network)

/-- One leaf for each listed factor. -/
def leaves : List Nat → Assembly → Components
  | [], s => ⟨[], s⟩
  | f :: fs, s =>
    let (t, s) := s.leaf net f
    let rest := leaves fs s
    { rest with held := t :: rest.held }

/-- The component of a factor. -/
def componentOf (c : Components) (factor : Nat) : TreeNode := c.held.getD factor default

/-- The component of a factor after `a` and `b` were joined. -/
def merge (a b joined t : TreeNode) : TreeNode :=
  if t.id = a.id ∨ t.id = b.id then joined else t

/-- Joins the components of two factors unless they are one. -/
def connect (c : Components) (f g : Nat) : Except Error Components :=
  let a := c.componentOf f
  let b := c.componentOf g
  if a.id = b.id then .ok c
  else do
    let (joined, state) ← c.state.join net a b
    return ⟨c.held.map (merge a b joined), state⟩

/-- Contracts the label with the given number. -/
def contract (c : Components) (id : Nat) : Except Error Components :=
  match net.occurrencesOf id with
  | [p, q] => c.connect net p.factor q.factor
  | _ => .ok c

/-- The nodes with each number once, the first of each being kept. -/
def distinct : List Nat → List TreeNode → List TreeNode
  | _, [] => []
  | seen, t :: ts => if t.id ∈ seen then distinct seen ts else t :: distinct (t.id :: seen) ts

/-- Joins what is left, in the order of the first factors. -/
def joinRest (c : Components) : Except Error ContractionTree :=
  match distinct [] c.held with
  | [] => .ok ⟨default, c.state.total⟩
  | t :: rest => do
    let last ← Assembly.joinAll net (t, c.state) rest
    return Assembly.finish last

end Components

namespace ContractionTree

/-- The tree that contracts the labels with these numbers in the given order. -/
def ordered (net : Network) (model : CostModel) (ids : List Nat) :
    Except Error ContractionTree := do
  let start := Components.leaves net (List.range net.numFactors) { costs := model.resolve net }
  let c ← ids.foldlM (Components.contract net) start
  c.joinRest net

/-! ### Two orders -/

/-- The contracted labels that are positive integers, with their numbers. -/
def positiveIds (net : Network) : List (Int × Nat) :=
  (net.contractedIds.filterMap fun id => (net.label id).asInt.map (·, id)).filter fun p => 0 < p.1

/-- The tree that contracts positive labels in increasing order. -/
def bySign (net : Network) (model : CostModel) : Except Error ContractionTree :=
  ordered net model (((positiveIds net).mergeSort fun p q => decide (p.1 ≤ q.1)).map (·.2))

/-- The numbers of the labels of an order, which must be contracted and listed once. The first
label that is unknown, free or listed before is reported. -/
def orderIds (net : Network) : List Nat → List Label → Except Error (List Nat)
  | _, [] => .ok []
  | seen, l :: ls =>
    match net.idOf? l with
    | none => .error (.invalidOrder (.unknown l))
    | some id =>
      if !net.isContracted id then .error (.invalidOrder (.free l))
      else if id ∈ seen then .error (.invalidOrder (.repeated l))
      else do
        let ids ← orderIds net (id :: seen) ls
        return id :: ids

/-- Every contracted label must be listed; the first that is not is reported. -/
def checkComplete (net : Network) (ids : List Nat) : Except Error Unit :=
  match net.contractedIds.find? fun id => !ids.contains id with
  | some id => .error (.invalidOrder (.missing (net.label id)))
  | none => .ok ()

/-- **The tree of a given order**, which must name every contracted label exactly once. -/
def explicit (net : Network) (order : List Label) (model : CostModel) :
    Except Error ContractionTree := do
  let ids ← orderIds net [] order
  checkComplete net ids
  ordered net model ids

end ContractionTree

end TensorNet
