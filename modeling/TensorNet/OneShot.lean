import TensorNet.Backend.Dense
import TensorNet.Execution

/-!
# Labelled operations

Single operations on labelled tensors. Each builds a network, plans it and carries it out once,
with nothing kept. The labels of the result are always given, save for networks in signed form.
-/

namespace TensorNet.OneShot

variable {σ β α : Type} [Zero α] [One α]

/-- A run that keeps nothing needs one kind of buffer only. -/
abbrev Sole (β : Type) : Unit → Type := fun _ => β

/-- The plan of a network that is carried out once. -/
def planOnce (net : Network) (config : PlanConfig) : Except Error Plan := do
  return (← Plan.create {} net config).1

/-- Plans a network and evaluates it into a new buffer. -/
def run (b : Backend σ β α) (net : Except Error Network) (config : PlanConfig) (inputs : List β)
    (t : σ) : Except Error β × σ :=
  match net.bind fun net => planOnce net config with
  | .error e => (.error e, t)
  | .ok p =>
    let (r, _, t) := @Plan.execute Unit (Sole β) () σ α _ _ _ p b {} inputs 1 .disabled t
    (r, t)

/-- A permuted copy. Labels that are repeated are summed over, so this is also the trace. -/
def copy (b : Backend σ β α) (x : β) (labels : List Label) (conj : Bool) (out : List Label)
    (t : σ) : Except Error β × σ :=
  run b (Network.build [⟨labels, conj⟩] (some out)) {} [x] t

/-- Adds a scaled permuted copy to a scaled destination. -/
def add (b : Backend σ β α) (alpha : α) (x : β) (labels : List Label) (conj : Bool) (beta : α)
    (dst : β) (out : List Label) (t : σ) : Written β × σ :=
  match (Network.build [⟨labels, conj⟩] (some out)).bind fun net => planOnce net {} with
  | .error e => (⟨dst, some e⟩, t)
  | .ok p =>
    let (w, _, t) :=
      @Plan.executeInto Unit (Sole β) () σ α _ _ _ p b {} [x] alpha beta .disabled dst t
    (w, t)

/-- The contraction of two tensors over the labels that they share. -/
def contract (b : Backend σ β α) (x : β) (labelsX : List Label) (conjX : Bool) (y : β)
    (labelsY : List Label) (conjY : Bool) (out : List Label) (t : σ) : Except Error β × σ :=
  run b (Network.build [⟨labelsX, conjX⟩, ⟨labelsY, conjY⟩] (some out)) {} [x, y] t

/-- A network in which no label is summed. -/
def withoutSums (net : Network) : Except Error Network :=
  match net.contractedIds with
  | [] => .ok net
  | id :: _ => .error (.malformed (net.label id) 2 .sharedInProduct)

/-- The outer product of two tensors, which may not share a label. -/
def product (b : Backend σ β α) (x : β) (labelsX : List Label) (y : β) (labelsY : List Label)
    (out : List Label) (t : σ) : Except Error β × σ :=
  run b ((Network.build [⟨labelsX, false⟩, ⟨labelsY, false⟩] (some out)).bind withoutSums) {}
    [x, y] t

/-! ### Networks in signed form -/

/-- What can be said about a network in signed form beside its labels. -/
structure SignedOptions where
  /-- Which tensors are conjugated; those beyond the end of the list are not. -/
  conj : List Bool := []
  /-- The order in which labels are contracted. -/
  order : Option (List Int64) := none
  /-- The order of the free labels in the result. -/
  output : Option (List Int64) := none
  /-- Search for the cheapest tree under these costs. -/
  costModel : Option CostModel := none
deriving Inhabited

namespace SignedOptions

/-- The factors of lists of signed integers. -/
def factors (o : SignedOptions) (lists : List (List Int64)) : List Factor :=
  lists.mapIdx fun i ls => ⟨ls.map .int, o.conj.getD i false⟩

/-- The settings of the plan. An order takes precedence over the search. -/
def config (o : SignedOptions) : PlanConfig where
  strategy := (o.order.map fun ls => .explicit (ls.map .int)).getD .auto
  costModel := o.costModel

end SignedOptions

/-- The network of lists of signed integers, contracted. There must be one tensor for each list. -/
def signed (b : Backend σ β α) (tensors : List β) (lists : List (List Int64)) (o : SignedOptions)
    (t : σ) : Except Error β × σ :=
  if tensors.length ≠ lists.length then
    (.error (.arityMismatch lists.length tensors.length), t)
  else
    run b (Network.build (o.factors lists) (o.output.map fun ls => ls.map .int)) o.config tensors t

end TensorNet.OneShot
