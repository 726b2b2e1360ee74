import TensorNet.Error
import TensorNet.LabelSet

/-!
# Networks of labelled factors

A network is a list of factors, each with one label per axis, and the order of the labels that
survive. A label that occurs twice is contracted: the two axes run together and are summed. A
label that occurs once is free and appears in the output.

The distinct labels are numbered in order of first appearance, and for each number the network
holds the list of its occurrences. Networks are made by `Network.build`, which checks the rules.
-/

namespace TensorNet

/-- A tensor of a network, known by the labels of its axes. -/
structure Factor where
  /-- One label per axis. -/
  labels : List Label
  /-- The tensor enters conjugated. -/
  conj : Bool := false
deriving DecidableEq, Repr, Inhabited

/-- The number of axes. -/
def Factor.rank (f : Factor) : Nat := f.labels.length

/-- A place where a label occurs. -/
structure Occurrence where
  factor : Nat
  axis : Nat
deriving DecidableEq, Repr, Inhabited

/-- A network: its factors and output, the distinct labels by number, and where each occurs. -/
structure Network where
  factors : List Factor
  /-- The labels of the result, axis by axis. -/
  output : List Label
  /-- The distinct labels in order of first appearance. -/
  labels : List Label
  /-- The occurrences of each label, in factor order and then axis order. -/
  occurrences : List (List Occurrence)
  /-- Every label is a nonzero integer, negative exactly when it is free. -/
  signed : Bool
deriving DecidableEq, Repr, Inhabited

namespace Network

variable (net : Network)

/-! ### Access -/

/-- A factor by its position. -/
def factor (i : Nat) : Factor := net.factors.getD i default

/-- The number of factors. -/
def numFactors : Nat := net.factors.length

/-- The number of distinct labels. -/
def numLabels : Nat := net.labels.length

/-- The label with a number. -/
def label (id : Nat) : Label := net.labels.getD id default

/-- The number of a label that occurs. -/
def idOf? (l : Label) : Option Nat := net.labels.idxOf? l

/-- Where the label with this number occurs. -/
def occurrencesOf (id : Nat) : List Occurrence := net.occurrences.getD id []

/-! ### Contracted and traced labels -/

/-- The label occurs twice. -/
def isContracted (id : Nat) : Bool := (net.occurrencesOf id).length == 2

/-- Both occurrences are on one factor. -/
def isTraced (id : Nat) : Bool :=
  match net.occurrencesOf id with
  | [p, q] => p.factor == q.factor
  | _ => false

/-- The numbers of the contracted labels, ascending. -/
def contractedIds : List Nat := (List.range net.numLabels).filter net.isContracted

/-- The labels of a factor that are not summed within the factor itself. -/
def openSetOf (i : Nat) : LabelSet :=
  LabelSet.ofList (((net.factor i).labels.filterMap net.idOf?).filter fun id => !net.isTraced id)

/-! ### Conjugation -/

/-- The conjugate expression: the conjugate of a product is the product of the conjugates. -/
def conjugated : Network :=
  { net with factors := net.factors.map fun f => { f with conj := !f.conj } }

/-! ### Text -/

/-- A factor by its position, with a quote when it is conjugated, and its labels. -/
def factorText (i : Nat) (f : Factor) : String :=
  "T" ++ toString i ++ (if f.conj then "'" else "") ++ Label.listText f.labels

/-- The product of the factors and the labels of the result. -/
def text : String :=
  " * ".intercalate (net.factors.mapIdx factorText) ++ " -> " ++ Label.listText net.output

instance : ToString Network := ⟨text⟩

end Network

end TensorNet
