import TensorNet.Label

/-!
# Failures

Every way in which building, planning or executing a contraction can fail, by cause. The wording
is in one place, `Error.message`, and nothing is decided by looking at a text.
-/

namespace TensorNet

/-- A list of numbers in brackets, with a comma and a space between two of them. -/
def listText (ns : List Nat) : String := "[" ++ ", ".intercalate (ns.map toString) ++ "]"

/-- A pair of numbers in parentheses. -/
def pairText (p : Nat × Nat) : String := "(" ++ toString p.1 ++ ", " ++ toString p.2 ++ ")"

/-- A list of pairs in brackets. -/
def pairsText (ps : List (Nat × Nat)) : String := "[" ++ ", ".intercalate (ps.map pairText) ++ "]"

/-! ### Causes -/

/-- What is wrong with a label of a network. -/
inductive LabelFault
  /-- It occurs more than twice. -/
  | tooOften
  /-- The output lists it twice. -/
  | repeatedInOutput
  /-- The output lists it, but no factor has it. -/
  | unknownInOutput
  /-- The output lists it, but it is summed. -/
  | contractedInOutput
  /-- It survives, but the output does not list it. -/
  | missingFromOutput
  /-- An output label was looked for and found nowhere. -/
  | noOccurrence
  /-- Two factors of an outer product share it. -/
  | sharedInProduct
deriving DecidableEq, Repr

/-- What is wrong with a contraction order. -/
inductive OrderFault
  /-- The label occurs in no factor. -/
  | unknown (label : Label)
  /-- The label survives to the output. -/
  | free (label : Label)
  /-- The label is listed before. -/
  | repeated (label : Label)
  /-- The label is summed, but the order does not list it. -/
  | missing (label : Label)
  /-- The labels are not signed integers, negative exactly when free. -/
  | unsigned
  /-- The search was asked for a set of factors that it has not solved. -/
  | unsolved
deriving DecidableEq, Repr

/-- What a backend refuses. -/
inductive BackendFault
  /-- The data of a tensor are too many or too few for its dimensions. -/
  | elementCount (dims : List Nat) (needed got : Nat)
  /-- The kept and the paired axes do not add up to the rank. -/
  | traceRank (rank kept paired : Nat)
  /-- The destination does not have the dimensions of the result. -/
  | destinationDims (got expected : List Nat)
  /-- Two traced axes differ in extent. -/
  | tracedExtents (p q extentP extentQ : Nat)
  /-- The contracted axes of the two operands do not pair up. -/
  | contractedLengths
  /-- Two contracted axes differ in extent. -/
  | contractedExtents (p q extentP extentQ : Nat)
  /-- The permutation does not list as many axes as stay open. -/
  | permutationLength (got expected : Nat)
  /-- The destination has another rank than the output. -/
  | destinationRank (got expected : Nat)
  /-- An instruction reads an input that was not given. -/
  | missingInput (index : Nat)
  /-- An instruction reads a temporary that is not there. -/
  | missingTemporary (slot : Nat)
  /-- An instruction reads the destination. -/
  | destinationRead
  /-- A tensor of one element was expected. -/
  | notScalar (dims : List Nat)
  /-- A refusal in a backend's own words. -/
  | refused (reason : String)
deriving DecidableEq, Repr

/-- A failed contraction. -/
inductive Error
  /-- A label occurs `count` times, against a rule. -/
  | malformed (label : Label) (count : Nat) (fault : LabelFault)
  /-- There is no factor. -/
  | emptyNetwork
  /-- Two axes with one label differ in extent. -/
  | dimensionMismatch (label : Label) (expected got : Nat)
  /-- Two costs, given by their texts, grow in different variables. -/
  | incomparableCost (left right : String)
  /-- A contraction order does not fit the network. -/
  | invalidOrder (fault : OrderFault)
  /-- The exhaustive search was asked for more factors than it takes. -/
  | tooManyFactors (count max : Nat)
  /-- The number of inputs is not the number of factors. -/
  | arityMismatch (expected got : Nat)
  /-- An input does not have one axis for each label of its factor. -/
  | rankMismatch (factor expected got : Nat)
  /-- A backend, or what is handed to it, failed. -/
  | backend (fault : BackendFault)
deriving DecidableEq, Repr

/-! ### Wording -/

/-- The rule that a label breaks. -/
def LabelFault.message : LabelFault → String
  | tooOften => "a label may occur at most twice"
  | repeatedInOutput => "label repeated in the output"
  | unknownInOutput => "output label does not occur in any factor"
  | contractedInOutput => "contracted label listed in the output"
  | missingFromOutput => "free label missing from the output"
  | noOccurrence => "output label has no occurrence"
  | sharedInProduct => "an outer product cannot contract labels"

/-- How an order and a network disagree. -/
def OrderFault.message : OrderFault → String
  | unknown l => s!"label {l.text} does not occur"
  | free l => s!"label {l.text} is not contracted"
  | repeated l => s!"label {l.text} is listed twice"
  | missing l => s!"contracted label {l.text} is missing from the order"
  | unsigned => "labels do not follow the NCON convention"
  | unsolved => "missing optimizer entry"

/-- Why a backend refuses. -/
def BackendFault.message : BackendFault → String
  | elementCount dims needed got =>
    s!"tensor of dims {listText dims} needs {needed} elements, got {got}"
  | traceRank rank kept paired =>
    s!"trace of a rank-{rank} tensor with {kept} kept and {paired} paired axes"
  | destinationDims got expected =>
    s!"destination has dims {listText got}, expected {listText expected}"
  | tracedExtents p q m n => s!"traced axes {p} and {q} have extents {m} and {n}"
  | contractedLengths => "contracted axis lists differ in length"
  | contractedExtents p q m n => s!"contracted axes {p} and {q} have extents {m} and {n}"
  | permutationLength got expected =>
    s!"permutation of length {got} for {expected} open axes"
  | destinationRank got expected =>
    s!"destination has {got} dimensions, the output has {expected} labels"
  | missingInput i => s!"no input buffer {i}"
  | missingTemporary slot => s!"temporary {slot} is not available"
  | destinationRead => "destination used as a source"
  | notScalar dims => s!"expected a single element, tensor has dimensions {listText dims}"
  | refused reason => reason

/-- The text of a failure. -/
def Error.message : Error → String
  | malformed l n fault =>
    s!"malformed network: label {l.text} occurs {n} times ({fault.message})"
  | emptyNetwork => "a contraction network needs at least one factor"
  | dimensionMismatch l e g =>
    s!"dimension mismatch for label {l.text}: expected {e}, got {g}"
  | incomparableCost left right => s!"incomparable costs: {left} vs {right}"
  | invalidOrder fault => s!"invalid contraction order: {fault.message}"
  | tooManyFactors count max =>
    s!"optimal contraction search supports at most {max} factors, got {count}"
  | arityMismatch e g => s!"plan expects {e} input buffers, got {g}"
  | rankMismatch factor e g =>
    s!"factor {factor} has {e} labels but its buffer has {g} dimensions"
  | backend fault => s!"backend error: {fault.message}"

end TensorNet
