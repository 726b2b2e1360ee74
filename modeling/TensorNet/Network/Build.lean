import TensorNet.Network.Basic

/-!
# Building a network

The labels of all factors are read once, in factor order and then axis order. Each new label gets
the next number, and every reading is recorded under the number of its label. The rules are then
checked on that table: no label more than twice, and an output, when one is given, that lists the
labels occurring once, each of them exactly once.
-/

namespace TensorNet.Network

/-! ### The occurrence table -/

/-- The distinct labels read so far and where each of them was read. -/
structure Table where
  labels : List Label := []
  occurrences : List (List Occurrence) := []
deriving DecidableEq, Repr

namespace Table

/-- Records one reading of a label. -/
def record (t : Table) (l : Label) (o : Occurrence) : Table :=
  match t.labels.idxOf? l with
  | some id => { t with occurrences := t.occurrences.modify id (· ++ [o]) }
  | none => ⟨t.labels ++ [l], t.occurrences ++ [[o]]⟩

/-- The axes of all factors with their labels, in factor order and then axis order. -/
def readings (factors : List Factor) : List (Label × Occurrence) :=
  (factors.mapIdx fun i f => f.labels.mapIdx fun k l => (l, Occurrence.mk i k)).flatten

/-- The table of a list of factors. -/
def ofFactors (factors : List Factor) : Table :=
  (readings factors).foldl (fun t r => t.record r.1 r.2) {}

variable (t : Table)

/-- Each label with its occurrences, in the order of the numbers. -/
def entries : List (Label × List Occurrence) := t.labels.zip t.occurrences

/-- How often a label occurs. -/
def count (l : Label) : Nat :=
  match t.labels.idxOf? l with
  | some id => (t.occurrences.getD id []).length
  | none => 0

/-- The labels that occur once, in order of first appearance. -/
def free : List Label := (t.entries.filter fun e => e.2.length == 1).map (·.1)

/-- The sign convention at one label: negative when it occurs once, positive when twice. -/
def followsSign (e : Label × List Occurrence) : Bool :=
  match e.1.asInt with
  | some v => if v < 0 then e.2.length == 1 else if 0 < v then e.2.length == 2 else false
  | none => false

/-- All labels follow the sign convention. -/
def signed : Bool := t.entries.all followsSign

/-! ### The rules -/

/-- No label may occur more than twice; the first that does is reported. -/
def checkCounts : Except Error Unit :=
  match t.entries.find? fun e => decide (2 < e.2.length) with
  | some e => .error (.malformed e.1 e.2.length .tooOften)
  | none => .ok ()

/-- Checks the output from left to right: a repetition, then an unknown label, then a contracted
one is reported first. -/
def checkOutput : List Label → List Label → Except Error Unit
  | _, [] => .ok ()
  | seen, l :: rest =>
    if l ∈ seen then .error (.malformed l (t.count l) .repeatedInOutput)
    else if t.count l = 0 then .error (.malformed l 0 .unknownInOutput)
    else if t.count l = 2 then .error (.malformed l 2 .contractedInOutput)
    else checkOutput (l :: seen) rest

/-- The output must list every free label. -/
def checkFree (output : List Label) : Except Error Unit :=
  match t.free.find? fun l => !output.contains l with
  | some l => .error (.malformed l 1 .missingFromOutput)
  | none => .ok ()

/-- The output that is taken when none is given: free labels by absolute value under the sign
convention, and by first appearance otherwise. -/
def defaultOutput : List Label :=
  if t.signed then
    t.free.mergeSort fun a b => decide ((a.asInt.getD 0).natAbs ≤ (b.asInt.getD 0).natAbs)
  else t.free

/-- The given output if it passes the checks, or the default one. -/
def chooseOutput : Option (List Label) → Except Error (List Label)
  | some out => do
    t.checkOutput [] out
    t.checkFree out
    return out
  | none => .ok t.defaultOutput

end Table

/-! ### Networks -/

/-- **The network of a list of factors**, with the given output or the default one. -/
def build (factors : List Factor) (output : Option (List Label)) : Except Error Network := do
  if factors.isEmpty then throw .emptyNetwork
  let t := Table.ofFactors factors
  t.checkCounts
  let out ← t.chooseOutput output
  return ⟨factors, out, t.labels, t.occurrences, t.signed⟩

/-- The network of lists of signed integers: negative labels are free, positive ones contracted. -/
def ofSigned (lists : List (List Int64)) : Except Error Network :=
  build (lists.map fun ls => { labels := ls.map .int }) none

end TensorNet.Network
