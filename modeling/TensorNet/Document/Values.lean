import TensorNet.Cache.Config
import TensorNet.Document.Real
import TensorNet.Document.Shape
import TensorNet.Plan.Config
import TensorNet.Plan.Instruction

/-!
# Documents of values

Each type has a document and a reader of it. Costs and instructions have a document for every
value. A cost model has one only while no label has a cost of its own: the labels would be the
keys of an object, and a key must be a text.
-/

namespace TensorNet

/-! ### Labels -/

/-- The document of a label. Integers and names are different cases. -/
def Label.toJson : Label → Json
  | int v => .ofCaseOf "Int" (.ofInt v.toInt)
  | name s => .ofCaseOf "Name" (.ofText s)

/-- Reads a label. -/
def Label.ofJson? (j : Json) : Option Label :=
  match j.case? with
  | some ("Int", some x) => x.int64?.map int
  | some ("Name", some x) => x.text?.map name
  | _ => none

/-! ### Costs -/

/-- A number up to a limit. -/
def Saturating.ofJson? (limit : Nat) (j : Json) : Option (Saturating limit) :=
  (j.nat? limit).map (Saturating.ofNat limit)

namespace Terms

/-- The document of terms: an object from exponents to coefficients. -/
def toJson (t : Terms) : Json :=
  .object (t.toList.map fun x => (Digits.ofNat x.1.val, .ofNat x.2.val))

/-- Reads one term. -/
def termOfJson? (m : List Char × Json) : Option (Exponent × Coefficient) := do
  let e ← Digits.read? 0xFFFFFFFF m.1
  let c ← Saturating.ofJson? _ m.2
  return (.ofNat _ e, c)

/-- Reads terms; a later one with the same exponent replaces an earlier one. -/
def ofJson? : Json → Option Terms
  | .object ms => (ms.mapM termOfJson?).map fun ts => ts.foldl (fun t x => t.setAt x.1 x.2) ∅
  | _ => none

end Terms

/-- The document of a polynomial. -/
def Poly.toJson (p : Poly) : Json :=
  .ofRecord [("symbol", .ofText p.symbol), ("terms", p.terms.toJson)]

/-- Reads a polynomial, which need not be in normal form. -/
def Poly.ofJson? (j : Json) : Option Poly :=
  match j.record? ["symbol", "terms"] with
  | some [symbol, terms] => do
    return ⟨← Json.field? Json.text? symbol, ← Json.field? Terms.ofJson? terms⟩
  | _ => none

/-- The document of a cost. -/
def Cost.toJson : Cost → Json
  | integer c => .ofCaseOf "Integer" (.ofNat c.val)
  | polynomial p => .ofCaseOf "Polynomial" p.toJson

/-- Reads a cost. -/
def Cost.ofJson? (j : Json) : Option Cost :=
  match j.case? with
  | some ("Integer", some x) => (Saturating.ofJson? _ x).map integer
  | some ("Polynomial", some x) => (Poly.ofJson? x).map polynomial
  | _ => none

/-! ### Cost models -/

/-- The document of a weighting. -/
def Weighting.toJson : Weighting → Json
  | expensive => .ofCase "Expensive"
  | cheap => .ofCase "Cheap"

/-- Reads a weighting. -/
def Weighting.ofJson? (j : Json) : Option Weighting :=
  j.plainCase? [("Expensive", expensive), ("Cheap", cheap)]

/-- The document of the costs of labels, if there are none. -/
def CostModel.costsToJson? : List (Label × Cost) → Option Json
  | [] => some (.object [])
  | _ => none

/-- Reads the costs of labels, of which there must be none. -/
def CostModel.costsOfJson? : Json → Option (List (Label × Cost))
  | .object [] => some []
  | _ => none

/-- The document of a cost model, if it has one. -/
def CostModel.toJson? (m : CostModel) : Option Json := do
  return .ofRecord [("costs", ← costsToJson? m.costs), ("default", m.rest.toJson)]

/-- Reads a cost model. -/
def CostModel.ofJson? (j : Json) : Option CostModel :=
  match j.record? ["costs", "default"] with
  | some [costs, rest] => do
    return ⟨← Json.field? costsOfJson? costs, ← Json.field? Cost.ofJson? rest⟩
  | _ => none

/-! ### Settings of plans -/

/-- The document of a strategy. -/
def Strategy.toJson : Strategy → Json
  | auto => .ofCase "Auto"
  | optimal => .ofCase "Optimal"
  | bySign => .ofCase "Ncon"
  | leftToRight => .ofCase "LeftToRight"
  | explicit order => .ofCaseOf "Explicit" (.ofList Label.toJson order)

/-- Reads a strategy. -/
def Strategy.ofJson? (j : Json) : Option Strategy :=
  match j.case? with
  | some ("Explicit", some x) => (x.list? Label.ofJson?).map explicit
  | _ =>
    j.plainCase?
      [("Auto", auto), ("Optimal", optimal), ("Ncon", bySign), ("LeftToRight", leftToRight)]

/-- The document of an absent or present cost model, if it has one. -/
def CostModel.optionToJson? : Option CostModel → Option Json
  | none => some .null
  | some m => m.toJson?

/-- The document of the settings of a plan, if they have one. -/
def PlanConfig.toJson? (c : PlanConfig) : Option Json := do
  return .ofRecord
    [("strategy", c.strategy.toJson), ("cost_model", ← CostModel.optionToJson? c.costModel),
      ("conjugate", .bool c.conjugate), ("prune", .bool c.prune),
      ("plan_id", .ofOption (fun id => .ofNat id.toNat) c.planId)]

/-- A plan identity. -/
def planIdOfJson? (j : Json) : Option UInt64 := j.size?.map Nat.toUInt64

/-- Reads the settings of a plan. -/
def PlanConfig.ofJson? (j : Json) : Option PlanConfig :=
  match j.record? ["strategy", "cost_model", "conjugate", "prune", "plan_id"] with
  | some [strategy, costModel, conjugate, prune, planId] => do
    let strategy ← Json.field? Strategy.ofJson? strategy
    let costModel ← Json.optionField? CostModel.ofJson? costModel
    let conjugate ← Json.field? Json.bool? conjugate
    let prune ← Json.field? Json.bool? prune
    let planId ← Json.optionField? planIdOfJson? planId
    return { strategy, costModel, conjugate, prune, planId }
  | _ => none

/-! ### Instructions -/

/-- The document of an operand. -/
def Operand.toJson : Operand → Json
  | input i => .ofCaseOf "Input" (.ofNat i)
  | temporary s => .ofCaseOf "Temporary" (.ofNat s)
  | destination => .ofCase "Destination"

/-- Reads an operand. -/
def Operand.ofJson? (j : Json) : Option Operand :=
  match j.case? with
  | some ("Input", some x) => x.size?.map input
  | some ("Temporary", some x) => x.size?.map temporary
  | _ => j.plainCase? [("Destination", destination)]

/-- The document of a scalar. -/
def Scale.toJson (s : Scale) : Json := .ofCase s.text

/-- Reads a scalar. -/
def Scale.ofJson? (j : Json) : Option Scale :=
  j.plainCase? [("One", one), ("Zero", zero), ("Alpha", callerAlpha), ("Beta", callerBeta)]

namespace Instruction

/-- The document of an instruction: its kind with its fields. -/
def toJson (s : Instruction) : Json :=
  let last := [("alpha", s.alpha.toJson), ("beta", s.beta.toJson)]
  match s.action with
  | .copy src =>
    .ofCaseOf "Add" (.ofRecord ([("src", src.operand.toJson), ("conj", .bool src.conj),
      ("dst", s.dst.toJson), ("perm", .ofList .ofNat s.perm)] ++ last))
  | .trace src pairs =>
    .ofCaseOf "Trace" (.ofRecord ([("src", src.operand.toJson), ("conj", .bool src.conj),
      ("dst", s.dst.toJson), ("perm", .ofList .ofNat s.perm),
      ("pairs", .ofList .ofSizePair pairs)] ++ last))
  | .contract a b axesA axesB =>
    .ofCaseOf "Contract" (.ofRecord ([("a", a.operand.toJson), ("conj_a", .bool a.conj),
      ("b", b.operand.toJson), ("conj_b", .bool b.conj), ("dst", s.dst.toJson),
      ("cind_a", .ofList .ofNat axesA), ("cind_b", .ofList .ofNat axesB),
      ("perm", .ofList .ofNat s.perm)] ++ last))

/-- A field that is an operand. -/
def operand? (x : Option Json) : Option Operand := Json.field? Operand.ofJson? x

/-- A field that is a scalar. -/
def scale? (x : Option Json) : Option Scale := Json.field? Scale.ofJson? x

/-- A field that is a truth value. -/
def flag? (x : Option Json) : Option Bool := Json.field? Json.bool? x

/-- A field that is a list of axes. -/
def axes? (x : Option Json) : Option (List Nat) := Json.field? (Json.list? Json.size?) x

/-- Reads a permuted copy. -/
def copyOfJson? (j : Json) : Option Instruction :=
  match j.record? ["src", "conj", "dst", "perm", "alpha", "beta"] with
  | some [src, conj, dst, perm, alpha, beta] => do
    let src : Reading Operand := ⟨← operand? src, ← flag? conj⟩
    return ⟨.copy src, ← operand? dst, ← axes? perm, ← scale? alpha, ← scale? beta⟩
  | _ => none

/-- Reads a trace. -/
def traceOfJson? (j : Json) : Option Instruction :=
  match j.record? ["src", "conj", "dst", "perm", "pairs", "alpha", "beta"] with
  | some [src, conj, dst, perm, pairs, alpha, beta] => do
    let src : Reading Operand := ⟨← operand? src, ← flag? conj⟩
    let pairs ← Json.field? (Json.list? Json.sizePair?) pairs
    return ⟨.trace src pairs, ← operand? dst, ← axes? perm, ← scale? alpha, ← scale? beta⟩
  | _ => none

/-- Reads a contraction. -/
def contractOfJson? (j : Json) : Option Instruction :=
  match j.record?
    ["a", "conj_a", "b", "conj_b", "dst", "cind_a", "cind_b", "perm", "alpha", "beta"] with
  | some [a, conjA, b, conjB, dst, axesA, axesB, perm, alpha, beta] => do
    let a : Reading Operand := ⟨← operand? a, ← flag? conjA⟩
    let b : Reading Operand := ⟨← operand? b, ← flag? conjB⟩
    let action := Action.contract a b (← axes? axesA) (← axes? axesB)
    return ⟨action, ← operand? dst, ← axes? perm, ← scale? alpha, ← scale? beta⟩
  | _ => none

/-- Reads an instruction. -/
def ofJson? (j : Json) : Option Instruction :=
  match j.case? with
  | some ("Add", some x) => copyOfJson? x
  | some ("Trace", some x) => traceOfJson? x
  | some ("Contract", some x) => contractOfJson? x
  | _ => none

end Instruction

/-- The document of a temporary. -/
def TemporarySpec.toJson (t : TemporarySpec) : Json :=
  .ofRecord [("slot", .ofNat t.slot), ("labels", .ofList Label.toJson t.labels),
    ("extents", .ofList .ofSizePair t.extents)]

/-- Reads a temporary. -/
def TemporarySpec.ofJson? (j : Json) : Option TemporarySpec :=
  match j.record? ["slot", "labels", "extents"] with
  | some [slot, labels, extents] => do
    return ⟨← Json.field? Json.size? slot, ← Json.field? (Json.list? Label.ofJson?) labels,
      ← Json.field? (Json.list? Json.sizePair?) extents⟩
  | _ => none

/-! ### Settings of caches -/

/-- The name of a kind of element. -/
def ElementType.name : ElementType → String
  | half => "F16"
  | single => "F32"
  | double => "F64"
  | complexSingle => "C32"
  | complexDouble => "C64"

/-- The kinds of elements by their names. -/
def ElementType.byName : List (String × ElementType) :=
  [half, single, double, complexSingle, complexDouble].map fun t => (t.name, t)

/-- The document of a kind of element. -/
def ElementType.toJson (t : ElementType) : Json := .ofCase t.name

/-- Reads a kind of element. -/
def ElementType.ofJson? (j : Json) : Option ElementType := j.plainCase? byName

/-- The document of a budget. -/
def CacheBudget.toJson : CacheBudget → Json
  | bytes n => .ofCaseOf "Bytes" (.ofNat n)
  | fraction part total =>
    .ofCaseOf "Fraction" (.ofRecord [("fraction", Real.toJson part), ("total_memory", .ofNat total)])

/-- Reads a part of the memory. -/
def CacheBudget.fractionOfJson? (j : Json) : Option CacheBudget :=
  match j.record? ["fraction", "total_memory"] with
  | some [part, total] => do
    return .fraction (← Json.field? Real.ofJson? part) (← Json.field? Json.size? total)
  | _ => none

/-- Reads a budget. -/
def CacheBudget.ofJson? (j : Json) : Option CacheBudget :=
  match j.case? with
  | some ("Bytes", some x) => x.size?.map bytes
  | some ("Fraction", some x) => fractionOfJson? x
  | _ => none

/-- The document of the settings of a cache. -/
def CacheConfig.toJson (c : CacheConfig) : Json :=
  .ofRecord [("budget", c.budget.toJson), ("enabled", .bool c.enabled)]

/-- Reads the settings of a cache. -/
def CacheConfig.ofJson? (j : Json) : Option CacheConfig :=
  match j.record? ["budget", "enabled"] with
  | some [budget, enabled] => do
    return ⟨← Json.field? CacheBudget.ofJson? budget, ← Json.field? Json.bool? enabled⟩
  | _ => none

/-- The document of a context: its number. -/
def ExecutionContext.toJson (c : ExecutionContext) : Json := .ofNat c.id.toNat

/-- Reads a context. -/
def ExecutionContext.ofJson? (j : Json) : Option ExecutionContext :=
  j.size?.map fun n => ⟨n.toUInt64⟩

/-! ### Texts -/

/-- Reads a text as the document of a value. -/
def Json.read? {α : Type} (ofJson? : Json → Option α) (s : String) : Option α :=
  (Json.parse? s.toList).bind ofJson?

end TensorNet
