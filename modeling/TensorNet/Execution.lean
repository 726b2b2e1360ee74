import TensorNet.Backend.Basic
import TensorNet.Cache.Basic
import TensorNet.Plan.Basic

/-!
# Carrying out a plan

## 1. One step

Before a step, every label that it touches is checked to have one extent. Then a temporary that
the step writes is taken from the cache, the backend does the work, and the temporaries that the
step has read go back to the cache.

## 2. Failure

The first failure ends the run. Temporaries that are still held then go back to the cache, so
that nothing stays handed out.
-/

namespace TensorNet

/-- What stays the same during a run: the plan, the inputs with their extents, the scalars, the
extents of the destination, and where the temporaries come from. -/
structure Execution (κ : Type) (β : κ → Type) (k : κ) (σ α : Type) where
  backend : Backend σ (β k) α
  plan : Plan
  context : ExecutionContext
  inputs : List (β k)
  /-- New temporaries have the kind of element of this buffer. -/
  model : β k
  inputDims : List (List Nat)
  dstDims : List Nat
  alpha : α
  beta : α

/-- What changes during a run: the cache, the temporaries held by slot, the destination and the
state of the backend. -/
structure RunState {κ : Type} (β : κ → Type) (k : κ) (σ : Type) where
  cache : Cache β
  temps : List (Nat × β k)
  dst : β k
  state : σ

namespace Execution

variable {κ : Type} {β : κ → Type} {k : κ} {σ α : Type}
variable (x : Execution κ β k σ α)

/-! ### Extents -/

/-- The extent of an axis of an input. -/
def inputExtent (p : Nat × Nat) : Nat := (x.inputDims.getD p.1 []).getD p.2 0

/-- The extents of an operand. Those of a temporary come from the inputs. -/
def dimsOf : Operand → List Nat
  | .input i => x.inputDims.getD i []
  | .temporary slot =>
    match x.plan.temporary? slot with
    | some t => t.extents.map x.inputExtent
    | none => []
  | .destination => x.dstDims

/-- The labels of an operand with their extents. -/
def labelled (o : Operand) : List (Label × Nat) := (x.plan.labelsOf o).zip (x.dimsOf o)

/-- Two axes that are run over together must have one extent. -/
def checkPair (a b : List (Label × Nat)) (p q : Nat) : Except Error Unit :=
  let m := a.getD p default
  let n := b.getD q default
  if m.2 = n.2 then .ok () else .error (.dimensionMismatch m.1 m.2 n.2)

/-- The axes that are not listed. -/
def openAxes (a : List (Label × Nat)) (axes : List Nat) : List (Label × Nat) :=
  (a.zipIdx.filter fun t => !axes.contains t.2).map (·.1)

/-- Checks the axes that an action sums, and lists the axes that its permutation is over. -/
def checkSummed : Action Operand → Except Error (List (Label × Nat))
  | .copy src => .ok (x.labelled src.operand)
  | .trace src pairs => do
    let a := x.labelled src.operand
    pairs.forM fun p => checkPair a a p.1 p.2
    return a
  | .contract a b axesA axesB => do
    let a := x.labelled a.operand
    let b := x.labelled b.operand
    (axesA.zip axesB).forM fun p => checkPair a b p.1 p.2
    return openAxes a axesA ++ openAxes b axesB

/-- Each axis of the destination must have the extent of the axis that it receives. -/
def checkReceived (axes : List (Label × Nat)) : List Nat → List Nat → Except Error Unit
  | source :: perm, got :: dims =>
    let a := axes.getD source default
    if a.2 = got then checkReceived axes perm dims
    else .error (.dimensionMismatch a.1 a.2 got)
  | _, _ => .ok ()

/-- Every label that a step touches must have one extent. -/
def checkExtents (s : Instruction) : Except Error Unit := do
  let axes ← x.checkSummed s.action
  checkReceived axes s.perm (x.dimsOf s.dst)

/-! ### Steps -/

/-- The key of a temporary. -/
def key (slot : Nat) : CacheKey := ⟨x.plan.id, slot, x.context⟩

/-- The buffer of an operand that is read. -/
def source (temps : List (Nat × β k)) : Operand → Except Error (β k)
  | .input i =>
    match x.inputs[i]? with
    | some b => .ok b
    | none => .error (.backend (.missingInput i))
  | .temporary slot =>
    match temps.lookup slot with
    | some b => .ok b
    | none => .error (.backend (.missingTemporary slot))
  | .destination => .error (.backend .destinationRead)

/-- The value of a scalar. -/
def scalar [Zero α] [One α] : Scale → α
  | .one => 1
  | .zero => 0
  | .callerAlpha => x.alpha
  | .callerBeta => x.beta

/-- Lets the backend do the work of a step on a buffer. -/
def perform [Zero α] [One α] (s : Instruction) (temps : List (Nat × β k)) (dst : β k) (t : σ) :
    Written (β k) × σ :=
  match s.action.resolve (x.source temps) with
  | .error e => (⟨dst, some e⟩, t)
  | .ok action =>
    x.backend.perform (x.scalar s.alpha) (x.scalar s.beta) action s.perm dst t

/-- Gives a temporary that is held back to the cache. -/
def giveBack (r : RunState β k σ) (slot : Nat) : RunState β k σ :=
  match r.temps.lookup slot with
  | none => r
  | some b =>
    { r with
      cache := r.cache.release k (x.key slot) b
      temps := r.temps.filter fun t => t.1 != slot }

/-- Gives back what a step has read, if that is a temporary. -/
def giveBackRead (r : RunState β k σ) : Operand → RunState β k σ
  | .temporary slot => x.giveBack r slot
  | _ => r

/-- Gives back all temporaries that a step has read, unless it failed. -/
def finishStep (s : Instruction) (failure : Option Error) (r : RunState β k σ) :
    Option Error × RunState β k σ :=
  match failure with
  | some e => (some e, r)
  | none => (none, s.sources.foldl x.giveBackRead r)

/-- A step that writes the destination. -/
def writeDestination [Zero α] [One α] (s : Instruction) (r : RunState β k σ) :
    Option Error × RunState β k σ :=
  let (w, t) := x.perform s r.temps r.dst r.state
  x.finishStep s w.failure { r with dst := w.dst, state := t }

variable [DecidableEq κ]

/-- Takes a buffer for a temporary from the cache. -/
def acquire (slot : Nat) (r : RunState β k σ) : Except Error (β k) × Cache β × σ :=
  let dims := x.dimsOf (.temporary slot)
  r.cache.acquire k (x.key slot) ⟨dims, x.backend.elementType x.model⟩
    (fun c t =>
      let (b, t) := x.backend.allocate x.model dims t
      (b, c, t))
    r.state

/-- A step that writes a temporary. The buffer is held also when the step fails. -/
def writeTemporary [Zero α] [One α] (s : Instruction) (slot : Nat) (r : RunState β k σ) :
    Option Error × RunState β k σ :=
  match x.acquire slot r with
  | (.error e, cache, t) => (some e, { r with cache, state := t })
  | (.ok b, cache, t) =>
    let (w, t) := x.perform s r.temps b t
    let temps := (slot, w.dst) :: r.temps.filter fun u => u.1 != slot
    x.finishStep s w.failure { r with cache, temps, state := t }

/-- One step of the plan. -/
def step [Zero α] [One α] (s : Instruction) (r : RunState β k σ) :
    Option Error × RunState β k σ :=
  match x.checkExtents s with
  | .error e => (some e, r)
  | .ok () =>
    match s.dst with
    | .temporary slot => x.writeTemporary s slot r
    | _ => x.writeDestination s r

/-- Steps from the first on, up to a failure. -/
def steps [Zero α] [One α] : List Instruction → RunState β k σ → Option Error × RunState β k σ
  | [], r => (none, r)
  | s :: rest, r =>
    match x.step s r with
    | (some e, r) => (some e, r)
    | (none, r) => steps rest r

/-- All steps of the plan. What is still held at the end goes back to the cache. -/
def run [Zero α] [One α] (cache : Cache β) (dst : β k) (t : σ) : Written (β k) × Cache β × σ :=
  let (failure, r) := x.steps x.plan.steps ⟨cache, [], dst, t⟩
  let r := (r.temps.map (·.1)).foldl x.giveBack r
  (⟨r.dst, failure⟩, r.cache, r.state)

end Execution

/-! ### Runs of a plan -/

namespace Plan

variable {κ : Type} {β : κ → Type} {k : κ} {σ α : Type}

/-- Each input must have as many axes as its factor has labels. -/
def checkRanks (p : Plan) : Nat → List (List Nat) → Except Error Unit
  | _, [] => .ok ()
  | factor, dims :: rest =>
    let expected := (p.network.factor factor).rank
    if dims.length = expected then checkRanks p (factor + 1) rest
    else .error (.rankMismatch factor expected dims.length)

/-- There must be one input for each factor, of the right rank. -/
def checkInputs (p : Plan) (inputDims : List (List Nat)) : Except Error Unit := do
  if inputDims.length ≠ p.numInputs then
    throw (.arityMismatch p.numInputs inputDims.length)
  p.checkRanks 0 inputDims

/-- The extent of an output label: that of the axis where it occurs. -/
def outputExtent (p : Plan) (inputDims : List (List Nat)) (l : Label) : Except Error Nat :=
  match (p.network.idOf? l).bind fun id => (p.network.occurrencesOf id).head? with
  | some o => .ok ((inputDims.getD o.factor []).getD o.axis 0)
  | none => .error (.malformed l 0 .noOccurrence)

/-- The extents of the result. -/
def outputDims (p : Plan) (inputDims : List (List Nat)) : Except Error (List Nat) := do
  p.checkInputs inputDims
  p.network.output.mapM (p.outputExtent inputDims)

/-- A destination must have the rank of the output. -/
def checkDestination (p : Plan) (inputDims : List (List Nat)) (dstDims : List Nat) :
    Except Error Unit := do
  p.checkInputs inputDims
  if dstDims.length ≠ p.network.output.length then
    throw (.backend (.destinationRank dstDims.length p.network.output.length))

variable [DecidableEq κ] [Zero α] [One α]

/-- **Evaluates a plan into a destination**: `dst = β * dst + α * result`. -/
def executeInto (p : Plan) (backend : Backend σ (β k) α) (context : ExecutionContext)
    (inputs : List (β k)) (alpha beta : α) (cache : Cache β) (dst : β k) (t : σ) :
    Written (β k) × Cache β × σ :=
  let inputDims := inputs.map backend.dims
  let dstDims := backend.dims dst
  match p.checkDestination inputDims dstDims, inputs with
  | .error e, _ => (⟨dst, some e⟩, cache, t)
  | .ok (), [] => (⟨dst, some (.backend (.missingInput 0))⟩, cache, t)
  | .ok (), model :: _ =>
    Execution.run ⟨backend, p, context, inputs, model, inputDims, dstDims, alpha, beta⟩ cache dst t

/-- **Evaluates a plan into a new buffer**, scaled by `α`. -/
def execute (p : Plan) (backend : Backend σ (β k) α) (context : ExecutionContext)
    (inputs : List (β k)) (alpha : α) (cache : Cache β) (t : σ) :
    Except Error (β k) × Cache β × σ :=
  let inputDims := inputs.map backend.dims
  match p.outputDims inputDims, inputs with
  | .error e, _ => (.error e, cache, t)
  | .ok _, [] => (.error (.backend (.missingInput 0)), cache, t)
  | .ok dims, model :: _ =>
    match backend.allocate model dims t with
    | (.error e, t) => (.error e, cache, t)
    | (.ok dst, t) =>
      let x : Execution κ β k σ α :=
        ⟨backend, p, context, inputs, model, inputDims, backend.dims dst, alpha, 0⟩
      match x.run cache dst t with
      | (⟨dst, none⟩, cache, t) => (.ok dst, cache, t)
      | (⟨_, some e⟩, cache, t) => (.error e, cache, t)

end Plan

end TensorNet
