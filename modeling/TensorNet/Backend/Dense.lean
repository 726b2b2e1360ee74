import TensorNet.Backend.Basic
import TensorNet.Tensor.Basic

/-!
# The dense backend

Plain sums over dense tensors in row-major order. Every step first checks that its axes fit and
leaves the destination as it is when they do not. A sum starts from zero and takes its terms in
row-major order of the summed indices.
-/

namespace TensorNet.Tensor

variable {α : Type} [Element α]

/-- The destination must have the extents of the result. -/
def checkDims (dst : Tensor α) (expected : List Nat) : Except BackendFault Unit :=
  if dst.dims = expected then .ok () else .error (.destinationDims dst.dims expected)

/-! ### Partial trace -/

/-- The two axes of each pair must have one extent. -/
def checkPairs (src : Tensor α) : List (Nat × Nat) → Except BackendFault Unit
  | [] => .ok ()
  | (p, q) :: rest =>
    if src.extent p = src.extent q then checkPairs src rest
    else .error (.tracedExtents p q (src.extent p) (src.extent q))

/-- The kept and paired axes must add up to the rank, and the extents must fit. -/
def checkTrace (src dst : Tensor α) (perm : List Nat) (pairs : List (Nat × Nat)) :
    Except BackendFault Unit := do
  if perm.length + 2 * pairs.length ≠ src.rank then
    throw (.traceRank src.rank perm.length pairs.length)
  checkDims dst (perm.map src.extent)
  checkPairs src pairs

/-- The trace at a multi-index: the sum over one index for each pair. The offsets of a pair of
axes add up, since both axes have the same index. -/
def traceAt (src : Tensor α) (conj : Bool) (perm : List Nat) (pairs : List (Nat × Nat)) :
    List Nat → α :=
  let strides := Index.strides src.dims
  let stride := fun axis => strides.getD axis 0
  let kept := perm.map stride
  let steps := pairs.map fun p => stride p.1 + stride p.2
  let traced := (Index.all (pairs.map fun p => src.extent p.1)).map (Index.offset · steps)
  fun index =>
    let base := Index.offset index kept
    traced.foldl (fun sum t => sum + conjIf conj (src.read (base + t))) 0

/-! ### Contraction -/

/-- Paired axes must have one extent. -/
def checkAxes (a b : Tensor α) : List Nat → List Nat → Except BackendFault Unit
  | p :: ps, q :: qs =>
    if a.extent p = b.extent q then checkAxes a b ps qs
    else .error (.contractedExtents p q (a.extent p) (b.extent q))
  | _, _ => .ok ()

/-- The axes of a tensor that are not listed. -/
def openAxes (t : Tensor α) (axes : List Nat) : List Nat :=
  (List.range t.rank).filter fun axis => !axes.contains axis

/-- The extents of the open axes of the first tensor and then of the second. -/
def openExtents (a b : Tensor α) (axesA axesB : List Nat) : List Nat :=
  (a.openAxes axesA).map a.extent ++ (b.openAxes axesB).map b.extent

/-- Both tensors must give as many axes, of the same extents, and the destination must have the
extents of the open ones. -/
def checkContract (a b dst : Tensor α) (axesA axesB perm : List Nat) :
    Except BackendFault Unit := do
  if axesA.length ≠ axesB.length then throw .contractedLengths
  checkAxes a b axesA axesB
  let extents := openExtents a b axesA axesB
  if perm.length ≠ extents.length then throw (.permutationLength perm.length extents.length)
  checkDims dst (perm.map fun k => extents.getD k 0)

/-- The contraction at a multi-index: the sum of products over the paired axes. An open axis of
one tensor does not move within the other, so its stride there is zero. -/
def contractAt (a b : Tensor α) (conjA conjB : Bool) (axesA axesB perm : List Nat) :
    List Nat → α :=
  let stridesA := Index.strides a.dims
  let stridesB := Index.strides b.dims
  let strideA := fun axis => stridesA.getD axis 0
  let strideB := fun axis => stridesB.getD axis 0
  let openA := a.openAxes axesA
  let openB := b.openAxes axesB
  let outerA := openA.map strideA ++ openB.map fun _ => 0
  let outerB := (openA.map fun _ => 0) ++ openB.map strideB
  let outA := perm.map fun k => outerA.getD k 0
  let outB := perm.map fun k => outerB.getD k 0
  let inA := axesA.map strideA
  let inB := axesB.map strideB
  let inner := (Index.all (axesA.map a.extent)).map fun c =>
    (Index.offset c inA, Index.offset c inB)
  fun index =>
    let baseA := Index.offset index outA
    let baseB := Index.offset index outB
    inner.foldl (fun sum c =>
      sum + conjIf conjA (a.read (baseA + c.1)) * conjIf conjB (b.read (baseB + c.2))) 0

/-! ### Steps -/

/-- The check of a step. A copy is a trace over no pairs. -/
def checkAction (dst : Tensor α) (perm : List Nat) : Action (Tensor α) → Except BackendFault Unit
  | .copy src => checkTrace src.operand dst perm []
  | .trace src pairs => checkTrace src.operand dst perm pairs
  | .contract a b axesA axesB => checkContract a.operand b.operand dst axesA axesB perm

/-- The result of a step at a multi-index. -/
def actionAt (perm : List Nat) : Action (Tensor α) → List Nat → α
  | .copy src => traceAt src.operand src.conj perm []
  | .trace src pairs => traceAt src.operand src.conj perm pairs
  | .contract a b axesA axesB =>
    contractAt a.operand b.operand a.conj b.conj axesA axesB perm

/-- **Carries out a step on dense tensors.** -/
def perform (alpha beta : α) (action : Action (Tensor α)) (perm : List Nat) (dst : Tensor α) :
    Written (Tensor α) :=
  match checkAction dst perm action with
  | .ok () => ⟨dst.blendFn alpha beta (actionAt perm action), none⟩
  | .error fault => ⟨dst, some (.backend fault)⟩

end TensorNet.Tensor

namespace TensorNet.Backend

/-- The backend of dense tensors. It has no state, and a new buffer is filled with zeros. -/
def dense (σ α : Type) [Element α] : Backend σ (Tensor α) α where
  dims t := t.dims
  elementType _ := Element.type α
  allocate _ dims s := (.ok (Tensor.zeros dims), s)
  perform alpha beta action perm dst s := (Tensor.perform alpha beta action perm dst, s)

end TensorNet.Backend
