import TensorNet.Proofs.Execution.Extents

/-!
# Calls as runs

A call on dense tensors is refused by its checks, or it is a run of the steps of the plan: a call
that writes into a destination runs on this destination, a call that returns a tensor runs on zeros.
The answer to a run does not depend on the cache.
-/

namespace TensorNet

variable {κ : Type} {A : κ → Type} [∀ k, Element (A k)] {k : κ} {σ : Type}

namespace Plan

/-- A run of a plan on dense tensors. -/
def running (p : Plan) (σ : Type) (context : ExecutionContext) (inputs : List (Tensor (A k)))
    (model : Tensor (A k)) (dstDims : List Nat) (alpha beta : A k) :
    Execution κ (Tensors A) k σ (A k) :=
  ⟨.dense σ (A k), p, context, inputs, model, inputs.map Tensor.dims, dstDims, alpha, beta⟩

/-- The result of a call that returns a tensor. -/
def returned {τ : Type} : Written τ → Except Error τ
  | ⟨dst, none⟩ => .ok dst
  | ⟨_, some e⟩ => .error e

/-- A call that returns a buffer, once this has been made, is a run on it. -/
theorem execute_made {β : κ → Type} {α : Type} [DecidableEq κ] [Zero α] [One α] (p : Plan)
    (backend : Backend σ (β k) α) (context : ExecutionContext) (inputs : List (β k)) (alpha : α)
    {model dst : β k} {dims : List Nat} {t t' : σ} (hm : inputs.head? = some model)
    (hdims : p.outputDims (inputs.map backend.dims) = .ok dims)
    (hmade : backend.allocate model dims t = (.ok dst, t')) (c : Cache β) :
    let x : Execution κ β k σ α :=
      ⟨backend, p, context, inputs, model, inputs.map backend.dims, backend.dims dst, alpha, 0⟩
    p.execute backend context inputs alpha c t =
      (returned (x.run c dst t').1, (x.run c dst t').2) := by
  intro x
  obtain ⟨rest, rfl⟩ := List.head?_eq_some_iff.1 hm
  unfold execute
  simp only [hdims, hmade]
  have hrun : ∀ r, x.run c dst t' = r →
      (returned (x.run c dst t').1, (x.run c dst t').2) = (returned r.1, r.2) := by
    rintro r rfl
    rfl
  split
  · next hr => exact (hrun _ hr).symm
  · next hr => exact (hrun _ hr).symm

variable [DecidableEq κ] (p : Plan) (context : ExecutionContext) (inputs : List (Tensor (A k)))
variable (alpha beta : A k)

/-- A call with inputs and a destination of the right ranks is a run. -/
theorem executeInto_eq_run {model : Tensor (A k)} (hm : inputs.head? = some model)
    (hr : p.Ranked (inputs.map Tensor.dims)) {dst : Tensor (A k)}
    (hd : dst.dims.length = p.network.output.length) (c : Cache (Tensors A)) (t : σ) :
    p.executeInto (.dense σ (A k)) context inputs alpha beta c dst t =
      (p.running σ context inputs model dst.dims alpha beta).run c dst t := by
  obtain ⟨rest, rfl⟩ := List.head?_eq_some_iff.1 hm
  have h : p.checkDestination ((model :: rest).map (Backend.dense σ (A k)).dims)
      ((Backend.dense σ (A k)).dims dst) = .ok () := by
    have hin : p.checkInputs ((model :: rest).map (Backend.dense σ (A k)).dims) = .ok () :=
      checkInputs_eq_ok.2 hr
    have hlen : ¬ ((Backend.dense σ (A k)).dims dst).length ≠ p.network.output.length :=
      not_not_intro hd
    simp only [checkDestination, hin, ok_bind, hlen, if_false]
    rfl
  unfold executeInto
  simp only [h]
  rfl

/-- Other calls are refused. Which calls these are does not depend on the cache. -/
theorem executeInto_cases (dst : Tensor (A k)) (t : σ) :
    (∃ e, ∀ c : Cache (Tensors A),
      p.executeInto (.dense σ (A k)) context inputs alpha beta c dst t = (⟨dst, some e⟩, c, t)) ∨
    ∃ model, inputs.head? = some model ∧ p.Ranked (inputs.map Tensor.dims) ∧
      dst.dims.length = p.network.output.length := by
  cases hchk : p.checkDestination (inputs.map Tensor.dims) dst.dims with
  | error e =>
    refine .inl ⟨e, fun c => ?_⟩
    unfold executeInto
    have h : p.checkDestination (inputs.map (Backend.dense σ (A k)).dims)
        ((Backend.dense σ (A k)).dims dst) = .error e := hchk
    simp only [h]
  | ok u =>
    cases inputs with
    | nil =>
      refine .inl ⟨.backend (.missingInput 0), fun c => ?_⟩
      unfold executeInto
      have h : p.checkDestination (([] : List (Tensor (A k))).map (Backend.dense σ (A k)).dims)
        ((Backend.dense σ (A k)).dims dst) = .ok () := hchk
      simp only [h]
    | cons model rest =>
      obtain ⟨⟨⟩, hin, hlen⟩ := bind_eq_ok.1 hchk
      refine .inr ⟨model, rfl, checkInputs_eq_ok.1 hin, ?_⟩
      by_contra hne
      rw [if_pos hne] at hlen
      cases hlen

theorem execute_eq_run {model : Tensor (A k)} {dims : List Nat} (hm : inputs.head? = some model)
    (hdims : p.outputDims (inputs.map Tensor.dims) = .ok dims) (c : Cache (Tensors A)) (t : σ) :
    ∃ r, r = (p.running σ context inputs model dims alpha 0).run c (.zeros dims) t ∧
      p.execute (.dense σ (A k)) context inputs alpha c t = (returned r.1, r.2) :=
  ⟨_, rfl, p.execute_made (.dense σ (A k)) context inputs alpha hm hdims rfl c⟩

/-- A call that returns a tensor is refused, or it is a run on zeros. -/
theorem execute_cases (t : σ) :
    (∃ e, ∀ c : Cache (Tensors A),
      p.execute (.dense σ (A k)) context inputs alpha c t = (.error e, c, t)) ∨
    ∃ model dims, inputs.head? = some model ∧
      p.outputDims (inputs.map Tensor.dims) = .ok dims := by
  cases hdims : p.outputDims (inputs.map Tensor.dims) with
  | error e =>
    refine .inl ⟨e, fun c => ?_⟩
    unfold execute
    have h : p.outputDims (inputs.map (Backend.dense σ (A k)).dims) = .error e := hdims
    simp only [h]
  | ok dims =>
    cases inputs with
    | nil =>
      refine .inl ⟨.backend (.missingInput 0), fun c => ?_⟩
      unfold execute
      have h : p.outputDims (([] : List (Tensor (A k))).map (Backend.dense σ (A k)).dims) =
        .ok dims := hdims
      simp only [h]
    | cons model rest => exact .inr ⟨model, dims, rfl, rfl⟩

variable {p context inputs alpha beta}

/-- The answer to a run does not depend on the cache. -/
theorem run_running (hzero : Element.isZero (0 : A k) = true) {init : List Instruction}
    {last : Instruction} (hs : p.steps = init ++ [last]) (hi : ∀ s ∈ init, Lowering.Interior s)
    (hf : Final last) {c : Cache (Tensors A)} (hc : c.enabled = true → c.Fitting)
    (model : Tensor (A k)) (dims : List Nat) (dst : Tensor (A k)) (t : σ) :
    ((p.running σ context inputs model dims alpha beta).run c dst t).1 =
      (p.running σ context inputs model dims alpha beta).answer init last dst :=
  Execution.run_eq rfl hzero hs hi hf hc dst t

end Plan

end TensorNet
