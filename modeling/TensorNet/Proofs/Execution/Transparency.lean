import Mathlib
import TensorNet.Proofs.Execution.Calls
import TensorNet.Proofs.Tensor.Lawful

/-!
# The cache does not show

Whatever was done with a cache before, a plan on dense tensors answers what it answers without a
cache. The reason is that a cache stays sound: buffers come back with the extents that they went
out for, also from a run that failed, so every buffer that is handed out has the right extents,
and what it still contains is written over.

When `β` counts as zero, the old destination does not show either.
-/

namespace TensorNet

variable {κ : Type} {A : κ → Type} [∀ k, Element (A k)] {k : κ} {σ : Type}

namespace Plan

variable [DecidableEq κ] {p : Plan} {context : ExecutionContext} {inputs : List (Tensor (A k))}
variable {alpha beta : A k} {c : Cache (Tensors A)}

theorem fitting_executeInto (hc : c.Fitting) (dst : Tensor (A k)) (t : σ) :
    (p.executeInto (.dense σ (A k)) context inputs alpha beta c dst t).2.1.Fitting := by
  rcases p.executeInto_cases context inputs alpha beta dst t with ⟨e, h⟩ | ⟨model, hm, hr, hd⟩
  · rw [h]
    exact hc
  · rw [p.executeInto_eq_run context inputs alpha beta hm hr hd]
    exact Execution.fitting_run rfl hc dst t

theorem fitting_execute (hc : c.Fitting) (t : σ) :
    (p.execute (.dense σ (A k)) context inputs alpha c t).2.1.Fitting := by
  rcases p.execute_cases context inputs alpha t with ⟨e, h⟩ | ⟨model, dims, hm, hdims⟩
  · rw [h]
    exact hc
  · obtain ⟨_, rfl, h⟩ := p.execute_eq_run context inputs alpha hm hdims c t
    rw [h]
    exact Execution.fitting_run rfl hc _ t

end Plan

/-! ### Histories -/

/-- What a client can do with a cache: calls of any plans, and the operations of the cache. -/
inductive CacheEvent {κ : Type} (A : κ → Type)
  | execute (k : κ) (p : Plan) (context : ExecutionContext) (inputs : List (Tensor (A k)))
      (alpha : A k)
  | executeInto (k : κ) (p : Plan) (context : ExecutionContext) (inputs : List (Tensor (A k)))
      (alpha beta : A k) (dst : Tensor (A k))
  | clear
  | evict
  | setEnabled (on : Bool)

namespace CacheEvent

variable [DecidableEq κ]

/-- The cache that an event leaves. -/
def apply (c : Cache (Tensors A)) : CacheEvent A → Cache (Tensors A)
  | execute k p context inputs alpha =>
    (p.execute (.dense Unit (A k)) context inputs alpha c ()).2.1
  | executeInto k p context inputs alpha beta dst =>
    (p.executeInto (.dense Unit (A k)) context inputs alpha beta c dst ()).2.1
  | clear => c.clear
  | evict => c.evict
  | setEnabled on => c.setEnabled on

theorem fitting_apply (e : CacheEvent A) {c : Cache (Tensors A)} (hc : c.Fitting) :
    (apply c e).Fitting := by
  cases e with
  | execute k p context inputs alpha => exact Plan.fitting_execute hc ()
  | executeInto k p context inputs alpha beta dst => exact Plan.fitting_executeInto hc dst ()
  | clear => exact hc.of_below (Cache.below_clear c)
  | evict => exact hc.of_below (Cache.below_evict c)
  | setEnabled on => exact hc

end CacheEvent

/-- The cache after a history, which starts with an empty cache. -/
def Cache.after [DecidableEq κ] (settings : CacheConfig) (history : List (CacheEvent A)) :
    Cache (Tensors A) :=
  history.foldl CacheEvent.apply (.ofConfig settings)

/-- **Every history leaves a sound cache.** -/
theorem Cache.fitting_after [DecidableEq κ] (settings : CacheConfig)
    (history : List (CacheEvent A)) : (after settings history).Fitting :=
  List.foldlRecOn history CacheEvent.apply (fun _ _ h => nomatch h)
    fun _ hc e _ => e.fitting_apply hc

/-! ### Answers -/

namespace Execution

variable {x : Execution κ (Tensors A) k σ (A k)} {init : List Instruction} {last : Instruction}

/-- An answer that is blended in with zero, on another destination and with another zero. -/
theorem answer_of_isZero {b : A k} (hb : Element.isZero x.beta = true)
    (hb' : Element.isZero b = true) {dst result : Tensor (A k)}
    (h : x.answer init last dst = ⟨result, none⟩) (dst' : Tensor (A k))
    (hd : dst'.dims = dst.dims) :
    ({ x with beta := b } : Execution κ (Tensors A) k σ (A k)).answer init last dst' =
      ⟨result, none⟩ := by
  obtain ⟨temps, f, hfold, hf, rfl⟩ := answer_eq_iff.1 h
  refine answer_eq_iff.2 ⟨temps, f, hfold, hd ▸ hf, ?_⟩
  rw [Tensor.blendFn_of_isZero hb, ← hd]
  exact Tensor.blendFn_of_isZero hb' dst' f

end Execution

namespace Plan

variable [DecidableEq κ] {p : Plan} {context : ExecutionContext} {inputs : List (Tensor (A k))}
variable {alpha beta : A k} {c d : Cache (Tensors A)}

theorem executeInto_congr (hzero : Element.isZero (0 : A k) = true) {init : List Instruction}
    {last : Instruction} (hs : p.steps = init ++ [last]) (hi : ∀ s ∈ init, Lowering.Interior s)
    (hf : Final last) (hc : c.enabled = true → c.Fitting) (hd : d.enabled = true → d.Fitting)
    (dst : Tensor (A k)) (t : σ) :
    (p.executeInto (.dense σ (A k)) context inputs alpha beta c dst t).1 =
      (p.executeInto (.dense σ (A k)) context inputs alpha beta d dst t).1 := by
  rcases p.executeInto_cases context inputs alpha beta dst t with ⟨e, h⟩ | ⟨model, hm, hr, hl⟩
  · rw [h, h]
  · rw [p.executeInto_eq_run context inputs alpha beta hm hr hl,
      p.executeInto_eq_run context inputs alpha beta hm hr hl, run_running hzero hs hi hf hc,
      run_running hzero hs hi hf hd]

theorem execute_congr (hzero : Element.isZero (0 : A k) = true) {init : List Instruction}
    {last : Instruction} (hs : p.steps = init ++ [last]) (hi : ∀ s ∈ init, Lowering.Interior s)
    (hf : Final last) (hc : c.enabled = true → c.Fitting) (hd : d.enabled = true → d.Fitting)
    (t : σ) :
    (p.execute (.dense σ (A k)) context inputs alpha c t).1 =
      (p.execute (.dense σ (A k)) context inputs alpha d t).1 := by
  rcases p.execute_cases context inputs alpha t with ⟨e, h⟩ | ⟨model, dims, hm, hdims⟩
  · rw [h, h]
  · obtain ⟨_, rfl, hc'⟩ := p.execute_eq_run context inputs alpha hm hdims c t
    obtain ⟨_, rfl, hd'⟩ := p.execute_eq_run context inputs alpha hm hdims d t
    rw [hc', hd', run_running hzero hs hi hf hc, run_running hzero hs hi hf hd]

/-- **A success with a zero `β`** is the answer for every destination of the same extents, and the
tensor that is returned for the same `α`. -/
theorem answers_of_isZero (hp : p.Proper) (hzero : Element.isZero (0 : A k) = true)
    {init : List Instruction} {last : Instruction} (hs : p.steps = init ++ [last])
    (hi : ∀ s ∈ init, Lowering.Interior s) (hf : Final last) (hc : c.enabled = true → c.Fitting)
    (hb : Element.isZero beta = true) {dst result : Tensor (A k)} {t : σ}
    (h : (p.executeInto (.dense σ (A k)) context inputs alpha beta c dst t).1 = ⟨result, none⟩) :
    (∀ dst' : Tensor (A k), dst'.dims = dst.dims →
      (p.executeInto (.dense σ (A k)) context inputs alpha beta c dst' t).1 = ⟨result, none⟩) ∧
    (p.execute (.dense σ (A k)) context inputs alpha c t).1 = .ok result := by
  rcases p.executeInto_cases context inputs alpha beta dst t with ⟨e, he⟩ | ⟨model, hm, hr, hl⟩
  · rw [he] at h
    cases h
  · rw [p.executeInto_eq_run context inputs alpha beta hm hr hl, run_running hzero hs hi hf hc] at h
    refine ⟨fun dst' hd => ?_, ?_⟩
    · rw [p.executeInto_eq_run context inputs alpha beta hm hr (hd ▸ hl), hd,
        run_running hzero hs hi hf hc]
      exact Execution.answer_of_isZero
        (x := p.running σ context inputs model dst.dims alpha beta) hb hb h dst' hd
    · obtain ⟨temps, f, hfold, hcomp, -⟩ := Execution.answer_eq_iff.1 h
      have hfits : (p.running σ context inputs model dst.dims alpha beta).Fits := ⟨hp, rfl, hr⟩
      have hdims : p.outputDims (inputs.map Tensor.dims) = .ok dst.dims :=
        hfits.outputDims_of_compute hs (Execution.sized_foldlM hfold) hcomp
      obtain ⟨_, rfl, hx⟩ := p.execute_eq_run context inputs alpha hm hdims c t
      rw [hx, run_running hzero hs hi hf hc]
      have hans := Execution.answer_of_isZero
        (x := p.running σ context inputs model dst.dims alpha beta) hb hzero h (.zeros dst.dims) rfl
      exact congrArg returned hans

/-- **The cache is transparent.** After any history of calls and cache operations, a call answers
what it answers with a cache that is switched off. A success with a zero `β` does not depend on what
was in the destination, and it is the tensor that is returned for the same `α`. -/
theorem cache_transparent (hzero : Element.isZero (0 : A k) = true) (settings : CacheConfig)
    (history : List (CacheEvent A)) (hd : d.enabled = false) {factors : List Factor}
    {output : Option (List Label)} {net : Network} (hnet : Network.build factors output = .ok net)
    {ids ids' : PlanIds} {config : PlanConfig} (hp : create ids net config = .ok (p, ids'))
    (context : ExecutionContext) (inputs : List (Tensor (A k))) (alpha beta : A k)
    (dst : Tensor (A k)) :
    (p.execute (.dense Unit (A k)) context inputs alpha (.after settings history) ()).1 =
        (p.execute (.dense Unit (A k)) context inputs alpha d ()).1 ∧
      (p.executeInto (.dense Unit (A k)) context inputs alpha beta (.after settings history)
          dst ()).1 =
        (p.executeInto (.dense Unit (A k)) context inputs alpha beta d dst ()).1 ∧
      (Element.isZero beta = true → ∀ result,
        (p.executeInto (.dense Unit (A k)) context inputs alpha beta (.after settings history)
          dst ()).1 = ⟨result, none⟩ →
        (∀ dst' : Tensor (A k), dst'.dims = dst.dims →
          (p.executeInto (.dense Unit (A k)) context inputs alpha beta (.after settings history)
            dst' ()).1 = ⟨result, none⟩) ∧
        (p.execute (.dense Unit (A k)) context inputs alpha (.after settings history) ()).1 =
          .ok result) := by
  obtain ⟨init, last, hs, hi, hf⟩ := exists_steps_of_create hp
  have hc : (Cache.after settings history).enabled = true →
      (Cache.after settings history).Fitting := fun _ => Cache.fitting_after settings history
  have hoff : d.enabled = true → d.Fitting := fun h => absurd (h.symm.trans hd) nofun
  refine ⟨execute_congr hzero hs hi hf hc hoff (), executeInto_congr hzero hs hi hf hc hoff dst (),
    fun hb result h => ?_⟩
  have hproper := proper_of_create (Network.lawful_of_build hnet).1 hp
  exact answers_of_isZero hproper hzero hs hi hf hc hb h

/-- The product of three matrices of integers, after the same product and an eviction. -/
theorem cache_transparent_chain :
    let inputs : List (Tensor Int) := [.fill [1, 2] 1, .fill [2, 1] 3, .fill [1, 2] 2]
    let cache : Cache (Tensors fun _ : Unit => Int) :=
      .after {} [.executeInto () chain default inputs 5 0 (.fill [1, 2] 7), .evict]
    ∃ result : Tensor Int,
      (∀ dst : Tensor Int, dst.dims = [1, 2] →
        (chain.executeInto (k := ()) (.dense Unit Int) default inputs 5 0 cache dst ()).1 =
          ⟨result, none⟩) ∧
      (chain.execute (k := ()) (.dense Unit Int) default inputs 5 cache ()).1 = .ok result := by
  intro inputs cache
  obtain ⟨-, hinto, hzero⟩ := cache_transparent (k := ()) (A := fun _ : Unit => Int) rfl {}
    [.executeInto () chain default inputs 5 0 (.fill [1, 2] 7), .evict] (d := .disabled) rfl
    Network.build_chain create_chain default inputs 5 0 (.fill [1, 2] 7)
  have hok : (chain.executeInto (k := ()) (.dense Unit Int) default inputs 5 0
      (.disabled : Cache (Tensors fun _ : Unit => Int)) (.fill [1, 2] 7) ()).1.failure = none := by
    cbv
  obtain ⟨result, hw⟩ : ∃ result : Tensor Int, (chain.executeInto (k := ()) (.dense Unit Int)
      default inputs 5 0 (.disabled : Cache (Tensors fun _ : Unit => Int)) (.fill [1, 2] 7) ()).1 =
        ⟨result, none⟩ := ⟨_, congrArg (Written.mk _) hok⟩
  exact ⟨result, hzero rfl result (hinto.trans hw)⟩

end Plan

end TensorNet
