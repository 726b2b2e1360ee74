import TensorNet.Proofs.Execution.Held
import TensorNet.Proofs.Outcome
import TensorNet.Proofs.Plan.Created

/-!
# What a run answers

The answer of a run on dense tensors without any cache: every step but the last computes its
temporary from those that are held, and the last one is blended into the destination. A run with
a cache gives the same answer as long as the cache hands out buffers of the right extents, since
a step that writes a temporary writes all of it and reads nothing of what was there.

The only law of elements that this needs is that zero counts as zero.
-/

namespace TensorNet

namespace Execution

open Lowering (Interior)
open Plan (Final)

/-- The temporaries that are left when an operand has been read. -/
def dropRead {τ : Type} (temps : List (Nat × τ)) : Operand → List (Nat × τ)
  | .temporary slot => temps.filter fun t => t.1 != slot
  | _ => temps

theorem lookup_dropRead_foldl {τ : Type} {os : List Operand} {slot : Nat}
    (h : .temporary slot ∉ os) (temps : List (Nat × τ)) :
    (os.foldl dropRead temps).lookup slot = temps.lookup slot := by
  induction os generalizing temps with
  | nil => rfl
  | cons o os ih =>
    rw [List.mem_cons, not_or] at h
    rw [List.foldl_cons, ih h.2]
    cases o with
    | temporary s =>
      have hne : slot ≠ s := fun he => h.1 (congrArg Operand.temporary he)
      rw [dropRead, lookup_filter_ne, if_neg hne]
    | input i => rfl
    | destination => rfl

section

variable {κ : Type} {β : κ → Type} {k : κ} {σ α : Type} (x : Execution κ β k σ α)

theorem temps_foldl_giveBackRead (os : List Operand) (r : RunState β k σ) :
    (os.foldl x.giveBackRead r).temps = os.foldl dropRead r.temps := by
  induction os generalizing r with
  | nil => rfl
  | cons o os ih =>
    rw [List.foldl_cons, ih, List.foldl_cons]
    cases o with
    | temporary slot =>
      exact congrArg (fun temps => os.foldl dropRead temps) (x.temps_giveBack r slot)
    | input i => rfl
    | destination => rfl

theorem dst_foldl_giveBackRead (os : List Operand) (r : RunState β k σ) :
    (os.foldl x.giveBackRead r).dst = r.dst := by
  induction os generalizing r with
  | nil => rfl
  | cons o os ih =>
    rw [List.foldl_cons, ih]
    cases o with
    | temporary slot => exact x.dst_giveBack r slot
    | input i => rfl
    | destination => rfl

end

variable {κ : Type} {A : κ → Type} [∀ k, Element (A k)] {k : κ} {σ : Type}
variable (x : Execution κ (Tensors A) k σ (A k))

/-- What a step computes from the temporaries that are held, for a destination of the given
extents. -/
def compute (s : Instruction) (temps : List (Nat × Tensor (A k))) (dims : List Nat) :
    Except Error (List Nat → A k) := do
  x.checkExtents s
  let action ← s.action.resolve (x.source temps)
  match Tensor.checkAction (Tensor.zeros dims) s.perm action with
  | .ok () => return Tensor.actionAt s.perm action
  | .error fault => throw (.backend fault)

/-- The temporaries after a step that writes one of them. -/
def hold (temps : List (Nat × Tensor (A k))) (s : Instruction) :
    Except Error (List (Nat × Tensor (A k))) :=
  match s.dst with
  | .temporary slot => do
    let f ← x.compute s temps (x.dimsOf (.temporary slot))
    let t := Tensor.ofFn (x.dimsOf (.temporary slot)) fun i => 1 * f i
    return s.sources.foldl dropRead ((slot, t) :: temps.filter fun u => u.1 != slot)
  | _ => return temps

/-- What the last step leaves in the destination. -/
def finish (s : Instruction) (temps : List (Nat × Tensor (A k))) (dst : Tensor (A k)) :
    Written (Tensor (A k)) :=
  match x.compute s temps dst.dims with
  | .ok f => ⟨dst.blendFn x.alpha x.beta f, none⟩
  | .error e => ⟨dst, some e⟩

/-- **What a run answers**, step after step and without a cache. -/
def answer (init : List Instruction) (last : Instruction) (dst : Tensor (A k)) :
    Written (Tensor (A k)) :=
  match init.foldlM x.hold [] with
  | .ok temps => x.finish last temps dst
  | .error e => ⟨dst, some e⟩

/-! ### A step -/

variable {x} {s : Instruction}

/-- When a run succeeds, and what it then answers. -/
theorem answer_eq_iff {init : List Instruction} {last : Instruction} {dst result : Tensor (A k)} :
    x.answer init last dst = ⟨result, none⟩ ↔ ∃ temps f, init.foldlM x.hold [] = .ok temps ∧
      x.compute last temps dst.dims = .ok f ∧ dst.blendFn x.alpha x.beta f = result := by
  unfold answer finish
  constructor
  · intro h
    split at h
    · next temps hfold =>
      split at h
      · next f hf =>
        cases h
        exact ⟨temps, f, hfold, hf, rfl⟩
      · cases h
    · cases h
  · rintro ⟨temps, f, hfold, hf, rfl⟩
    simp only [hfold, hf]

/-- What the backend does, given that the extents were checked. -/
theorem perform_eq (hx : x.backend = .dense σ (A k)) (hs : x.checkExtents s = .ok ())
    (temps : List (Nat × Tensor (A k))) (dst : Tensor (A k)) (t : σ) :
    (x.perform s temps dst t).1 =
      match x.compute s temps dst.dims with
      | .ok f => ⟨dst.blendFn (x.scalar s.alpha) (x.scalar s.beta) f, none⟩
      | .error e => ⟨dst, some e⟩ := by
  unfold perform compute
  rw [hs, hx]
  cases s.action.resolve (x.source temps) with
  | error e => rfl
  | ok action =>
    simp only [ok_bind]
    show Tensor.perform _ _ action s.perm dst = _
    have hdims : dst.dims = (Tensor.zeros dst.dims : Tensor (A k)).dims := rfl
    have hchk := Tensor.checkAction_congr hdims s.perm action
    cases hz : Tensor.checkAction (Tensor.zeros dst.dims) s.perm action with
    | error fault =>
      rw [Tensor.perform, hchk, hz]
      rfl
    | ok u =>
      rw [Tensor.perform, hchk, hz]
      rfl

variable [DecidableEq κ] {r : RunState (Tensors A) k σ} {q : Prop}

/-- The outcome of a step, or of several, that leaves the destination alone. -/
def Follows (held : Except Error (List (Nat × Tensor (A k)))) (dst : Tensor (A k))
    (out : Option Error × RunState (Tensors A) k σ) : Prop :=
  out.2.dst = dst ∧
    match held with
    | .ok temps => out.1 = none ∧ out.2.temps = temps
    | .error e => out.1 = some e

variable (hx : x.backend = .dense σ (A k))
include hx

/-- **A step that writes a temporary** holds what it computes, whatever buffer it was given. -/
theorem step_interior (hzero : Element.isZero (0 : A k) = true) (h : Held x q r)
    (hi : Interior s) : Follows (x.hold r.temps s) r.dst (x.step s r) := by
  obtain ⟨slot, hdst⟩ := hi.dst
  obtain ⟨b, c, hacq, hb, -⟩ := x.acquire_spec hx (fun hon => h.sound (h.enabled hon)) slot
  cases hchk : x.checkExtents s with
  | error e =>
    simp only [Follows, hold, step, hdst, compute, hchk, error_bind, and_self]
  | ok u =>
    have hperf := perform_eq hx hchk r.temps b r.state
    simp only [step, hchk, hdst, writeTemporary, hacq, hold]
    rw [hb] at hperf
    cases hf : x.compute s r.temps (x.dimsOf (.temporary slot)) with
    | error e =>
      rw [hf] at hperf
      simp only [hperf, finishStep, error_bind]
      exact ⟨rfl, rfl⟩
    | ok f =>
      rw [hf] at hperf
      simp only [hperf, finishStep, ok_bind]
      refine ⟨dst_foldl_giveBackRead .., rfl, ?_⟩
      rw [temps_foldl_giveBackRead, hi.alpha, hi.beta]
      have hblend : b.blendFn (x.scalar .one) (x.scalar .zero) f = .ofFn b.dims fun i => 1 * f i :=
        Tensor.blendFn_of_isZero hzero b f
      rw [hblend, hb]

/-- The steps before the last one. -/
theorem steps_interior (hzero : Element.isZero (0 : A k) = true) {init : List Instruction}
    (rest : List Instruction) (hi : ∀ s ∈ init, Interior s) (h : Held x q r) :
    match init.foldlM x.hold r.temps with
    | .ok temps => ∃ r', Held x q r' ∧ r'.temps = temps ∧ r'.dst = r.dst ∧
        x.steps (init ++ rest) r = x.steps rest r'
    | .error e => (x.steps (init ++ rest) r).1 = some e ∧
        (x.steps (init ++ rest) r).2.dst = r.dst := by
  induction init generalizing r with
  | nil => exact ⟨r, h, rfl, rfl, rfl⟩
  | cons s init ih =>
    obtain ⟨hdst, hstep⟩ := step_interior hx hzero h (hi s List.mem_cons_self)
    have hheld := h.step hx s
    rw [List.foldlM_cons, List.cons_append, steps]
    cases hf : x.hold r.temps s with
    | error e =>
      rw [hf] at hstep
      cases hst : x.step s r with
      | mk failure r' =>
        rw [hst] at hstep hdst
        obtain rfl : failure = some e := hstep
        exact ⟨rfl, hdst⟩
    | ok temps =>
      rw [hf] at hstep
      cases hst : x.step s r with
      | mk failure r' =>
        rw [hst] at hstep hdst hheld
        obtain ⟨rfl, rfl⟩ : failure = none ∧ r'.temps = temps := hstep
        have := ih (fun s hs => hi s (List.mem_cons_of_mem _ hs)) hheld
        simp only [ok_bind]
        cases hrest : init.foldlM x.hold r'.temps with
        | error e =>
          rw [hrest] at this
          exact ⟨this.1, this.2.trans hdst⟩
        | ok temps =>
          rw [hrest] at this
          obtain ⟨r'', h1, h2, h3, h4⟩ := this
          exact ⟨r'', h1, h2, h3.trans hdst, h4⟩

/-- **The last step** blends what it computes into the destination. -/
theorem step_final (hf : Final s) (r : RunState (Tensors A) k σ) :
    (x.step s r).1 = (x.finish s r.temps r.dst).failure ∧
      (x.step s r).2.dst = (x.finish s r.temps r.dst).dst := by
  cases hchk : x.checkExtents s with
  | error e =>
    simp only [step, hchk, finish, compute, error_bind, and_self]
  | ok u =>
    have hperf := perform_eq hx hchk r.temps r.dst r.state
    rw [hf.alpha, hf.beta] at hperf
    simp only [step, hchk, hf.dst, writeDestination, finish]
    cases hc : x.compute s r.temps r.dst.dims with
    | error e =>
      rw [hc] at hperf
      simp only [hperf, finishStep, and_self]
    | ok f =>
      rw [hc] at hperf
      simp only [hperf, finishStep]
      exact ⟨trivial, dst_foldl_giveBackRead ..⟩

/-- **A run answers what it would answer without a cache.** The cache may be in any state in which
it hands out buffers of the right extents. -/
theorem run_eq (hzero : Element.isZero (0 : A k) = true) {init : List Instruction}
    {last : Instruction} (hs : x.plan.steps = init ++ [last]) (hi : ∀ s ∈ init, Interior s)
    (hf : Final last) {c : Cache (Tensors A)} (hc : c.enabled = true → c.Fitting)
    (dst : Tensor (A k)) (t : σ) : (x.run c dst t).1 = x.answer init last dst := by
  have hheld : Held x (c.enabled = true) ⟨c, [], dst, t⟩ := .start hc id dst t
  have hsteps := steps_interior hx hzero [last] hi hheld
  have hrun : ∀ out, x.steps x.plan.steps ⟨c, [], dst, t⟩ = out →
      (x.run c dst t).1 = ⟨out.2.dst, out.1⟩ := by
    rintro out rfl
    simp only [run, dst_foldl_giveBack]
  rw [hrun _ rfl, hs]
  simp only [answer]
  cases hfold : init.foldlM x.hold [] with
  | error e =>
    rw [hfold] at hsteps
    rw [hsteps.1, hsteps.2]
  | ok temps =>
    rw [hfold] at hsteps
    obtain ⟨r, -, rfl, rfl, hr⟩ := hsteps
    obtain ⟨h1, h2⟩ := step_final hx hf r
    have hlast : ∀ out, x.step last r = out → (x.steps [last] r).2.dst = out.2.dst ∧
        (x.steps [last] r).1 = out.1 := by
      rintro ⟨failure, r'⟩ he
      rw [steps, he]
      cases failure with
      | none => exact ⟨rfl, rfl⟩
      | some e => exact ⟨rfl, rfl⟩
    rw [hr, (hlast _ rfl).1, (hlast _ rfl).2, h1, h2]

end Execution

end TensorNet
