import TensorNet.Execution
import TensorNet.Proofs.Backend.Checks
import TensorNet.Proofs.Cache.Sound

/-!
# Buffers during a run

On dense tensors every step keeps the extents of the buffer that it writes, whether it fails or not.
So a temporary that is held has the extents of its slot all along, and when it goes back to the
cache it fits the entry that is kept for it. Hence any run, of any plan, leaves a sound cache sound.
-/

namespace TensorNet

/-- The tensors of each kind of number. -/
abbrev Tensors {κ : Type} (A : κ → Type) : κ → Type := fun k => Tensor (A k)

/-- A cache of tensors whose idle buffers have the extents of their entries. -/
abbrev Cache.Fitting {κ : Type} {A : κ → Type} (c : Cache (Tensors A)) : Prop :=
  c.Sound fun _ b => b.dims

namespace Execution

section

variable {κ : Type} {β : κ → Type} {k : κ} {σ α : Type} (x : Execution κ β k σ α)

/-! ### What giving back does -/

@[simp] theorem dst_giveBack (r : RunState β k σ) (slot : Nat) :
    (x.giveBack r slot).dst = r.dst := by
  unfold giveBack
  split
  · rfl
  · rfl

theorem temps_giveBack (r : RunState β k σ) (slot : Nat) :
    (x.giveBack r slot).temps = r.temps.filter fun t => t.1 != slot := by
  unfold giveBack
  split
  · next h =>
    refine (List.filter_eq_self.2 fun t ht => ?_).symm
    have hne : (slot != t.1) = true := List.lookup_eq_none_iff.1 h t ht
    exact bne_iff_ne.2 (Ne.symm (bne_iff_ne.1 hne))
  · rfl

theorem dst_foldl_giveBack (slots : List Nat) (r : RunState β k σ) :
    (slots.foldl x.giveBack r).dst = r.dst := by
  induction slots generalizing r with
  | nil => rfl
  | cons slot slots ih => rw [List.foldl_cons, ih, dst_giveBack]

theorem temps_foldl_giveBack (slots : List Nat) (r : RunState β k σ) :
    (slots.foldl x.giveBack r).temps = r.temps.filter fun t => t.1 ∉ slots := by
  induction slots generalizing r with
  | nil => exact (List.filter_eq_self.2 fun t _ => decide_eq_true List.not_mem_nil).symm
  | cons slot slots ih =>
    rw [List.foldl_cons, ih, temps_giveBack, List.filter_filter]
    refine List.filter_congr fun t _ => ?_
    rw [Bool.eq_iff_iff, Bool.and_eq_true, decide_eq_true_iff, decide_eq_true_iff, bne_iff_ne,
      List.mem_cons, not_or, and_comm]

/-- When all temporaries have been given back, nothing is held. -/
theorem temps_giveAllBack (r : RunState β k σ) :
    ((r.temps.map (·.1)).foldl x.giveBack r).temps = [] := by
  rw [temps_foldl_giveBack, List.filter_eq_nil_iff]
  exact fun u hu => by simpa using ⟨u.2, hu⟩

/-- A run is its steps, and what is still held is given back. -/
theorem run_of_steps [DecidableEq κ] [Zero α] [One α] {c : Cache β} {dst : β k} {t : σ}
    {failure : Option Error} {r : RunState β k σ}
    (h : x.steps x.plan.steps ⟨c, [], dst, t⟩ = (failure, r)) : x.run c dst t =
      (⟨((r.temps.map (·.1)).foldl x.giveBack r).dst, failure⟩,
        ((r.temps.map (·.1)).foldl x.giveBack r).cache,
        ((r.temps.map (·.1)).foldl x.giveBack r).state) := by
  rw [run, h]

theorem key_inj {i j : Nat} (h : x.key i = x.key j) : i = j := congrArg CacheKey.slot h

end

/-! ### What is held -/

variable {κ : Type} {A : κ → Type} {k : κ} {σ : Type}
variable {x : Execution κ (Tensors A) k σ (A k)}

/-- The temporaries that are held have the extents of their slots, and so have the entries in the
cache that wait for them. Only a disabled cache may be unsound. -/
structure Held (x : Execution κ (Tensors A) k σ (A k)) (q : Prop)
    (r : RunState (Tensors A) k σ) : Prop where
  sound : q → r.cache.Fitting
  enabled : r.cache.enabled = true → q
  dims : ∀ t ∈ r.temps, t.2.dims = x.dimsOf (.temporary t.1)
  specs : r.cache.enabled = true → ∀ t ∈ r.temps, ∀ spec,
    r.cache.spec? (x.key t.1) = some spec → spec.dims = x.dimsOf (.temporary t.1)

variable {r : RunState (Tensors A) k σ} {q : Prop}

/-- Nothing is held when a run starts. -/
theorem Held.start {c : Cache (Tensors A)} (hc : q → c.Fitting) (hon : c.enabled = true → q)
    (dst : Tensor (A k)) (t : σ) : Held x q ⟨c, [], dst, t⟩ :=
  ⟨hc, hon, fun _ h => (List.not_mem_nil h).elim, fun _ _ h => (List.not_mem_nil h).elim⟩

theorem Held.giveBack (h : Held x q r) (slot : Nat) : Held x q (x.giveBack r slot) := by
  unfold Execution.giveBack
  split
  · exact h
  · next b hb =>
    have hm := mem_of_lookup hb
    have hfit : r.cache.enabled = true → ∀ spec, r.cache.spec? (x.key slot) = some spec →
        spec.dims = b.dims :=
      fun hon spec hspec => (h.specs hon _ hm spec hspec).trans (h.dims _ hm).symm
    obtain ⟨hs, hspec⟩ := Cache.release_spec (fun _ => Tensor.dims) hfit
    refine ⟨fun hq => hs (h.sound hq), fun hon => h.enabled (Cache.enabled_release .. ▸ hon),
      fun t ht => h.dims t (List.mem_filter.1 ht).1, fun hon t ht spec ht' => ?_⟩
    exact h.specs (Cache.enabled_release .. ▸ hon) t (List.mem_filter.1 ht).1 spec
      (hspec _ _ ht')

theorem Held.giveBackRead (h : Held x q r) (o : Operand) :
    Held x q (x.giveBackRead r o) := by
  cases o with
  | temporary slot => exact h.giveBack slot
  | input i => exact h
  | destination => exact h

theorem Held.foldl_giveBack (h : Held x q r) (slots : List Nat) :
    Held x q (slots.foldl x.giveBack r) := by
  induction slots generalizing r with
  | nil => exact h
  | cons slot slots ih => exact ih (h.giveBack slot)

theorem Held.finishStep (h : Held x q r) (s : Instruction) (failure : Option Error) :
    Held x q (x.finishStep s failure r).2 := by
  have fold : ∀ (os : List Operand) (r : RunState (Tensors A) k σ), Held x q r →
      Held x q (os.foldl x.giveBackRead r) := by
    intro os
    induction os with
    | nil => exact fun r h => h
    | cons o os ih => exact fun r h => ih _ (h.giveBackRead o)
  cases failure with
  | some e => exact h
  | none => exact fold s.sources r h

/-! ### Steps -/

section

variable [∀ k, Element (A k)] (hx : x.backend = .dense σ (A k))
include hx

theorem dims_perform (s : Instruction) (temps : List (Nat × Tensor (A k))) (dst : Tensor (A k))
    (t : σ) :
    (x.perform s temps dst t).1.dst.dims = dst.dims ∧ (x.perform s temps dst t).2 = t := by
  unfold perform
  split
  · exact ⟨rfl, rfl⟩
  · rw [hx]
    exact ⟨Tensor.dims_perform .., rfl⟩

variable [DecidableEq κ]

/-- **A temporary is taken from the cache or made**, with the extents of its slot. -/
theorem acquire_spec (hs : r.cache.enabled = true → r.cache.Fitting) (slot : Nat) :
    ∃ b c, x.acquire slot r = (.ok b, c, r.state) ∧ b.dims = x.dimsOf (.temporary slot) ∧
      ∃ spec : BufferSpec, spec.dims = x.dimsOf (.temporary slot) ∧
        Cache.Got (fun _ b => b.dims) r.cache (x.key slot) spec c := by
  have hacq : x.acquire slot r = r.cache.acquire k (x.key slot)
      ⟨x.dimsOf (.temporary slot), x.backend.elementType x.model⟩
      (fun c t => (.ok (Tensor.zeros (x.dimsOf (.temporary slot))), c, t)) r.state := by
    unfold Execution.acquire
    simp only [hx]
    rfl
  obtain ⟨⟨b, hb, hd⟩, ht, hgot⟩ := Cache.acquire_spec (fun _ => Tensor.dims) hs rfl hacq.symm
  exact ⟨b, _, Prod.ext hb (Prod.ext rfl ht), hd, _, rfl, hgot⟩

theorem Held.writeTemporary (h : Held x q r) (s : Instruction) (slot : Nat) :
    Held x q (x.writeTemporary s slot r).2 := by
  obtain ⟨b, c, hacq, hb, spec, hspec, hgot⟩ :=
    x.acquire_spec hx (fun hon => h.sound (h.enabled hon)) slot
  unfold Execution.writeTemporary
  rw [hacq]
  refine Held.finishStep (r := ⟨c, _, r.dst, _⟩) ⟨fun hq => hgot.sound (h.sound hq), fun hon => ?_,
    fun t ht => ?_, fun hon t ht sp hsp => ?_⟩ s _
  · exact h.enabled (hgot.enabled.symm.trans hon)
  · rcases List.mem_cons.1 ht with rfl | ht
    · exact (x.dims_perform hx ..).1.trans hb
    · exact h.dims t (List.mem_filter.1 ht).1
  · have hon' : r.cache.enabled = true := hgot.enabled.symm.trans hon
    rcases List.mem_cons.1 ht with rfl | ht
    · rw [hgot.same hon' sp hsp, hspec]
    · obtain ⟨ht, hne⟩ := List.mem_filter.1 ht
      refine h.specs hon' t ht sp (hgot.others _ (fun he => ?_) sp hsp)
      rw [x.key_inj he] at hne
      simp at hne

/-- **Every step keeps what is held.** -/
theorem Held.step (h : Held x q r) (s : Instruction) : Held x q (x.step s r).2 := by
  unfold Execution.step
  split
  · exact h
  · split
    · exact h.writeTemporary hx s _
    · exact Held.finishStep (r := ⟨r.cache, r.temps, (x.perform s r.temps r.dst r.state).1.dst, _⟩)
        ⟨h.sound, h.enabled, h.dims, h.specs⟩ s _

theorem Held.steps (h : Held x q r) (ss : List Instruction) :
    Held x q (x.steps ss r).2 := by
  induction ss generalizing r with
  | nil => exact h
  | cons s ss ih =>
    have hs := h.step hx s
    unfold Execution.steps
    split
    · next hstep =>
      rw [hstep] at hs
      exact hs
    · next hstep =>
      rw [hstep] at hs
      exact ih hs

/-- **A run leaves a sound cache sound.** -/
theorem fitting_run {c : Cache (Tensors A)} (hc : c.Fitting) (dst : Tensor (A k)) (t : σ) :
    (x.run c dst t).2.1.Fitting := by
  have h : Held x True ⟨c, [], dst, t⟩ := .start (fun _ => hc) (fun _ => trivial) dst t
  exact ((h.steps hx x.plan.steps).foldl_giveBack _).sound trivial

end

end Execution

end TensorNet
