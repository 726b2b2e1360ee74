import TensorNet.Proofs.Execution.Exchanges

/-!
# What a run keeps

A run gives temporaries back, writes its destination, and gets a buffer for one slot after another.
What each of these keeps holds when the run has ended, if it succeeds.
-/

namespace TensorNet

namespace Execution

variable {κ : Type} {β : κ → Type} {k : κ} {σ α : Type} {x : Execution κ β k σ α} {c : Cache β}
variable {r r' : RunState β k σ}

theorem giveBack_of_some {slot : Nat} {b : β k} (h : r.temps.lookup slot = some b) :
    x.giveBack r slot = { r with
      cache := r.cache.release k (x.key slot) b
      temps := r.temps.filter fun t => t.1 != slot } := by
  rw [giveBack, h]

variable [DecidableEq κ] [Zero α] [One α]

/-- **What every part of a run keeps.** The property may speak of the slots that were written so
far, and each slot is the next one of the plan. -/
structure Maintains (x : Execution κ β k σ α) (I : List Nat → RunState β k σ → Prop) : Prop where
  giveBack : ∀ {done r slot b}, I done r → r.temps.lookup slot = some b →
    I done (x.giveBack r slot)
  write : ∀ {done r}, I done r → ∀ s, I done { r with
    dst := (x.perform s r.temps r.dst r.state).1.dst
    state := (x.perform s r.temps r.dst r.state).2 }
  hold : ∀ {done slot rest r b cache t}, I done r →
    writtenSlots x.plan.steps = done ++ slot :: rest → x.acquire slot r = (.ok b, cache, t) →
    ∀ s, I (done ++ [slot])
      (withTemporary r slot (x.perform s r.temps b t).1.dst cache (x.perform s r.temps b t).2)

variable {I : List Nat → RunState β k σ → Prop} {done rest : List Nat}

theorem Maintains.foldl_giveBack (hI : x.Maintains I) (h : I done r) (slots : List Nat) :
    I done (slots.foldl x.giveBack r) := by
  induction slots generalizing r with
  | nil => exact h
  | cons slot slots ih =>
    refine ih ?_
    cases hb : r.temps.lookup slot with
    | none =>
      rw [Execution.giveBack, hb]
      exact h
    | some b => exact hI.giveBack h hb

theorem Maintains.finishStep (hI : x.Maintains I) (h : I done r) {s : Instruction}
    {failure : Option Error} (hok : x.finishStep s failure r = (none, r')) : I done r' := by
  cases failure with
  | some e => cases hok
  | none =>
    cases hok
    rw [foldl_giveBackRead]
    exact hI.foldl_giveBack h _

theorem Maintains.step (hI : x.Maintains I) (h : I done r) {s : Instruction}
    (hslots : writtenSlots x.plan.steps = done ++ (s.dst.slot?.toList ++ rest))
    (hok : x.step s r = (none, r')) : I (done ++ s.dst.slot?.toList) r' := by
  unfold Execution.step at hok
  cases hcheck : x.checkExtents s with
  | error e =>
    rw [hcheck] at hok
    cases hok
  | ok u =>
    rw [hcheck] at hok
    have write : x.writeDestination s r = (none, r') → I (done ++ []) r' := fun hok => by
      rw [List.append_nil]
      exact hI.finishStep (hI.write h s) hok
    cases hdst : s.dst with
    | input i =>
      rw [hdst] at hok
      exact write hok
    | destination =>
      rw [hdst] at hok
      exact write hok
    | temporary slot =>
      rw [hdst] at hok hslots
      rcases hacq : x.acquire slot r with ⟨answer, cache, t⟩
      cases answer with
      | error e =>
        have hfail : x.writeTemporary s slot r = (some e, { r with cache, state := t }) := by
          rw [writeTemporary, hacq]
        cases hfail.symm.trans hok
      | ok b =>
        have hwrite := x.writeTemporary_of_ok hacq s
        exact hI.finishStep (hI.hold h hslots hacq s) (hwrite.symm.trans hok)

theorem Maintains.steps (hI : x.Maintains I) (h : I done r) {ss : List Instruction}
    (hslots : writtenSlots x.plan.steps = done ++ writtenSlots ss)
    (hok : x.steps ss r = (none, r')) : I (writtenSlots x.plan.steps) r' := by
  induction ss generalizing done r with
  | nil =>
    cases hok
    rw [hslots]
    exact (List.append_nil done).symm ▸ h
  | cons s ss ih =>
    rw [writtenSlots_cons] at hslots
    rw [Execution.steps] at hok
    rcases hstep : x.step s r with ⟨failure, r₁⟩
    rw [hstep] at hok
    cases failure with
    | some e => cases hok
    | none =>
      exact ih (hI.step h hslots hstep) (hslots.trans (List.append_assoc ..).symm) hok

/-- **What every part keeps holds when a run has succeeded**, and nothing is held then. -/
theorem Maintains.run (hI : x.Maintains I) {dst : β k} {t : σ} (h : I [] ⟨c, [], dst, t⟩)
    (hok : (x.run c dst t).1.failure = none) : ∃ r, I (writtenSlots x.plan.steps) r ∧
      r.temps = [] ∧ r.cache = (x.run c dst t).2.1 ∧ r.state = (x.run c dst t).2.2 := by
  rcases hsteps : x.steps x.plan.steps ⟨c, [], dst, t⟩ with ⟨failure, r⟩
  rw [x.run_of_steps hsteps] at hok ⊢
  obtain rfl : failure = none := hok
  exact ⟨_, hI.foldl_giveBack (hI.steps h rfl hsteps) _, x.temps_giveAllBack r, rfl, rfl⟩

end Execution

end TensorNet
