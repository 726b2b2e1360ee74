import TensorNet.Proofs.Execution.Calls
import TensorNet.Proofs.Execution.Exchanges

/-!
# Runs with a record of their calls

As long as no call is to fail, a record changes nothing: each part of a run answers what it answers
without the record, takes the same from the cache and gives the same back, and the state of the
backend is the same. Only the record has grown.
-/

namespace TensorNet

/-! ### Calls to the backend -/

/-- To carry out a step is no allocation. -/
theorem Call.ofAction_ne_allocate {ρ : Type} (perm : List Nat) (action : Action ρ)
    (dims : List Nat) : ofAction perm action ≠ allocate dims := by
  cases action <;> nofun

section

variable {σ β α : Type} (backend : Backend σ β α) (s : CallRecord × σ)

theorem Backend.calls_allocate (ref : β) (dims : List Nat) :
    (backend.recorded.allocate ref dims s).2.1.calls = .allocate dims :: s.1.calls := by
  unfold Backend.recorded
  dsimp only
  split <;> rfl

theorem Backend.calls_perform (alpha beta : α) (action : Action β) (perm : List Nat) (dst : β) :
    (backend.recorded.perform alpha beta action perm dst s).2.1.calls =
      .ofAction perm action :: s.1.calls := by
  unfold Backend.recorded
  dsimp only
  split <;> rfl

end

/-- **Since some calls were made, steps were carried out and nothing was allocated.** -/
def CallRecord.OnlySteps (since : List Call) (r : CallRecord) : Prop :=
  ∃ work, r.calls = work ++ since ∧ ∀ dims, .allocate dims ∉ work

theorem CallRecord.onlySteps_self (r : CallRecord) : r.OnlySteps r.calls := ⟨[], rfl, nofun⟩

theorem Backend.onlySteps_perform {σ β α : Type} (backend : Backend σ β α) {since : List Call}
    {s : CallRecord × σ} (h : s.1.OnlySteps since) (alpha beta : α) (action : Action β)
    (perm : List Nat) (dst : β) :
    (backend.recorded.perform alpha beta action perm dst s).2.1.OnlySteps since := by
  obtain ⟨work, hcalls, hwork⟩ := h
  refine ⟨.ofAction perm action :: work, ?_, fun dims hm => ?_⟩
  · rw [backend.calls_perform, hcalls]
    rfl
  · rcases List.mem_cons.1 hm with hm | hm
    · exact Call.ofAction_ne_allocate perm action dims hm.symm
    · exact hwork dims hm

/-! ### Runs -/

/-- The same state with a record. -/
def RunState.recorded {κ : Type} {β : κ → Type} {k : κ} {σ : Type} (r : RunState β k σ)
    (log : CallRecord) : RunState β k (CallRecord × σ) :=
  ⟨r.cache, r.temps, r.dst, (log, r.state)⟩

namespace Execution

variable {κ : Type} {β : κ → Type} {k : κ} {σ α : Type} (x : Execution κ β k σ α)

/-- The same run with a record of its calls. -/
def recorded : Execution κ β k (CallRecord × σ) α :=
  ⟨x.backend.recorded, x.plan, x.context, x.inputs, x.model, x.inputDims, x.dstDims, x.alpha,
    x.beta⟩

variable {log : CallRecord}

theorem not_isDue (h : log.failAt = none) : ¬ log.isDue = true := by
  rw [CallRecord.isDue, h]
  exact Bool.false_ne_true

/-! ### Giving back -/

theorem giveBack_recorded (r : RunState β k σ) (log : CallRecord) (slot : Nat) :
    x.recorded.giveBack (r.recorded log) slot = (x.giveBack r slot).recorded log := by
  unfold giveBack RunState.recorded
  dsimp only
  split
  · rfl
  · rfl

theorem foldl_giveBack_recorded (slots : List Nat) (r : RunState β k σ) (log : CallRecord) :
    slots.foldl x.recorded.giveBack (r.recorded log) = (slots.foldl x.giveBack r).recorded log := by
  induction slots generalizing r with
  | nil => rfl
  | cons slot slots ih => rw [List.foldl_cons, giveBack_recorded, ih, List.foldl_cons]

theorem finishStep_recorded (s : Instruction) (failure : Option Error) (r : RunState β k σ)
    (log : CallRecord) : x.recorded.finishStep s failure (r.recorded log) =
      ((x.finishStep s failure r).1, (x.finishStep s failure r).2.recorded log) := by
  cases failure with
  | some e => rfl
  | none =>
    unfold finishStep
    rw [foldl_giveBackRead, foldl_giveBackRead, foldl_giveBack_recorded]

/-! ### Steps -/

section

variable [Zero α] [One α]

theorem perform_recorded (h : log.failAt = none) (s : Instruction) (temps : List (Nat × β k))
    (dst : β k) (t : σ) : ∃ log' : CallRecord, log'.failAt = none ∧
      x.recorded.perform s temps dst (log, t) =
        ((x.perform s temps dst t).1, (log', (x.perform s temps dst t).2)) := by
  unfold perform
  have hsource : x.recorded.source temps = x.source temps := by
    funext o
    cases o <;> rfl
  rw [hsource]
  cases s.action.resolve (x.source temps) with
  | error e => exact ⟨log, h, rfl⟩
  | ok action => exact ⟨log.note (.ofAction s.perm action), h, if_neg (not_isDue h)⟩

theorem writeDestination_recorded (h : log.failAt = none) (s : Instruction) (r : RunState β k σ) :
    ∃ log' : CallRecord, log'.failAt = none ∧ x.recorded.writeDestination s (r.recorded log) =
      ((x.writeDestination s r).1, (x.writeDestination s r).2.recorded log') := by
  obtain ⟨log', h', hperf⟩ := x.perform_recorded h s r.temps r.dst r.state
  have hwrite : x.recorded.writeDestination s (r.recorded log) =
      x.recorded.finishStep s (x.recorded.perform s r.temps r.dst (log, r.state)).1.failure
        ⟨r.cache, r.temps, (x.recorded.perform s r.temps r.dst (log, r.state)).1.dst,
          (x.recorded.perform s r.temps r.dst (log, r.state)).2⟩ := rfl
  refine ⟨log', h', hwrite.trans ?_⟩
  rw [hperf]
  exact x.finishStep_recorded s (x.perform s r.temps r.dst r.state).1.failure
    ⟨r.cache, r.temps, (x.perform s r.temps r.dst r.state).1.dst,
      (x.perform s r.temps r.dst r.state).2⟩ log'

end

variable [DecidableEq κ]

theorem acquire_recorded (h : log.failAt = none) (slot : Nat) (r : RunState β k σ) :
    ∃ log' : CallRecord, log'.failAt = none ∧ x.recorded.acquire slot (r.recorded log) =
      ((x.acquire slot r).1, (x.acquire slot r).2.1, (log', (x.acquire slot r).2.2)) := by
  have hmake : x.recorded.backend.allocate x.model (x.dimsOf (.temporary slot)) (log, r.state) =
      ((x.backend.allocate x.model (x.dimsOf (.temporary slot)) r.state).1,
        (log.note (.allocate (x.dimsOf (.temporary slot))),
          (x.backend.allocate x.model (x.dimsOf (.temporary slot)) r.state).2)) :=
    if_neg (not_isDue h)
  have hplain : x.acquire slot r = _ := r.cache.acquire_eq (x.key slot) (x.spec slot)
    (x.backend.allocate x.model (x.dimsOf (.temporary slot))) r.state
  have hrec : x.recorded.acquire slot (r.recorded log) = _ :=
    r.cache.acquire_eq (x.key slot) (x.spec slot)
      (x.recorded.backend.allocate x.model (x.dimsOf (.temporary slot))) (log, r.state)
  rw [hplain, hrec, hmake]
  rcases r.cache.request k (x.key slot) (x.spec slot) with ⟨response, c⟩
  cases response with
  | bypass => exact ⟨log.note (.allocate (x.dimsOf (.temporary slot))), h, rfl⟩
  | hit b => exact ⟨log, h, rfl⟩
  | miss =>
    refine ⟨log.note (.allocate (x.dimsOf (.temporary slot))), h, ?_⟩
    dsimp only
    cases (x.backend.allocate x.model (x.dimsOf (.temporary slot)) r.state).1 with
    | ok b => rfl
    | error e => rfl

variable [Zero α] [One α]

theorem writeTemporary_recorded (h : log.failAt = none) (s : Instruction) (slot : Nat)
    (r : RunState β k σ) : ∃ log' : CallRecord, log'.failAt = none ∧
      x.recorded.writeTemporary s slot (r.recorded log) =
        ((x.writeTemporary s slot r).1, (x.writeTemporary s slot r).2.recorded log') := by
  obtain ⟨log₁, h₁, hrec⟩ := x.acquire_recorded h slot r
  rcases hacq : x.acquire slot r with ⟨answer, c, t⟩
  rw [hacq] at hrec
  cases answer with
  | error e =>
    refine ⟨log₁, h₁, ?_⟩
    unfold writeTemporary
    rw [hrec, hacq]
    rfl
  | ok b =>
    obtain ⟨log₂, h₂, hperf⟩ := x.perform_recorded h₁ s r.temps b t
    refine ⟨log₂, h₂, (x.recorded.writeTemporary_of_ok hrec s).trans ?_⟩
    rw [x.writeTemporary_of_ok hacq s, show (r.recorded log).temps = r.temps from rfl, hperf]
    exact x.finishStep_recorded s _ (withTemporary r slot _ c _) log₂

/-- **A step does the same with a record.** -/
theorem step_recorded (h : log.failAt = none) (s : Instruction) (r : RunState β k σ) :
    ∃ log' : CallRecord, log'.failAt = none ∧ x.recorded.step s (r.recorded log) =
      ((x.step s r).1, (x.step s r).2.recorded log') := by
  have hcheck : x.recorded.checkExtents s = x.checkExtents s := rfl
  unfold step
  rw [hcheck]
  cases x.checkExtents s with
  | error e => exact ⟨log, h, rfl⟩
  | ok u =>
    cases s.dst with
    | temporary slot => exact x.writeTemporary_recorded h s slot r
    | input i => exact x.writeDestination_recorded h s r
    | destination => exact x.writeDestination_recorded h s r

theorem steps_recorded (h : log.failAt = none) (ss : List Instruction) (r : RunState β k σ) :
    ∃ log' : CallRecord, log'.failAt = none ∧ x.recorded.steps ss (r.recorded log) =
      ((x.steps ss r).1, (x.steps ss r).2.recorded log') := by
  induction ss generalizing r log with
  | nil => exact ⟨log, h, rfl⟩
  | cons s ss ih =>
    obtain ⟨log₁, h₁, hstep⟩ := x.step_recorded h s r
    rw [steps, steps, hstep]
    rcases x.step s r with ⟨failure, r₁⟩
    cases failure with
    | some e => exact ⟨log₁, h₁, rfl⟩
    | none => exact ih h₁ r₁

/-- **A run does the same with a record.** -/
theorem run_recorded (h : log.failAt = none) (c : Cache β) (dst : β k) (t : σ) :
    ∃ log' : CallRecord, log'.failAt = none ∧ x.recorded.run c dst (log, t) =
      ((x.run c dst t).1, (x.run c dst t).2.1, (log', (x.run c dst t).2.2)) := by
  obtain ⟨log', h', hsteps⟩ := x.steps_recorded h x.plan.steps ⟨c, [], dst, t⟩
  refine ⟨log', h', (x.recorded.run_of_steps hsteps).trans ?_⟩
  have htemps : ((x.steps x.plan.steps ⟨c, [], dst, t⟩).2.recorded log').temps =
      (x.steps x.plan.steps ⟨c, [], dst, t⟩).2.temps := rfl
  rw [htemps, foldl_giveBack_recorded, x.run_of_steps rfl]
  rfl

end Execution

/-- **A call does the same with a record**: it answers the same, and it leaves the same cache and
the same state of the backend. -/
theorem Plan.execute_recorded {κ : Type} {β : κ → Type} {k : κ} {σ α : Type} [DecidableEq κ]
    [Zero α] [One α] {log : CallRecord} (h : log.failAt = none) (p : Plan)
    (backend : Backend σ (β k) α) (context : ExecutionContext) (inputs : List (β k)) (alpha : α)
    (c : Cache β) (t : σ) : ∃ log' : CallRecord, log'.failAt = none ∧
      p.execute backend.recorded context inputs alpha c (log, t) =
        ((p.execute backend context inputs alpha c t).1,
          (p.execute backend context inputs alpha c t).2.1,
          (log', (p.execute backend context inputs alpha c t).2.2)) := by
  have hnote : ∀ model dims, backend.recorded.allocate model dims (log, t) =
      ((backend.allocate model dims t).1,
        (log.note (.allocate dims), (backend.allocate model dims t).2)) :=
    fun model dims => if_neg (Execution.not_isDue h)
  cases hdims : p.outputDims (inputs.map backend.dims) with
  | error e =>
    have hrec : p.outputDims (inputs.map backend.recorded.dims) = .error e := hdims
    refine ⟨log, h, ?_⟩
    simp only [execute, hdims, hrec]
  | ok dims =>
    have hrec : p.outputDims (inputs.map backend.recorded.dims) = .ok dims := hdims
    cases inputs with
    | nil =>
      refine ⟨log, h, ?_⟩
      simp only [execute, hdims, hrec]
    | cons model rest =>
      cases hmade : backend.allocate model dims t with
      | mk made t' =>
        have hmade' := hnote model dims
        rw [hmade] at hmade'
        cases made with
        | error e =>
          refine ⟨log.note (.allocate dims), h, ?_⟩
          simp only [execute, hdims, hrec, hmade, hmade']
        | ok dst =>
          have hplain := p.execute_made backend context (model :: rest) alpha rfl hdims hmade c
          have hnoted := p.execute_made backend.recorded context (model :: rest) alpha rfl hrec
            hmade' c
          have hnoted' : (log.note (.allocate dims)).failAt = none := h
          obtain ⟨log', h', hrun⟩ := Execution.run_recorded
            ⟨backend, p, context, model :: rest, model, (model :: rest).map backend.dims,
              backend.dims dst, alpha, 0⟩ hnoted' c dst t'
          refine ⟨log', h', hnoted.trans ?_⟩
          rw [hplain]
          exact congrArg
            (fun r : Written (β k) × Cache β × CallRecord × σ => (returned r.1, r.2)) hrun

end TensorNet
