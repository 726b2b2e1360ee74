import Mathlib
import TensorNet.Proofs.Execution.Answer
import TensorNet.Proofs.Execution.Arguments
import TensorNet.Proofs.Tensor.Lawful

/-!
# What a failed call leaves behind

## 1. Before the run

A call that is refused for its arguments has not called the backend, and it leaves the cache as it
was.

## 2. Before the last step

All steps but the last write temporaries. They do the same whatever the destination is, and leave
it alone (`steps_into`), so it is handed to the backend by the last step only. The first failure
ends the run: what the backend did then is the last that it did (`exists_failing`).

## 3. In the last step

Here it is up to the backend. One that is careful, as the dense one is, leaves the destination alone
when the last step fails as well.
-/

namespace TensorNet

/-! ### Steps and the destination -/

/-- The same state with another destination. -/
def RunState.into {κ : Type} {β : κ → Type} {k : κ} {σ : Type} (r : RunState β k σ) (d : β k) :
    RunState β k σ := { r with dst := d }

namespace Execution

variable {κ : Type} {β : κ → Type} {k : κ} {σ α : Type} (x : Execution κ β k σ α)

theorem giveBack_into (r : RunState β k σ) (d : β k) (slot : Nat) :
    x.giveBack (r.into d) slot = (x.giveBack r slot).into d := by
  unfold giveBack RunState.into
  dsimp only
  split
  · rfl
  · rfl

theorem foldl_giveBackRead_into (os : List Operand) (r : RunState β k σ) (d : β k) :
    os.foldl x.giveBackRead (r.into d) = (os.foldl x.giveBackRead r).into d := by
  induction os generalizing r with
  | nil => rfl
  | cons o os ih =>
    have hread : x.giveBackRead (r.into d) o = (x.giveBackRead r o).into d := by
      cases o with
      | temporary slot => exact x.giveBack_into r d slot
      | input i => rfl
      | destination => rfl
    rw [List.foldl_cons, hread, ih, List.foldl_cons]

theorem finishStep_into (s : Instruction) (failure : Option Error) (r : RunState β k σ)
    (d : β k) : x.finishStep s failure (r.into d) =
      ((x.finishStep s failure r).1, (x.finishStep s failure r).2.into d) := by
  cases failure with
  | some e => rfl
  | none => exact congrArg (Prod.mk none) (x.foldl_giveBackRead_into s.sources r d)

/-- The state of the backend stays as it is when temporaries go back. -/
theorem state_foldl_giveBack (slots : List Nat) (r : RunState β k σ) :
    (slots.foldl x.giveBack r).state = r.state := by
  induction slots generalizing r with
  | nil => rfl
  | cons slot slots ih =>
    rw [List.foldl_cons, ih]
    unfold giveBack
    split
    · rfl
    · rfl

variable [DecidableEq κ] [Zero α] [One α]

/-- **A step that writes a temporary does the same whatever the destination is**, and leaves it
alone. -/
theorem step_into {s : Instruction} (hs : ∃ slot, s.dst = .temporary slot)
    (r : RunState β k σ) (d : β k) :
    x.step s (r.into d) = ((x.step s r).1, (x.step s r).2.into d) := by
  obtain ⟨slot, hslot⟩ := hs
  unfold step
  cases x.checkExtents s with
  | error e => rfl
  | ok u =>
    dsimp only
    rw [hslot]
    dsimp only
    unfold writeTemporary
    have hacq : x.acquire slot (r.into d) = x.acquire slot r := rfl
    rw [hacq]
    rcases x.acquire slot r with ⟨e | b, c, t⟩
    · rfl
    · exact x.finishStep_into s _ ⟨c, _, r.dst, _⟩ d

theorem dst_step {s : Instruction} (hs : ∃ slot, s.dst = .temporary slot) (r : RunState β k σ) :
    (x.step s r).2.dst = r.dst :=
  congrArg (fun y => y.2.dst) (x.step_into hs r r.dst)

theorem steps_into {l : List Instruction} (hl : ∀ s ∈ l, ∃ slot, s.dst = .temporary slot)
    (r : RunState β k σ) (d : β k) :
    x.steps l (r.into d) = ((x.steps l r).1, (x.steps l r).2.into d) := by
  induction l generalizing r with
  | nil => rfl
  | cons s l ih =>
    unfold steps
    rw [x.step_into (hl s List.mem_cons_self)]
    rcases x.step s r with ⟨_ | e, r'⟩
    · exact ih (fun u hu => hl u (List.mem_cons_of_mem _ hu)) r'
    · rfl

theorem dst_steps {l : List Instruction} (hl : ∀ s ∈ l, ∃ slot, s.dst = .temporary slot)
    (r : RunState β k σ) : (x.steps l r).2.dst = r.dst :=
  congrArg (fun y => y.2.dst) (x.steps_into hl r r.dst)

/-! ### The failing step -/

/-- **A run that fails does so at one step**, before which all steps were carried out. -/
theorem exists_failing {l : List Instruction} {r r' : RunState β k σ} {e : Error}
    (h : x.steps l r = (some e, r')) : ∃ pre s post before, l = pre ++ s :: post ∧
      x.steps pre r = (none, before) ∧ x.step s before = (some e, r') := by
  induction l generalizing r with
  | nil => cases h
  | cons s l ih =>
    unfold steps at h
    rcases hs : x.step s r with ⟨_ | e', after⟩
    · rw [hs] at h
      obtain ⟨pre, u, post, before, rfl, hpre, hu⟩ := ih h
      refine ⟨s :: pre, u, post, before, rfl, ?_, hu⟩
      unfold steps
      rw [hs]
      exact hpre
    · rw [hs] at h
      cases h
      exact ⟨[], s, l, r, rfl, rfl, hs⟩

/-- A run that fails ends with the failing step, but for the temporaries that go back. -/
theorem exists_failing_run {cache : Cache β} {dst : β k} {t : σ} {e : Error}
    (h : (x.run cache dst t).1.failure = some e) : ∃ pre s post before after,
      x.plan.steps = pre ++ s :: post ∧ x.steps pre ⟨cache, [], dst, t⟩ = (none, before) ∧
      x.step s before = (some e, after) ∧ (x.run cache dst t).1 = ⟨after.dst, some e⟩ ∧
      (x.run cache dst t).2.2 = after.state := by
  unfold run at h ⊢
  dsimp only at h ⊢
  rcases hrun : x.steps x.plan.steps ⟨cache, [], dst, t⟩ with ⟨failure, after⟩
  rw [hrun] at h
  obtain rfl : failure = some e := h
  obtain ⟨pre, s, post, before, hsplit, hdone, hfails⟩ := x.exists_failing hrun
  refine ⟨pre, s, post, before, after, hsplit, hdone, hfails, ?_, x.state_foldl_giveBack _ after⟩
  rw [x.dst_foldl_giveBack]

/-- The errors that a run finds by itself. -/
inductive OwnError : Error → Prop
  | extents (l : Label) (m n : Nat) : OwnError (.dimensionMismatch l m n)
  | input (i : Nat) : OwnError (.backend (.missingInput i))
  | temporary (slot : Nat) : OwnError (.backend (.missingTemporary slot))
  | destination : OwnError (.backend .destinationRead)

theorem not_ownError {e : Error} (he : ArgumentError e) : ¬ OwnError e := by
  intro h
  cases he <;> cases h

omit [DecidableEq κ] [Zero α] [One α]

theorem checkPair_fails (a b : List (Label × Nat)) (p q : Nat) :
    FailsWith OwnError (checkPair a b p q) := by
  unfold checkPair
  dsimp only
  split
  · exact .ok ()
  · exact .error (.extents _ _ _)

theorem checkReceived_fails (axes : List (Label × Nat)) (perm dims : List Nat) :
    FailsWith OwnError (checkReceived axes perm dims) := by
  induction perm generalizing dims with
  | nil => exact .ok ()
  | cons i perm ih =>
    cases dims with
    | nil => exact .ok ()
    | cons d dims =>
      unfold checkReceived
      dsimp only
      split
      · exact ih dims
      · exact .error (.extents _ _ _)

theorem checkExtents_fails (s : Instruction) : FailsWith OwnError (x.checkExtents s) := by
  refine FailsWith.bind ?_ fun axes => checkReceived_fails axes s.perm _
  cases s.action with
  | copy src => exact .ok _
  | trace src pairs => exact (FailsWith.forM (fun _ => checkPair_fails _ _ _ _) _).bind fun _ => .ok _
  | contract a b axesA axesB =>
    exact (FailsWith.forM (fun _ => checkPair_fails _ _ _ _) _).bind fun _ => .ok _

theorem source_fails (temps : List (Nat × β k)) (o : Operand) :
    FailsWith OwnError (x.source temps o) := by
  unfold source
  split
  · split
    · exact .ok _
    · exact .error (.input _)
  · split
    · exact .ok _
    · exact .error (.temporary _)
  · exact .error .destination

theorem resolve_fails (temps : List (Nat × β k)) (action : Action Operand) :
    FailsWith OwnError (action.resolve (x.source temps)) := by
  cases action with
  | copy src => exact (x.source_fails temps src.operand).bind fun _ => .ok _
  | trace src pairs => exact (x.source_fails temps src.operand).bind fun _ => .ok _
  | contract a b axesA axesB =>
    exact (x.source_fails temps a.operand).bind fun _ =>
      (x.source_fails temps b.operand).bind fun _ => .ok _

variable [Zero α] [One α]

theorem perform_failure {s : Instruction} {temps : List (Nat × β k)} {dst : β k} {t : σ}
    {e : Error} (h : (x.perform s temps dst t).1.failure = some e) :
    OwnError e ∨ x.backend.Raises e := by
  unfold perform at h
  split at h
  · next e' he =>
    cases h
    exact .inl (x.resolve_fails temps s.action _ he)
  · exact .inr (.perform h)

theorem perform_careful (hx : x.backend.Careful) {s : Instruction} {temps : List (Nat × β k)}
    {dst : β k} {t : σ} {e : Error} (h : (x.perform s temps dst t).1.failure = some e) :
    (x.perform s temps dst t).1.dst = dst := by
  unfold perform at h ⊢
  split at h
  · rfl
  · exact hx _ _ _ _ _ _ e h

omit [Zero α] [One α] in
theorem finishStep_failure {s : Instruction} {failure : Option Error} {r r' : RunState β k σ}
    {e : Error} (h : x.finishStep s failure r = (some e, r')) : failure = some e ∧ r' = r := by
  cases failure with
  | none => cases h
  | some e' =>
    cases h
    exact ⟨rfl, rfl⟩

variable [DecidableEq κ]

omit [Zero α] [One α] in
theorem acquire_failure {slot : Nat} {r : RunState β k σ} {e : Error} {c : Cache β} {t : σ}
    (h : x.acquire slot r = (.error e, c, t)) : x.backend.Raises e := by
  unfold acquire Cache.acquire at h
  dsimp only at h
  split at h
  · exact .allocate (congrArg Prod.fst h)
  · cases h
  · split at h
    · cases h
    · next he =>
      cases h
      exact .allocate (congrArg Prod.fst he)

/-- **A failure of a step** was found by the run itself, or a call to the backend returned it. -/
theorem step_failure {s : Instruction} {r r' : RunState β k σ} {e : Error}
    (h : x.step s r = (some e, r')) : OwnError e ∨ x.backend.Raises e := by
  unfold step at h
  split at h
  · next e' he =>
    cases h
    exact .inl (x.checkExtents_fails s _ he)
  · split at h
    · next slot _ =>
      unfold writeTemporary at h
      split at h
      · next he =>
        cases h
        exact .inr (x.acquire_failure he)
      · exact x.perform_failure (x.finishStep_failure h).1
    · exact x.perform_failure (x.finishStep_failure h).1

/-- With a careful backend a step that fails leaves the destination alone. -/
theorem step_careful (hx : x.backend.Careful) {s : Instruction} {r r' : RunState β k σ} {e : Error}
    (h : x.step s r = (some e, r')) : r'.dst = r.dst := by
  by_cases hs : ∃ slot, s.dst = .temporary slot
  · have hdst := x.dst_step hs r
    rw [h] at hdst
    exact hdst
  · unfold step at h
    split at h
    · cases h
      rfl
    · split at h
      · next slot hslot => exact absurd ⟨slot, hslot⟩ hs
      · obtain ⟨hfail, rfl⟩ := x.finishStep_failure h
        exact x.perform_careful hx hfail

end Execution

/-! ### Calls -/

namespace Plan

variable {κ : Type} {β : κ → Type} {k : κ} {σ α : Type} [DecidableEq κ] [Zero α] [One α]

/-- The run of a call that writes into a destination. -/
def execution (p : Plan) (backend : Backend σ (β k) α) (context : ExecutionContext)
    (inputs : List (β k)) (model : β k) (alpha beta : α) (dst : β k) : Execution κ β k σ α :=
  ⟨backend, p, context, inputs, model, inputs.map backend.dims, backend.dims dst, alpha, beta⟩

variable (p : Plan) (backend : Backend σ (β k) α) (context : ExecutionContext)
variable (inputs : List (β k)) (alpha beta : α) (cache : Cache β) (dst : β k) (t : σ)

/-- **How a call fails**, and what it leaves behind: the destination with the error, the cache, and
the state of the backend. -/
inductive FailedCall (e : Error) : Written (β k) × Cache β × σ → Prop
  /-- It is refused for its arguments. Nothing was done. -/
  | refused (unfit : p.Unfit (inputs.map backend.dims) (backend.dims dst) e) :
      FailedCall e (⟨dst, some e⟩, cache, t)
  /-- A step fails. The steps before it did not touch the destination, a step that is not the last
  one does not either, and the backend is not called again. -/
  | failed {model : β k} {pre post : List Instruction} {s : Instruction}
      {before after : RunState β k σ} {result : Written (β k) × Cache β × σ}
      (first : inputs.head? = some model) (split : p.steps = pre ++ s :: post)
      (done : (p.execution backend context inputs model alpha beta dst).steps pre
        ⟨cache, [], dst, t⟩ = (none, before))
      (fails : (p.execution backend context inputs model alpha beta dst).step s before =
        (some e, after))
      (untouched : before.dst = dst) (early : post ≠ [] → after.dst = dst)
      (written : result.1 = ⟨after.dst, some e⟩) (state : result.2.2 = after.state) :
      FailedCall e result

variable {p backend context inputs alpha beta cache dst t}

/-- What comes before some element of a list is not its last one. -/
theorem mem_of_split {τ : Type} {init pre post : List τ} {last s : τ}
    (h : init ++ [last] = pre ++ s :: post) :
    (∀ u ∈ pre, u ∈ init) ∧ (post ≠ [] → s ∈ init) := by
  rcases List.eq_nil_or_concat post with rfl | ⟨part, z, rfl⟩
  · obtain ⟨rfl, -⟩ := List.append_inj' h rfl
    exact ⟨fun u hu => hu, fun hne => absurd rfl hne⟩
  · have h : init ++ [last] = (pre ++ s :: part) ++ [z] := by simpa using h
    obtain ⟨rfl, -⟩ := List.append_inj' h rfl
    exact ⟨fun u hu => List.mem_append_left _ hu, fun _ => by simp⟩

/-- **A call that fails fails in one of these ways**, if all steps but the last write
temporaries. -/
theorem failedCall_of_failure (hpos : 0 < p.network.numFactors) {init : List Instruction}
    {last : Instruction} (hs : p.steps = init ++ [last])
    (hi : ∀ s ∈ init, ∃ slot, s.dst = .temporary slot) {e : Error}
    (h : (p.executeInto backend context inputs alpha beta cache dst t).1.failure = some e) :
    FailedCall p backend context inputs alpha beta cache dst t e
      (p.executeInto backend context inputs alpha beta cache dst t) := by
  unfold executeInto at h ⊢
  dsimp only at h ⊢
  cases hchk : p.checkDestination (inputs.map backend.dims) (backend.dims dst) with
  | error e' =>
    rw [hchk] at h
    cases h
    exact .refused (unfit_of_error hchk)
  | ok u =>
    rw [hchk] at h
    cases inputs with
    | nil =>
      -- a call without inputs does not get here, since a network has a factor
      obtain ⟨⟨⟩, hin, -⟩ := bind_eq_ok.1 hchk
      have hlen : 0 = p.network.numFactors := (checkInputs_eq_ok.1 hin).length
      omega
    | cons model rest =>
      obtain ⟨x, hx⟩ : ∃ x, x = p.execution backend context (model :: rest) model alpha beta dst :=
        ⟨_, rfl⟩
      have hrun : (x.run cache dst t).1.failure = some e := hx ▸ h
      obtain ⟨pre, s, post, before, after, hsplit, hdone, hfails, hwritten, hstate⟩ :=
        x.exists_failing_run hrun
      have hplan : x.plan.steps = init ++ [last] := hx ▸ hs
      obtain ⟨hpre, hmem⟩ := mem_of_split (hplan.symm.trans hsplit)
      have huntouched : before.dst = dst := by
        have hdst := x.dst_steps (fun u hu => hi u (hpre u hu)) ⟨cache, [], dst, t⟩
        rwa [hdone] at hdst
      have hearly : post ≠ [] → after.dst = dst := by
        intro hpost
        have hdst := x.dst_step (hi s (hmem hpost)) before
        rw [hfails] at hdst
        exact hdst.trans huntouched
      subst hx
      exact .failed rfl hsplit hdone hfails huntouched hearly hwritten hstate

/-- **An error about the arguments** means that nothing was done, if it is not one of the
backend. -/
theorem FailedCall.unfit {e : Error} {result : Written (β k) × Cache β × σ}
    (h : FailedCall p backend context inputs alpha beta cache dst t e result)
    (he : ArgumentError e) (hb : ¬ backend.Raises e) :
    p.Unfit (inputs.map backend.dims) (backend.dims dst) e ∧
      result = (⟨dst, some e⟩, cache, t) := by
  cases h with
  | refused unfit => exact ⟨unfit, rfl⟩
  | failed _ _ _ fails =>
    rcases Execution.step_failure _ fails with hown | hraises
    · exact absurd hown (Execution.not_ownError he)
    · exact absurd hraises hb

/-- **With a careful backend the destination is as it was.** -/
theorem FailedCall.dst_eq {e : Error} {result : Written (β k) × Cache β × σ}
    (h : FailedCall p backend context inputs alpha beta cache dst t e result)
    (hb : backend.Careful) : result.1.dst = dst := by
  cases h with
  | refused unfit => rfl
  | failed _ _ _ fails untouched _ written =>
    rw [written]
    exact (Execution.step_careful _ hb fails).trans untouched

/-- **Every failed call leaves the destination intact**, and calls that are refused for their
arguments leave everything as it was. -/
def FailsCleanly (p : Plan) (backend : Backend σ (β k) α) : Prop :=
  ∀ (context : ExecutionContext) (inputs : List (β k)) (alpha beta : α) (cache : Cache β) (dst : β k)
    (t : σ) (e : Error) (result : Written (β k) × Cache β × σ),
    p.executeInto backend context inputs alpha beta cache dst t = result →
    result.1.failure = some e →
      FailedCall p backend context inputs alpha beta cache dst t e result ∧ result.1.dst = dst ∧
      (ArgumentError e → p.Unfit (inputs.map backend.dims) (backend.dims dst) e ∧
        result = (⟨dst, some e⟩, cache, t))

theorem failsCleanly_of_careful (hpos : 0 < p.network.numFactors) {init : List Instruction}
    {last : Instruction} (hs : p.steps = init ++ [last])
    (hi : ∀ s ∈ init, ∃ slot, s.dst = .temporary slot) (hb : backend.Careful)
    (hown : ∀ e, ArgumentError e → ¬ backend.Raises e) : p.FailsCleanly backend := by
  rintro context inputs alpha beta cache dst t e _ rfl he
  have hfailed := failedCall_of_failure hpos hs hi he
  exact ⟨hfailed, hfailed.dst_eq hb, fun harg => hfailed.unfit harg (hown e harg)⟩

/-- **A failed call leaves the destination intact.** All steps but the last do the same whatever the
destination is and leave it alone. So a call that fails before the last step leaves it as it was,
whatever the backend, and a call on dense tensors does so wherever it fails. The backend is not
called again after the failing step, and it is not called at all, nor is the cache touched, if the
arguments do not fit. -/
theorem failure_spares_destination {A : κ → Type} [∀ k, Element (A k)] {τ : Type}
    {factors : List Factor} {output : Option (List Label)} {net : Network}
    (hnet : Network.build factors output = .ok net) {ids ids' : PlanIds} {config : PlanConfig}
    {p : Plan} (hp : create ids net config = .ok (p, ids')) :
    (∃ init last, p.steps = init ++ [last] ∧ last.dst = .destination ∧
      ∀ (x : Execution κ β k σ α) (r : RunState β k σ) (d : β k),
        x.steps init (r.into d) = ((x.steps init r).1, (x.steps init r).2.into d)) ∧
    (∀ (backend : Backend σ (β k) α) (context : ExecutionContext) (inputs : List (β k))
      (alpha beta : α) (cache : Cache β) (dst : β k) (t : σ) (e : Error)
      (result : Written (β k) × Cache β × σ),
      p.executeInto backend context inputs alpha beta cache dst t = result →
      result.1.failure = some e →
        FailedCall p backend context inputs alpha beta cache dst t e result ∧
        (ArgumentError e → ¬ backend.Raises e →
          p.Unfit (inputs.map backend.dims) (backend.dims dst) e ∧
            result = (⟨dst, some e⟩, cache, t))) ∧
    p.FailsCleanly (β := Tensors A) (Backend.dense τ (A k)) ∧
    p.FailsCleanly (β := Tensors A) (Backend.dense τ (A k)).recorded := by
  have hpos : 0 < p.network.numFactors :=
    (proper_of_create (Network.lawful_of_build hnet).1 hp).network.pos
  obtain ⟨init, last, hs, hi, hf⟩ := exists_steps_of_create hp
  have hinit : ∀ s ∈ init, ∃ slot, s.dst = .temporary slot := fun s hm => (hi s hm).dst
  have hdense : ∀ e, ArgumentError e → ¬ (Backend.dense τ (A k)).Raises e :=
    fun e harg => Backend.not_raises_dense harg
  refine ⟨⟨init, last, hs, hf.dst, fun x r d => x.steps_into hinit r d⟩, ?_, ?_, ?_⟩
  · rintro backend context inputs alpha beta cache dst t e _ rfl he
    have hfailed := failedCall_of_failure hpos hs hinit he
    exact ⟨hfailed, hfailed.unfit⟩
  · exact failsCleanly_of_careful hpos hs hinit Backend.careful_dense hdense
  · exact failsCleanly_of_careful hpos hs hinit Backend.careful_dense.recorded
      fun e harg => Backend.not_raises_recorded harg (hdense e harg)

/-- The product of three matrices, into a destination that is too wide, which shows at the last step
after a product was made, and with two inputs of a wrong rank, of which the first is reported. -/
theorem failure_spares_destination_chain :
    let backend : Backend (CallRecord × Unit) (Tensor Int) Int := (Backend.dense Unit Int).recorded
    let c : Cache (Tensors fun _ : Unit => Int) := .ofConfig {}
    let wide := chain.executeInto (k := ()) backend default
      [.fill [1, 2] 1, .fill [2, 1] 3, .fill [1, 2] 2] 5 0 c (.fill [1, 3] 7) ({}, ())
    let flat := chain.executeInto (k := ()) backend default
      [.fill [1, 2] 1, .fill [2] 3, .fill [1] 2] 5 0 c (.fill [1, 2] 7) ({}, ())
    wide.1.failure = some (.dimensionMismatch (.int (-2)) 2 3) ∧ wide.1.dst = .fill [1, 3] 7 ∧
      wide.2.2.1.inOrder = [.allocate [1, 1], .contract true true [1] [0] [0, 1]] ∧
      flat = (⟨.fill [1, 2] 7, some (.rankMismatch 1 2 1)⟩, c, ({}, ())) := by
  dsimp only
  obtain ⟨-, -, -, hclean⟩ := failure_spares_destination (β := fun _ : Unit => Unit)
    (A := fun _ : Unit => Int) (k := ()) (σ := Unit) (α := Int) (τ := Unit) Network.build_chain
    create_chain
  obtain ⟨-, hwide, -⟩ := hclean default [.fill [1, 2] 1, .fill [2, 1] 3, .fill [1, 2] 2] 5 0
    (.ofConfig {}) (.fill [1, 3] 7) ({}, ()) (.dimensionMismatch (.int (-2)) 2 3) _ rfl (by cbv)
  obtain ⟨-, -, hflat⟩ := hclean default [.fill [1, 2] 1, .fill [2] 3, .fill [1] 2] 5 0
    (.ofConfig {}) (.fill [1, 2] 7) ({}, ()) (.rankMismatch 1 2 1) _ rfl (by cbv)
  exact ⟨by cbv, hwide, by cbv, (hflat (.rank 1 2 1)).2⟩

end Plan

end TensorNet
