import TensorNet.Proofs.Backend.Careful
import TensorNet.Proofs.Execution.Extents

/-!
# The arguments of a call

Before anything else a call checks that there is one input for each factor, that each of them has
the rank of its factor, and that the destination has the rank of the output. `Unfit` says which
arguments do not pass, and what is reported: of several inputs with a wrong rank it is the first.

The errors that say so come from these checks alone; dense steps do not return them.
-/

namespace TensorNet

/-- The errors by which the arguments of a call are refused. -/
inductive ArgumentError : Error → Prop
  | arity (expected got : Nat) : ArgumentError (.arityMismatch expected got)
  | rank (factor expected got : Nat) : ArgumentError (.rankMismatch factor expected got)
  | destination (got expected : Nat) :
      ArgumentError (.backend (.destinationRank got expected))

namespace Plan

/-- **Arguments that do not fit a plan**, and the error that says so: too many inputs or too few,
the first input whose rank is not that of its factor, or the rank of the destination. -/
inductive Unfit (p : Plan) (inputDims : List (List Nat)) (dstDims : List Nat) : Error → Prop
  | arity (wrong : inputDims.length ≠ p.numInputs) :
      Unfit p inputDims dstDims (.arityMismatch p.numInputs inputDims.length)
  | rank {i : Nat} (arity : inputDims.length = p.numInputs) (valid : i < p.numInputs)
      (wrong : (inputDims.getD i []).length ≠ (p.network.factor i).rank)
      (lowest : ∀ j < i, (inputDims.getD j []).length = (p.network.factor j).rank) :
      Unfit p inputDims dstDims
        (.rankMismatch i (p.network.factor i).rank (inputDims.getD i []).length)
  | destination (ranked : p.Ranked inputDims) (wrong : dstDims.length ≠ p.network.output.length) :
      Unfit p inputDims dstDims
        (.backend (.destinationRank dstDims.length p.network.output.length))

variable {p : Plan} {inputDims : List (List Nat)} {dstDims : List Nat} {e : Error}

/-- The first wrong rank is reported. -/
theorem checkRanks_eq_error {j : Nat} (h : p.checkRanks j inputDims = .error e) :
    ∃ i < inputDims.length, (inputDims.getD i []).length ≠ (p.network.factor (j + i)).rank ∧
      (∀ n < i, (inputDims.getD n []).length = (p.network.factor (j + n)).rank) ∧
      e = .rankMismatch (j + i) (p.network.factor (j + i)).rank (inputDims.getD i []).length := by
  induction inputDims generalizing j with
  | nil => cases h
  | cons dims rest ih =>
    unfold checkRanks at h
    dsimp only at h
    split at h
    · next hr =>
      obtain ⟨i, hi, hwrong, hlow, he⟩ := ih h
      have hnext : ∀ n, j + 1 + n = j + (n + 1) := fun n => by omega
      rw [hnext] at hwrong he
      refine ⟨i + 1, Nat.succ_lt_succ hi, hwrong, fun n hn => ?_, he⟩
      cases n with
      | zero => exact hr
      | succ n => exact hnext n ▸ hlow n (Nat.lt_of_succ_lt_succ hn)
    · next hr =>
      cases h
      exact ⟨0, Nat.succ_pos _, hr, fun n hn => absurd hn (Nat.not_lt_zero n), rfl⟩

theorem unfit_of_error (h : p.checkDestination inputDims dstDims = .error e) :
    p.Unfit inputDims dstDims e := by
  unfold checkDestination at h
  cases hin : p.checkInputs inputDims with
  | error e' =>
    rw [hin, error_bind] at h
    cases h
    unfold checkInputs at hin
    by_cases hl : inputDims.length = p.numInputs
    · rw [if_neg (not_not_intro hl)] at hin
      obtain ⟨i, hi, hwrong, hlow, rfl⟩ := checkRanks_eq_error hin
      simp only [Nat.zero_add] at hwrong hlow ⊢
      exact .rank hl (hl ▸ hi) hwrong hlow
    · rw [if_pos hl] at hin
      cases hin
      exact .arity hl
  | ok u =>
    rw [hin, ok_bind] at h
    split at h
    · next hwrong =>
      cases h
      exact .destination (checkInputs_eq_ok.1 hin) hwrong
    · cases h

end Plan

namespace Backend

variable {σ β α : Type} {A : Type} [Element A]

theorem not_raises_dense {e : Error} (he : ArgumentError e) : ¬ (Backend.dense σ A).Raises e := by
  intro h
  cases h with
  | allocate h => cases h
  | @perform x y action perm dst t _ h =>
    have h : (Tensor.perform x y action perm dst).failure = some e := h
    unfold Tensor.perform at h
    split at h
    · cases h
    · next fault hf =>
      cases h
      cases he
      exact checkAction_fails action perm _ hf _ _ rfl

theorem not_raises_recorded {b : Backend σ β α} {e : Error} (he : ArgumentError e)
    (h : ¬ b.Raises e) : ¬ b.recorded.Raises e := by
  intro hr
  rcases hr.of_recorded with rfl | hr
  · cases he
  · exact h hr

end Backend

end TensorNet
