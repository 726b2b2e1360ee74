import TensorNet.Backend.Recorded
import TensorNet.Proofs.Backend.Checks

/-!
# How backends fail

What a failing call to a backend may do is up to the backend. Dense steps are *careful*: a step that
fails has failed in its checks, before the first number is written, so its destination is as it was.
A record of the calls changes nothing about this, since a call that is made to fail is not made.
-/

namespace TensorNet

namespace Backend

variable {σ β α : Type}

/-- A call to the backend returns this error. -/
inductive Raises (b : Backend σ β α) : Error → Prop
  | allocate {model : β} {dims : List Nat} {t : σ} {e : Error}
      (h : (b.allocate model dims t).1 = .error e) : Raises b e
  | perform {x y : α} {action : Action β} {perm : List Nat} {dst : β} {t : σ} {e : Error}
      (h : (b.perform x y action perm dst t).1.failure = some e) : Raises b e

/-- A step that fails leaves its destination as it was. -/
def Careful (b : Backend σ β α) : Prop :=
  ∀ x y action perm dst t e, (b.perform x y action perm dst t).1.failure = some e →
    (b.perform x y action perm dst t).1.dst = dst

theorem Careful.recorded {b : Backend σ β α} (h : b.Careful) : b.recorded.Careful := by
  intro x y action perm dst t e he
  unfold Backend.recorded at he ⊢
  dsimp only at he ⊢
  split
  · rfl
  · next hdue =>
    rw [if_neg hdue] at he
    exact h x y action perm dst t.2 e he

theorem Raises.of_recorded {b : Backend σ β α} {e : Error} (h : b.recorded.Raises e) :
    e = injectedFailure ∨ b.Raises e := by
  cases h with
  | allocate h =>
    unfold Backend.recorded at h
    dsimp only at h
    split at h
    · cases h
      exact .inl rfl
    · exact .inr (.allocate h)
  | perform h =>
    unfold Backend.recorded at h
    dsimp only at h
    split at h
    · cases h
      exact .inl rfl
    · exact .inr (.perform h)

section

variable {A : Type} {src a b dst : Tensor A}

/-- The rank of the destination is not what a dense step complains of. -/
def OtherFault (fault : BackendFault) : Prop := ∀ got expected, fault ≠ .destinationRank got expected

theorem checkDims_fails (dims : List Nat) : FailsWith OtherFault (dst.checkDims dims) := by
  unfold Tensor.checkDims
  split
  · exact .ok ()
  · exact .error fun _ _ h => by cases h

theorem checkPairs_fails (pairs : List (Nat × Nat)) :
    FailsWith OtherFault (src.checkPairs pairs) := by
  induction pairs with
  | nil => exact .ok ()
  | cons pair pairs ih =>
    unfold Tensor.checkPairs
    split
    · exact ih
    · exact .error fun _ _ h => by cases h

theorem checkAxes_fails (axesA axesB : List Nat) :
    FailsWith OtherFault (a.checkAxes b axesA axesB) := by
  induction axesA generalizing axesB with
  | nil => exact .ok ()
  | cons i axesA ih =>
    cases axesB with
    | nil => exact .ok ()
    | cons j axesB =>
      unfold Tensor.checkAxes
      split
      · exact ih axesB
      · exact .error fun _ _ h => by cases h

theorem checkTrace_fails (perm : List Nat) (pairs : List (Nat × Nat)) :
    FailsWith OtherFault (src.checkTrace dst perm pairs) := by
  unfold Tensor.checkTrace
  split
  · exact .error fun _ _ h => by cases h
  · exact (checkDims_fails _).bind fun _ => checkPairs_fails pairs

theorem checkContract_fails (axesA axesB perm : List Nat) :
    FailsWith OtherFault (a.checkContract b dst axesA axesB perm) := by
  unfold Tensor.checkContract
  split
  · exact .error fun _ _ h => by cases h
  · refine (checkAxes_fails axesA axesB).bind fun _ => ?_
    dsimp only
    split
    · exact .error fun _ _ h => by cases h
    · exact checkDims_fails _

theorem checkAction_fails (action : Action (Tensor A)) (perm : List Nat) :
    FailsWith OtherFault (Tensor.checkAction dst perm action) := by
  cases action with
  | copy src => exact checkTrace_fails perm []
  | trace src pairs => exact checkTrace_fails perm pairs
  | contract a b axesA axesB => exact checkContract_fails axesA axesB perm

end

variable {A : Type} [Element A]

/-- **Dense steps are careful**: they check everything before they write. -/
theorem careful_dense : (Backend.dense σ A).Careful := by
  intro x y action perm dst t e he
  show (Tensor.perform x y action perm dst).dst = dst
  have he : (Tensor.perform x y action perm dst).failure = some e := he
  unfold Tensor.perform at he ⊢
  split at he
  · cases he
  · rfl

end Backend

end TensorNet
