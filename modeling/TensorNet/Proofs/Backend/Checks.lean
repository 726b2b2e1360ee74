import TensorNet.Backend.Dense
import TensorNet.Proofs.Outcome

/-!
# The checks of a dense step

When the checks succeed. They look at extents only, so they do not depend on what is in the
destination, and neither does the result if the old destination counts with zero.
-/

namespace TensorNet.Tensor

section

variable {α : Type} {src a b dst : Tensor α} {perm axesA axesB : List Nat}
variable {pairs : List (Nat × Nat)}

theorem checkDims_eq_ok {dims : List Nat} : checkDims dst dims = .ok () ↔ dst.dims = dims := by
  unfold checkDims
  split
  · next h => exact ⟨fun _ => h, fun _ => rfl⟩
  · next h => exact ⟨nofun, fun h' => absurd h' h⟩

theorem checkPairs_eq_ok :
    checkPairs src pairs = .ok () ↔ ∀ p ∈ pairs, src.extent p.1 = src.extent p.2 := by
  induction pairs with
  | nil => simp [checkPairs]
  | cons p pairs ih =>
    obtain ⟨p, q⟩ := p
    rw [checkPairs, List.forall_mem_cons]
    split
    · next h => rw [ih, and_iff_right h]
    · next h => exact ⟨nofun, fun h' => absurd h'.1 h⟩

theorem checkTrace_eq_ok : checkTrace src dst perm pairs = .ok () ↔
    perm.length + 2 * pairs.length = src.rank ∧ dst.dims = perm.map src.extent ∧
      ∀ p ∈ pairs, src.extent p.1 = src.extent p.2 := by
  unfold checkTrace
  by_cases h : perm.length + 2 * pairs.length = src.rank
  · rw [if_neg (not_not_intro h), ← checkDims_eq_ok, ← checkPairs_eq_ok, and_iff_right h]
    dsimp only
    rw [bind_eq_ok]
    exact ⟨fun ⟨_, h1, h2⟩ => ⟨h1, h2⟩, fun ⟨h1, h2⟩ => ⟨_, h1, h2⟩⟩
  · rw [if_pos h]
    exact ⟨nofun, fun h' => absurd h'.1 h⟩

theorem checkAxes_eq_ok : checkAxes a b axesA axesB = .ok () ↔
    ∀ p ∈ axesA.zip axesB, a.extent p.1 = b.extent p.2 := by
  induction axesA generalizing axesB with
  | nil => simp [checkAxes]
  | cons p ps ih =>
    cases axesB with
    | nil => simp [checkAxes]
    | cons q qs =>
      rw [checkAxes, List.zip_cons_cons, List.forall_mem_cons]
      split
      · next h => rw [ih, and_iff_right h]
      · next h => exact ⟨nofun, fun h' => absurd h'.1 h⟩

theorem checkContract_eq_ok : checkContract a b dst axesA axesB perm = .ok () ↔
    axesA.length = axesB.length ∧ (∀ p ∈ axesA.zip axesB, a.extent p.1 = b.extent p.2) ∧
      perm.length = (openExtents a b axesA axesB).length ∧
        dst.dims = perm.map fun k => (openExtents a b axesA axesB).getD k 0 := by
  unfold checkContract
  by_cases h : axesA.length = axesB.length
  · rw [if_neg (not_not_intro h), and_iff_right h, ← checkAxes_eq_ok, ← checkDims_eq_ok]
    dsimp only
    rw [bind_eq_ok]
    by_cases hp : perm.length = (openExtents a b axesA axesB).length
    · rw [if_neg (not_not_intro hp), and_iff_right hp]
      exact ⟨fun ⟨_, h1, h2⟩ => ⟨h1, h2⟩, fun ⟨h1, h2⟩ => ⟨_, h1, h2⟩⟩
    · rw [if_pos hp]
      exact ⟨fun ⟨_, _, h'⟩ => (nomatch h'), fun h' => absurd h'.2.1 hp⟩
  · rw [if_pos h]
    exact ⟨nofun, fun h' => absurd h'.1 h⟩

theorem checkAction_congr {dst' : Tensor α} (h : dst.dims = dst'.dims) (perm : List Nat)
    (action : Action (Tensor α)) : checkAction dst perm action = checkAction dst' perm action := by
  cases action with
  | copy src => simp only [checkAction, checkTrace, checkDims, h]
  | trace src pairs => simp only [checkAction, checkTrace, checkDims, h]
  | contract a b axesA axesB => simp only [checkAction, checkContract, checkDims, h]

end

variable {α : Type} [Element α]

theorem dims_perform (alpha beta : α) (action : Action (Tensor α)) (perm : List Nat)
    (dst : Tensor α) : (perform alpha beta action perm dst).dst.dims = dst.dims := by
  unfold perform
  split
  · rfl
  · rfl

/-- **What is blended in with zero covers everything.** -/
theorem blendFn_of_isZero {alpha beta : α} (hb : Element.isZero beta = true) (dst : Tensor α)
    (f : List Nat → α) : dst.blendFn alpha beta f = ofFn dst.dims fun i => alpha * f i := by
  have hblend : ∀ old x : α, blend alpha beta old x = alpha * x := by
    intro old x
    rw [blend, if_pos hb]
  have hdata : Array.zipWith (blend alpha beta) dst.data ((Index.all dst.dims).map f).toArray =
      ((Index.all dst.dims).map fun i => alpha * f i).toArray := by
    refine Array.ext (by simp [dst.size_eq]) fun i h₁ h₂ => ?_
    simp [hblend]
  unfold blendFn ofFn
  congr

end TensorNet.Tensor
