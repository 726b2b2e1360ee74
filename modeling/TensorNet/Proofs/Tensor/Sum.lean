import Mathlib.Algebra.BigOperators.Ring.List
import TensorNet.Label
import TensorNet.Proofs.Tensor.Index
import TensorNet.Proofs.Tensor.Lawful

/-!
# Sums over labels

Values of labels, and the sum of a function of them over all values of some labels. With the laws
of a semiring such sums can be taken in any order, and a factor that does not depend on the labels
of a sum can be moved in and out.
-/

namespace TensorNet

/-- A value for each label. -/
abbrev Values := Label → Nat

/-- Values with those of some labels replaced. -/
def Values.set : Values → List Label → List Nat → Values
  | a, l :: ls, v :: vs => Values.set (Function.update a l v) ls vs
  | a, _, _ => a

/-- **The sum over all values of some labels** within their extents. -/
def sumOver {α : Type} [Zero α] [Add α] (dim : Label → Nat) :
    List Label → (Values → α) → Values → α
  | [], f, a => f a
  | l :: ls, f, a =>
    ((List.range (dim l)).map fun v => sumOver dim ls f (Function.update a l v)).sum

/-- A function does not depend on the value of a label. -/
def Ignores {α : Type} (f : Values → α) (l : Label) : Prop :=
  ∀ a v, f (Function.update a l v) = f a

/-! ### Values -/

namespace Values

variable {ls : List Label} {a : Values}

theorem set_of_not_mem {l : Label} (h : l ∉ ls) (vs : List Nat) : a.set ls vs l = a l := by
  induction ls generalizing a vs with
  | nil => cases vs <;> rfl
  | cons m ls ih =>
    cases vs with
    | nil => rfl
    | cons v vs =>
      rw [List.mem_cons, not_or] at h
      rw [set, ih h.2, Function.update_of_ne h.1]

/-- The values that were put in are read back. -/
theorem map_set (hn : ls.Nodup) {vs : List Nat} (h : vs.length = ls.length) :
    ls.map (a.set ls vs) = vs := by
  induction ls generalizing a vs with
  | nil => exact (List.eq_nil_of_length_eq_zero h).symm
  | cons l ls ih =>
    cases vs with
    | nil => cases h
    | cons v vs =>
      rw [List.nodup_cons] at hn
      rw [List.map_cons, set, set_of_not_mem hn.1, Function.update_self, ih hn.2 (Nat.succ.inj h)]

/-- Values in range for some labels, and elsewhere values that are in range already. -/
theorem set_lt {dim : Label → Nat} (hn : ls.Nodup) {vs : List Nat}
    (hv : Index.inRange vs (ls.map dim) = true) {l : Label} (h : l ∉ ls → a l < dim l) :
    a.set ls vs l < dim l := by
  have hlen : vs.length = ls.length := by rw [Index.length_of_inRange hv, List.length_map]
  by_cases hl : l ∈ ls
  · rw [← map_set (a := a) hn hlen, Index.inRange_map] at hv
    exact hv l hl
  · rw [set_of_not_mem hl]
    exact h hl

end Values

/-! ### Sums -/

section

variable {α : Type} [Element α] {dim : Label → Nat}

theorem sumOver_append (ls ms : List Label) (f : Values → α) (a : Values) :
    sumOver dim (ls ++ ms) f a = sumOver dim ls (sumOver dim ms f) a := by
  induction ls generalizing a with
  | nil => rfl
  | cons l ls ih => simp only [List.cons_append, sumOver, ih]

theorem Ignores.sumOver {f : Values → α} {m : Label} (h : Ignores f m) (ls : List Label) :
    Ignores (sumOver dim ls f) m := by
  intro a v
  induction ls generalizing a with
  | nil => exact h a v
  | cons l ls ih =>
    simp only [TensorNet.sumOver]
    refine congrArg List.sum (List.map_congr_left fun w _ => ?_)
    by_cases hlm : l = m
    · rw [hlm, Function.update_idem]
    · rw [Function.update_comm (Ne.symm hlm), ih]

end

/-! ### Sums of elements with laws -/

namespace LawfulElement

variable {α : Type} [Element α] [LawfulElement α]

/-- The laws, packed for the library. -/
@[reducible] def commSemiring : CommSemiring α where
  add := (· + ·)
  mul := (· * ·)
  zero := 0
  one := 1
  add_assoc := add_assoc
  add_comm := add_comm
  zero_add := zero_add
  add_zero x := by rw [add_comm, zero_add]
  mul_assoc := mul_assoc
  mul_comm := mul_comm
  one_mul := one_mul
  mul_one x := by rw [mul_comm, one_mul]
  zero_mul := zero_mul
  mul_zero x := by rw [mul_comm, zero_mul]
  left_distrib := mul_add
  right_distrib x y z := by rw [mul_comm, mul_add, mul_comm z, mul_comm z]
  nsmul := nsmulRec
  npow := npowRec

end LawfulElement

section

attribute [local instance] LawfulElement.commSemiring

variable {α : Type} [Element α] [LawfulElement α] {dim : Label → Nat}

/-- A loop that adds up is a sum. -/
theorem foldl_add_eq_sum {ι : Type} (l : List ι) (f : ι → α) :
    l.foldl (fun s i => s + f i) 0 = (l.map f).sum := by
  rw [List.sum_eq_foldl, List.foldl_map]

/-- **A sum over labels is a sum over multi-indices.** -/
theorem sumOver_eq_sum_all (ls : List Label) (f : Values → α) (a : Values) :
    sumOver dim ls f a = ((Index.all (ls.map dim)).map fun v => f (a.set ls v)).sum := by
  induction ls generalizing a with
  | nil => simp [sumOver, Index.all_nil, Values.set]
  | cons l ls ih =>
    have hblock : ∀ (vs : List Nat), (vs.flatMap fun i =>
        (Index.all (ls.map dim)).map (i :: ·)).map (fun v => f (a.set (l :: ls) v)) =
          vs.flatMap fun i => (Index.all (ls.map dim)).map fun v =>
            f (Values.set (Function.update a l i) ls v) := by
      intro vs
      rw [List.map_flatMap]
      refine congrArg List.flatten (List.map_congr_left fun i _ => ?_)
      rw [List.map_map]
      rfl
    have hsum : ∀ (vs : List Nat) (g : Nat → List α),
        (vs.flatMap g).sum = (vs.map fun i => (g i).sum).sum := by
      intro vs g
      induction vs with
      | nil => rfl
      | cons v vs ih => rw [List.flatMap_cons, List.sum_append, ih, List.map_cons, List.sum_cons]
    rw [List.map_cons, Index.all_cons, hblock, hsum, sumOver]
    exact congrArg List.sum (List.map_congr_left fun v _ => ih _)

theorem sum_comm {ι κ : Type} (l : List ι) (m : List κ) (f : ι → κ → α) :
    (l.map fun i => (m.map fun j => f i j).sum).sum =
      (m.map fun j => (l.map fun i => f i j).sum).sum := by
  induction l with
  | nil => simp
  | cons i l ih => simp only [List.map_cons, List.sum_cons, ih, List.sum_map_add]

/-- **The order of the labels of a sum does not matter.** -/
theorem sumOver_perm {ls ms : List Label} (h : ls.Perm ms) (hn : ls.Nodup) (f : Values → α)
    (a : Values) : sumOver dim ls f a = sumOver dim ms f a := by
  induction h generalizing a with
  | nil => rfl
  | cons l h ih =>
    rw [List.nodup_cons] at hn
    exact congrArg List.sum (List.map_congr_left fun v _ => ih hn.2 _)
  | swap l m ls =>
    have hne : l ≠ m := fun he => by simp [he] at hn
    simp only [sumOver]
    rw [sum_comm]
    refine congrArg List.sum (List.map_congr_left fun v _ => ?_)
    refine congrArg List.sum (List.map_congr_left fun w _ => ?_)
    rw [Function.update_comm hne]
  | trans h _ ih₁ ih₂ => rw [ih₁ hn, ih₂ (h.nodup_iff.1 hn)]

/-- **A factor that does not depend on the summed labels** goes into the sum. -/
theorem sumOver_mul {ls : List Label} {f g : Values → α} (h : ∀ l ∈ ls, Ignores g l) (a : Values) :
    sumOver dim ls f a * g a = sumOver dim ls (fun b => f b * g b) a := by
  induction ls generalizing a with
  | nil => rfl
  | cons l ls ih =>
    simp only [sumOver]
    rw [← List.sum_map_mul_right]
    refine congrArg List.sum (List.map_congr_left fun v _ => ?_)
    rw [← ih fun m hm => h m (List.mem_cons_of_mem _ hm), h l List.mem_cons_self]

theorem mul_sumOver {ls : List Label} {f g : Values → α} (h : ∀ l ∈ ls, Ignores f l) (a : Values) :
    f a * sumOver dim ls g a = sumOver dim ls (fun b => f b * g b) a := by
  rw [mul_comm, sumOver_mul h]
  exact congrArg (fun e => sumOver dim ls e a) (funext fun b => mul_comm (g b) (f b))

end

end TensorNet
