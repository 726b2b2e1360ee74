/-!
# Saturating numbers

Natural numbers up to a limit. A sum or product that would pass the limit is the limit, and a
difference stops at zero. So `ofNat` identifies all numbers from the limit on, and it respects sums
and products: saturating sums and products are those of the natural numbers after this
identification.
-/

namespace TensorNet

/-- A natural number of at most `limit`. -/
@[ext] structure Saturating (limit : Nat) where
  val : Nat
  val_le : val ≤ limit
deriving DecidableEq

namespace Saturating

variable {limit : Nat}

/-- A natural number, or the limit if it is larger. -/
def ofNat (limit n : Nat) : Saturating limit := ⟨min n limit, Nat.min_le_right n limit⟩

instance (n : Nat) : OfNat (Saturating limit) n := ⟨ofNat limit n⟩
instance : Zero (Saturating limit) := ⟨ofNat limit 0⟩
instance : One (Saturating limit) := ⟨ofNat limit 1⟩
instance : Inhabited (Saturating limit) := ⟨ofNat limit 0⟩
instance : Add (Saturating limit) := ⟨fun a b => ofNat limit (a.val + b.val)⟩
instance : Mul (Saturating limit) := ⟨fun a b => ofNat limit (a.val * b.val)⟩
instance : Sub (Saturating limit) :=
  ⟨fun a b => ⟨a.val - b.val, Nat.le_trans (Nat.sub_le _ _) a.val_le⟩⟩
instance : LT (Saturating limit) := ⟨fun a b => a.val < b.val⟩
instance : LE (Saturating limit) := ⟨fun a b => a.val ≤ b.val⟩
instance : Ord (Saturating limit) := ⟨fun a b => compare a.val b.val⟩

instance (a b : Saturating limit) : Decidable (a < b) :=
  inferInstanceAs (Decidable (a.val < b.val))

instance (a b : Saturating limit) : Decidable (a ≤ b) :=
  inferInstanceAs (Decidable (a.val ≤ b.val))

/-- The decimal digits. -/
instance : ToString (Saturating limit) := ⟨fun a => toString a.val⟩

/-! ### Values -/

@[simp] theorem val_ofNat (n : Nat) : (ofNat limit n).val = min n limit := rfl

@[simp] theorem val_add (a b : Saturating limit) : (a + b).val = min (a.val + b.val) limit := rfl

@[simp] theorem val_mul (a b : Saturating limit) : (a * b).val = min (a.val * b.val) limit := rfl

@[simp] theorem val_sub (a b : Saturating limit) : (a - b).val = a.val - b.val := rfl

theorem lt_iff {a b : Saturating limit} : a < b ↔ a.val < b.val := Iff.rfl

theorem le_iff {a b : Saturating limit} : a ≤ b ↔ a.val ≤ b.val := Iff.rfl

@[simp] theorem ofNat_val (a : Saturating limit) : ofNat limit a.val = a :=
  Saturating.ext (Nat.min_eq_left a.val_le)

theorem ofNat_add (m n : Nat) : ofNat limit (m + n) = ofNat limit m + ofNat limit n := by
  ext; simp only [val_ofNat, val_add]; omega

/-- A factor may be cut off at the limit first: from there on it takes a product to the limit, or
the product is zero in either case. -/
theorem min_mul_min (limit m n : Nat) : min (m * min n limit) limit = min (m * n) limit := by
  rcases Nat.le_total n limit with h | h
  · rw [Nat.min_eq_left h]
  rw [Nat.min_eq_right h]
  rcases Nat.eq_zero_or_pos m with rfl | hm
  · simp
  have hl : limit ≤ m * limit := Nat.le_mul_of_pos_left limit hm
  rw [Nat.min_eq_right hl, Nat.min_eq_right (Nat.le_trans hl (Nat.mul_le_mul_left m h))]

theorem ofNat_mul (m n : Nat) : ofNat limit (m * n) = ofNat limit m * ofNat limit n := by
  ext
  simp only [val_ofNat, val_mul]
  rw [min_mul_min, Nat.mul_comm (min m limit), min_mul_min, Nat.mul_comm]

end Saturating

end TensorNet
