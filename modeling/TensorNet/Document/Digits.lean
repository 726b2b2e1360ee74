/-!
# Decimal digits

Natural numbers are written with the digits `0` to `9`, without leading zeros. Main statement:
a written number is read back as itself.
-/

namespace TensorNet.Digits

/-- The digit of a number below ten. -/
def digit (n : Nat) : Char := Char.ofNat (48 + n)

/-- The value of a digit. -/
def digitValue (c : Char) : Nat := c.toNat - 48

/-- The digits of a number. -/
def ofNat (n : Nat) : List Char :=
  if _h : n < 10 then [digit n] else ofNat (n / 10) ++ [digit (n % 10)]
termination_by n
decreasing_by omega

/-- The value of a list of digits after those of value `n`. -/
def valueFrom (n : Nat) (cs : List Char) : Nat := cs.foldl (fun n c => 10 * n + digitValue c) n

/-- The value of a list of digits. -/
def value (cs : List Char) : Nat := valueFrom 0 cs

/-- Digits without a leading zero. -/
def isPlain : List Char → Bool
  | [] => false
  | [c] => c.isDigit
  | c :: cs => c.isDigit && c != '0' && cs.all Char.isDigit

/-- Reads a plain number of at most `max`. -/
def read? (max : Nat) (cs : List Char) : Option Nat :=
  if isPlain cs && decide (value cs ≤ max) then some (value cs) else none

/-! ### Reading back -/

theorem digitValue_digit {n : Nat} (h : n < 10) : digitValue (digit n) = n := by
  have : ∀ m : Fin 10, digitValue (digit m) = m := by decide
  exact this ⟨n, h⟩

theorem isDigit_digit {n : Nat} (h : n < 10) : (digit n).isDigit = true := by
  have : ∀ m : Fin 10, (digit m).isDigit = true := by decide
  exact this ⟨n, h⟩

@[simp] theorem value_ofNat (n : Nat) : value (ofNat n) = n := by
  fun_induction ofNat n with
  | case1 n h => simp [value, valueFrom, digitValue_digit h]
  | case2 n h ih =>
    simp only [value, valueFrom] at ih
    simp only [value, valueFrom, List.foldl_append, ih, List.foldl_cons, List.foldl_nil]
    rw [digitValue_digit (Nat.mod_lt n (by decide))]
    omega

end TensorNet.Digits
