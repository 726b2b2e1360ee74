import Mathlib.Algebra.BigOperators.Ring.Finset
import TensorNet.Proofs.Cost.Coefficients

/-!
# Costs as numbers

A cost has a value at every number that is put for its variable. No coefficient reaches `2 ^ 128`,
so at each number from there on the coefficients are the digits of the value, and costs in one
variable are ordered as their values are. The value at `2 ^ 128` is the *rank* of a cost. Ranks add
up as long as no coefficient saturates, and the rank of a number of steps is that number.

So a statement about the least of many costs becomes one about natural numbers.
-/

namespace TensorNet

/-- One more than the largest coefficient. -/
def Terms.base : Nat := 2 ^ 128

namespace Terms

theorem val_lt_base (c : Coefficient) : c.val < base := Nat.lt_succ_of_le c.val_le

theorem base_pos : 0 < base := Nat.two_pow_pos 128

/-- The value of the listed terms at a number put for the variable. -/
def eval (n : Nat) (ts : List (Exponent × Coefficient)) : Nat :=
  (ts.map fun x => x.2.val * n ^ x.1.val).sum

@[simp] theorem eval_nil (n : Nat) : eval n [] = 0 := rfl

@[simp] theorem eval_cons (n : Nat) (x : Exponent × Coefficient)
    (ts : List (Exponent × Coefficient)) :
    eval n (x :: ts) = x.2.val * n ^ x.1.val + eval n ts := rfl

/-- The number with the given digits. -/
def rank (ts : List (Exponent × Coefficient)) : Nat :=
  (ts.map fun x => x.2.val * base ^ x.1.val).sum

@[simp] theorem rank_nil : rank [] = 0 := rfl

@[simp] theorem rank_cons (x : Exponent × Coefficient) (ts : List (Exponent × Coefficient)) :
    rank (x :: ts) = x.2.val * base ^ x.1.val + rank ts := rfl

/-- The digits of the rank are the sums of the coefficients. -/
theorem rank_eq_sum (ts : List (Exponent × Coefficient)) :
    rank ts = ∑ k ∈ Finset.range (0xFFFFFFFF + 1), total ts (.ofNat _ k) * base ^ k := by
  induction ts with
  | nil => simp
  | cons x ts ih =>
    have hx : ∀ k ∈ Finset.range (0xFFFFFFFF + 1),
        (if x.1 = .ofNat _ k then x.2.val else 0) * base ^ k =
          if k = x.1.val then x.2.val * base ^ k else 0 := by
      intro k hk
      have hk' : min k 0xFFFFFFFF = k := Nat.min_eq_left (Nat.lt_succ_iff.1 (Finset.mem_range.1 hk))
      have : x.1 = .ofNat _ k ↔ k = x.1.val := by
        rw [Saturating.ext_iff, Saturating.val_ofNat, hk', eq_comm]
      simp only [this, ite_mul, zero_mul]
    simp only [total_cons, add_mul, Finset.sum_add_distrib]
    rw [rank_cons, ih, Finset.sum_congr rfl hx, Finset.sum_ite_eq', if_pos]
    exact Finset.mem_range.2 (Nat.lt_succ_of_le x.1.val_le)

/-! ### Comparing digit by digit

All coefficients are digits to any base from `base` on, so what is said here of the value at `base`
holds of the values at all larger numbers too. -/

/-- Terms in descending order without zeros, as the digits of a number other than zero. -/
structure Digits (ts : List (Exponent × Coefficient)) : Prop where
  descending : ts.Pairwise fun s t => t.1 < s.1
  nonzero : ∀ x ∈ ts, x.2 ≠ 0

theorem Digits.tail {x : Exponent × Coefficient} {ts : List (Exponent × Coefficient)}
    (h : Digits (x :: ts)) : Digits ts :=
  ⟨(List.pairwise_cons.1 h.descending).2, fun y hy => h.nonzero y (List.mem_cons_of_mem _ hy)⟩

section

variable {n : Nat} (hn : base ≤ n)
include hn

/-- A number is below the power of the base that has more digits. -/
theorem Digits.eval_lt {ts : List (Exponent × Coefficient)} (h : Digits ts) {k : Nat}
    (hk : ∀ x ∈ ts, x.1.val < k) : eval n ts < n ^ k := by
  have hpos : 0 < n := Nat.lt_of_lt_of_le base_pos hn
  induction ts generalizing k with
  | nil => exact Nat.pow_pos hpos
  | cons x ts ih =>
    have ht : eval n ts < n ^ x.1.val := ih h.tail (List.pairwise_cons.1 h.descending).1
    have hx : x.1.val + 1 ≤ k := hk x List.mem_cons_self
    have hc : (x.2.val + 1) * n ^ x.1.val ≤ n * n ^ x.1.val :=
      Nat.mul_le_mul_right _ (Nat.le_trans (val_lt_base x.2) hn)
    calc eval n (x :: ts) < (x.2.val + 1) * n ^ x.1.val := by
          rw [eval_cons, Nat.add_mul]
          omega
      _ ≤ n ^ (x.1.val + 1) := by rwa [Nat.pow_succ']
      _ ≤ n ^ k := Nat.pow_le_pow_right hpos hx

/-- The first digit and the rest are those of the quotient and the remainder. -/
theorem Digits.eval_tail_lt {x : Exponent × Coefficient} {ts : List (Exponent × Coefficient)}
    (h : Digits (x :: ts)) : eval n ts < n ^ x.1.val :=
  h.tail.eval_lt hn (List.pairwise_cons.1 h.descending).1

omit hn in
theorem Digits.le_eval {x : Exponent × Coefficient} {ts : List (Exponent × Coefficient)}
    (h : Digits (x :: ts)) : n ^ x.1.val ≤ eval n (x :: ts) := by
  have hx : x.2.val ≠ 0 := fun h0 => h.nonzero x List.mem_cons_self (Saturating.ext h0)
  have : 1 * n ^ x.1.val ≤ x.2.val * n ^ x.1.val :=
    Nat.mul_le_mul_right _ (Nat.one_le_iff_ne_zero.2 hx)
  rw [eval_cons]
  omega

/-- A larger first exponent makes the number larger. -/
theorem Digits.eval_lt_of_exponent_lt {x y : Exponent × Coefficient}
    {xs ys : List (Exponent × Coefficient)} (hx : Digits (x :: xs)) (hy : Digits (y :: ys))
    (h : x.1 < y.1) : eval n (x :: xs) < eval n (y :: ys) := by
  refine Nat.lt_of_lt_of_le (hx.eval_lt hn fun z hz => ?_) hy.le_eval
  rcases List.mem_cons.1 hz with rfl | hz
  · exact h
  · exact Nat.lt_trans ((List.pairwise_cons.1 hx.descending).1 z hz) h

/-- At equal first exponents a larger coefficient makes the number larger. -/
theorem Digits.eval_lt_of_coefficient_lt {x y : Exponent × Coefficient}
    {xs ys : List (Exponent × Coefficient)} (hx : Digits (x :: xs)) (he : x.1 = y.1)
    (h : x.2 < y.2) : eval n (x :: xs) < eval n (y :: ys) := by
  have hr := hx.eval_tail_lt hn
  have hc : (x.2.val + 1) * n ^ x.1.val ≤ y.2.val * n ^ x.1.val :=
    Nat.mul_le_mul_right _ h
  rw [Nat.add_mul] at hc
  rw [eval_cons, eval_cons, ← he]
  omega

/-- **Comparing terms compares values** at every number that is large enough. -/
theorem compareTerms_eq_eval {xs ys : List (Exponent × Coefficient)} (hx : Digits xs)
    (hy : Digits ys) : Cost.compareTerms xs ys = compare (eval n xs) (eval n ys) := by
  have hpos : 0 < n := Nat.lt_of_lt_of_le base_pos hn
  induction xs generalizing ys with
  | nil =>
    cases ys with
    | nil => rfl
    | cons y ys =>
      have h1 := hy.le_eval (n := n)
      have h2 : 0 < n ^ y.1.val := Nat.pow_pos hpos
      rw [Cost.compareTerms, eval_nil, Nat.compare_eq_lt.2 (by omega)]
  | cons x xs ih =>
    cases ys with
    | nil =>
      have h1 := hx.le_eval (n := n)
      have h2 : 0 < n ^ x.1.val := Nat.pow_pos hpos
      rw [Cost.compareTerms, eval_nil, Nat.compare_eq_gt.2 (by omega)]
    | cons y ys =>
      rw [Cost.compareTerms]
      show ((compare x.1.val y.1.val).then (compare x.2.val y.2.val)).then _ = _
      rcases Nat.lt_trichotomy x.1.val y.1.val with h | h | h
      · rw [Nat.compare_eq_lt.2 h, Nat.compare_eq_lt.2 (hx.eval_lt_of_exponent_lt hn hy h)]
        rfl
      · have he : x.1 = y.1 := Saturating.ext h
        rw [Nat.compare_eq_eq.2 h]
        rcases Nat.lt_trichotomy x.2.val y.2.val with hc | hc | hc
        · rw [Nat.compare_eq_lt.2 hc, Nat.compare_eq_lt.2 (hx.eval_lt_of_coefficient_lt hn he hc)]
          rfl
        · rw [Nat.compare_eq_eq.2 hc, ih hx.tail hy.tail, eval_cons, eval_cons, h, hc]
          simp only [Ordering.then, Nat.compare_eq_ite_lt, Nat.add_lt_add_iff_left]
        · rw [Nat.compare_eq_gt.2 hc,
            Nat.compare_eq_gt.2 (hy.eval_lt_of_coefficient_lt hn he.symm hc)]
          rfl
      · rw [Nat.compare_eq_gt.2 h, Nat.compare_eq_gt.2 (hy.eval_lt_of_exponent_lt hn hx h)]
        rfl

end

end Terms

namespace Cost

open Terms

/-- **Comparing terms compares numbers.** -/
theorem compareTerms_eq {xs ys : List (Exponent × Coefficient)} (hx : Digits xs)
    (hy : Digits ys) : compareTerms xs ys = compare (Terms.rank xs) (Terms.rank ys) :=
  compareTerms_eq_eval (Nat.le_refl base) hx hy

/-- The number whose digits are the coefficients of a cost. -/
def rank (c : Cost) : Nat := Terms.rank c.descending

theorem Reduced.digits {c : Cost} (h : c.Reduced) : Digits c.descending := by
  cases c with
  | integer n =>
    rw [descending]
    split
    · exact ⟨.nil, fun x hx => absurd hx List.not_mem_nil⟩
    · next hn =>
      refine ⟨List.pairwise_singleton _ _, fun x hx => ?_⟩
      rw [List.mem_singleton.1 hx]
      exact hn
  | polynomial p =>
    refine ⟨List.pairwise_reverse.2 p.terms.ascending, fun x hx => ?_⟩
    exact h.1 x (List.mem_reverse.1 hx)

/-- The value of a cost at a number put for the variable. -/
def eval (c : Cost) (n : Nat) : Nat := Terms.eval n c.descending

@[simp] theorem eval_integer (m : Coefficient) (n : Nat) : (integer m).eval n = m.val := by
  rw [eval, descending]
  split
  · next h =>
    rw [h]
    rfl
  · show m.val * n ^ 0 + 0 = m.val
    rw [Nat.pow_zero, Nat.mul_one, Nat.add_zero]

@[simp] theorem rank_integer (n : Coefficient) : (integer n).rank = n.val := eval_integer n base

@[simp] theorem rank_zero : (0 : Cost).rank = 0 := rank_integer 0

/-- The coefficients of a cost are the digits of its rank. -/
theorem rank_eq_sum (c : Cost) : c.rank =
    ∑ k ∈ Finset.range (0xFFFFFFFF + 1), (c.coefficient (.ofNat _ k)).val * base ^ k := by
  rw [rank, Terms.rank_eq_sum]
  simp only [total_descending]

variable {s : String} {a b c : Cost}

/-- **Costs in one variable are ordered as their values are** at every number that is large
enough. -/
theorem cmp_eq_compare_eval (ha : a.Over s) (hb : b.Over s) (har : a.Reduced) (hbr : b.Reduced)
    {n : Nat} (hn : base ≤ n) : a.cmp b = .ok (compare (a.eval n) (b.eval n)) := by
  rcases integers_or_terms ha hb with ⟨k, m, rfl, rfl⟩ | ⟨-, -, h⟩
  · rw [eval_integer, eval_integer]
    rfl
  · rw [h, compareTerms_eq_eval hn har.digits hbr.digits, eval, eval]

/-- **Costs in one variable are ordered as their ranks are.** -/
theorem cmp_of_over (ha : a.Over s) (hb : b.Over s) (har : a.Reduced) (hbr : b.Reduced) :
    a.cmp b = .ok (compare a.rank b.rank) :=
  cmp_eq_compare_eval ha hb har hbr (Nat.le_refl base)

theorem lt_of_over (ha : a.Over s) (hb : b.Over s) (har : a.Reduced) (hbr : b.Reduced) :
    a.lt b = .ok (decide (a.rank < b.rank)) := by
  rw [lt, cmp_of_over ha hb har hbr, ok_bind, pure_eq_ok]
  congr 1
  rw [Bool.eq_iff_iff, beq_iff_eq, Nat.compare_eq_lt, decide_eq_true_eq]

/-- Ranks add up where no coefficient of the sum saturates. -/
theorem rank_add_of_exact (h : ∀ e, (c.coefficient e).val =
    (a.coefficient e).val + (b.coefficient e).val) : c.rank = a.rank + b.rank := by
  rw [rank_eq_sum, rank_eq_sum a, rank_eq_sum b, ← Finset.sum_add_distrib]
  refine Finset.sum_congr rfl fun k _ => ?_
  rw [h, Nat.add_mul]

/-! ### Equal costs -/

theorem eq_of_compareTerms_eq {xs ys : List (Exponent × Coefficient)}
    (h : compareTerms xs ys = .eq) : xs = ys := by
  induction xs generalizing ys with
  | nil =>
    cases ys with
    | nil => rfl
    | cons y ys => cases h
  | cons x xs ih =>
    cases ys with
    | nil => cases h
    | cons y ys =>
      rw [compareTerms, Ordering.then_eq_eq, Ordering.then_eq_eq] at h
      obtain ⟨⟨h1, h2⟩, h3⟩ := h
      have hx : x = y := Prod.ext (Saturating.ext (Nat.compare_eq_eq.1 h1))
        (Saturating.ext (Nat.compare_eq_eq.1 h2))
      rw [hx, ih h3]

theorem exponent_of_mem_integer {n : Coefficient} {x : Exponent × Coefficient}
    (hx : x ∈ (integer n).descending) : x.1 = 0 := by
  rw [descending] at hx
  split at hx
  · cases hx
  · rw [List.mem_singleton.1 hx]

/-- A number and a polynomial in normal form have different terms. -/
theorem descending_integer_ne {n : Coefficient} {p : Poly} (h : (polynomial p).Reduced) :
    (integer n).descending ≠ (polynomial p).descending := by
  intro he
  obtain ⟨-, x, hx, hne⟩ := h
  have hx' : x ∈ (polynomial p).descending := List.mem_reverse.2 hx
  rw [← he] at hx'
  exact hne (exponent_of_mem_integer hx')

/-- **Costs of one rank are equal.** -/
theorem eq_of_rank_eq (ha : a.Over s) (hb : b.Over s) (har : a.Reduced) (hbr : b.Reduced)
    (hrank : a.rank = b.rank) : a = b := by
  have hdesc : a.descending = b.descending := by
    refine eq_of_compareTerms_eq ?_
    rw [compareTerms_eq har.digits hbr.digits]
    exact Nat.compare_eq_eq.2 hrank
  cases a with
  | integer m =>
    cases b with
    | integer n =>
      rw [rank_integer, rank_integer] at hrank
      rw [Saturating.ext hrank]
    | polynomial q => exact absurd hdesc (descending_integer_ne hbr)
  | polynomial p =>
    cases b with
    | integer n => exact absurd hdesc.symm (descending_integer_ne har)
    | polynomial q =>
      obtain ⟨x, t⟩ := p
      obtain ⟨y, u⟩ := q
      have hs : x = y := (ha _ rfl).trans (hb _ rfl).symm
      have ht : t = u := Terms.ext (List.reverse_injective hdesc)
      rw [hs, ht]

/-- **Equal coefficients of costs in one variable make equal costs.** -/
theorem eq_of_coefficient_eq (ha : a.Over s) (hb : b.Over s) (har : a.Reduced) (hbr : b.Reduced)
    (h : ∀ e, a.coefficient e = b.coefficient e) : a = b := by
  refine eq_of_rank_eq ha hb har hbr ?_
  rw [rank_eq_sum, rank_eq_sum]
  simp only [h]

end Cost

end TensorNet
