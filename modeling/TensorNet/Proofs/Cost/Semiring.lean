import Mathlib.Algebra.MonoidAlgebra.Basic
import Mathlib.Algebra.Polynomial.Eval.Defs
import TensorNet.Proofs.Cost.Rank

/-!
# The semiring of costs

Costs in normal form that use one variable are a commutative semiring under saturating sums and
products.

## 1. Saturated polynomials

Saturating numbers are natural numbers after an identification that respects sums and products, so
they are a commutative semiring. Polynomials with saturating coefficients *and* saturating
exponents are one too: they are the monoid algebra of the exponents.

## 2. What a cost stands for

A cost stands for the saturated polynomial that has its terms. Sums and products of costs stand for
sums and products, and a cost in normal form is determined by what it stands for. So two ways to
compute a cost agree as soon as they compute one polynomial, and the laws of costs are those of
polynomials.

## 3. Exact polynomials

Cutting off exponents and coefficients takes polynomials over the natural numbers to saturated
ones, and it respects sums and products. So it does not matter if numbers are cut off after every
step or only at the end.
-/

namespace TensorNet

open Polynomial

/-! ### Saturating numbers -/

namespace Saturating

variable {limit : Nat}

theorem ofNat_surjective : Function.Surjective (ofNat limit) := fun a => ⟨a.val, ofNat_val a⟩

scoped instance : SMul ℕ (Saturating limit) := ⟨fun n a => ofNat limit (n * a.val)⟩

scoped instance : Pow (Saturating limit) ℕ := ⟨fun a n => ofNat limit (a.val ^ n)⟩

scoped instance : NatCast (Saturating limit) := ⟨ofNat limit⟩

theorem ofNat_smul (n m : ℕ) : ofNat limit (n • m) = n • ofNat limit m := by
  ext
  exact (min_mul_min limit n m).symm

theorem ofNat_pow (m n : ℕ) : ofNat limit (m ^ n) = ofNat limit m ^ n := by
  show ofNat limit (m ^ n) = ofNat limit ((ofNat limit m).val ^ n)
  induction n with
  | zero => rfl
  | succ n ih => rw [Nat.pow_succ, Nat.pow_succ, ofNat_mul, ih, ofNat_mul, ofNat_val]

/-- **Saturating numbers are a commutative semiring**, as an image of the natural numbers. -/
scoped instance : CommSemiring (Saturating limit) :=
  ofNat_surjective.commSemiring (ofNat limit) rfl rfl ofNat_add ofNat_mul ofNat_smul ofNat_pow
    fun _ => rfl

end Saturating

open scoped Saturating

/-- A polynomial in which coefficients and exponents are saturating numbers. -/
abbrev SaturatedPoly := AddMonoidAlgebra Coefficient Exponent

/-! ### Lists of terms -/

namespace Terms

/-- The sum of the listed terms. -/
noncomputable def poly (ts : List (Exponent × Coefficient)) : SaturatedPoly :=
  (ts.map fun x => .single x.1 x.2).sum

theorem poly_cons (x : Exponent × Coefficient) (ts : List (Exponent × Coefficient)) :
    poly (x :: ts) = .single x.1 x.2 + poly ts := rfl

theorem poly_append (xs ys : List (Exponent × Coefficient)) :
    poly (xs ++ ys) = poly xs + poly ys := by
  rw [poly, List.map_append, List.sum_append, poly, poly]

theorem coeff_poly (ts : List (Exponent × Coefficient)) (e : Exponent) :
    (poly ts).coeff e = .ofNat _ (total ts e) := by
  induction ts with
  | nil => rfl
  | cons x ts ih =>
    rw [poly_cons, AddMonoidAlgebra.coeff_add, Finsupp.add_apply, ih,
      AddMonoidAlgebra.coeff_single, Finsupp.single_apply, total_cons, Saturating.ofNat_add]
    congr 1
    split
    · exact (Saturating.ofNat_val x.2).symm
    · rfl

theorem poly_termProducts (xs ys : List (Exponent × Coefficient)) :
    poly (Cost.termProducts xs ys) = poly xs * poly ys := by
  induction xs with
  | nil => exact (zero_mul _).symm
  | cons x xs ih =>
    have hx : poly (ys.map fun y => (x.1 + y.1, x.2 * y.2)) = .single x.1 x.2 * poly ys := by
      rw [poly, List.map_map, poly, ← List.sum_map_mul_left]
      refine congrArg List.sum (List.map_congr_left fun y _ => ?_)
      exact (AddMonoidAlgebra.single_mul_single ..).symm
    rw [poly_cons, add_mul, ← ih, ← hx, ← poly_append]
    rfl

end Terms

/-! ### What a cost stands for -/

namespace Cost

variable {s : String} {a b c : Cost}

/-- A cost in normal form that uses no variable but the given one. -/
structure NormalIn (s : String) (c : Cost) : Prop where
  symbols : c.Over s
  reduced : c.Reduced

theorem normalIn_integer (s : String) (n : Coefficient) : (integer n).NormalIn s :=
  ⟨over_integer s n, trivial⟩

theorem normalIn_zero (s : String) : (0 : Cost).NormalIn s := normalIn_integer s 0

theorem normalIn_one (s : String) : (1 : Cost).NormalIn s := normalIn_integer s 1

theorem normalIn_normal (s : String) (t : Terms) : (normal s t).NormalIn s :=
  ⟨over_normal s t, reduced_normal s t⟩

/-- The saturated polynomial that a cost stands for. -/
noncomputable def value (c : Cost) : SaturatedPoly := Terms.poly c.descending

theorem coeff_value (c : Cost) (e : Exponent) : c.value.coeff e = c.coefficient e := by
  rw [value, Terms.coeff_poly, total_descending, Saturating.ofNat_val]

theorem value_integer (n : Coefficient) : (integer n).value = .single 0 n := by
  refine AddMonoidAlgebra.ext (Finsupp.ext fun e => ?_)
  rw [coeff_value, coefficient_integer, AddMonoidAlgebra.coeff_single, Finsupp.single_apply]
  simp only [eq_comm]

theorem value_zero : (0 : Cost).value = 0 :=
  (value_integer 0).trans (AddMonoidAlgebra.single_zero 0)

theorem value_one : (1 : Cost).value = 1 := value_integer 1

/-- **A cost in normal form is determined by what it stands for.** -/
theorem NormalIn.ext (ha : a.NormalIn s) (hb : b.NormalIn s) (h : a.value = b.value) : a = b := by
  refine eq_of_coefficient_eq ha.symbols hb.symbols ha.reduced hb.reduced fun e => ?_
  rw [← coeff_value, ← coeff_value, h]

/-- A computation gives the cost in normal form that stands for the given polynomial. -/
def Yields (s : String) (r : Except Error Cost) (v : SaturatedPoly) : Prop :=
  ∃ c, r = .ok c ∧ c.NormalIn s ∧ c.value = v

theorem NormalIn.yields (h : c.NormalIn s) : Yields s (.ok c) c.value := ⟨c, rfl, h, rfl⟩

/-- Computations of one polynomial give one cost. -/
theorem Yields.unique {r r' : Except Error Cost} {v : SaturatedPoly} (h : Yields s r v)
    (h' : Yields s r' v) : r = r' := by
  obtain ⟨c, rfl, hc, hv⟩ := h
  obtain ⟨d, rfl, hd, hv'⟩ := h'
  rw [hc.ext hd (hv.trans hv'.symm)]

theorem Yields.bind {r : Except Error Cost} {f : Cost → Except Error Cost} {v w : SaturatedPoly}
    (h : Yields s r v) (hf : ∀ c, c.NormalIn s → c.value = v → Yields s (f c) w) :
    Yields s (r >>= f) w := by
  obtain ⟨c, rfl, hc, hv⟩ := h
  exact hf c hc hv

/-- **A sum of costs stands for the sum.** -/
theorem yields_add (ha : a.Over s) (hb : b.Over s) :
    Yields s (a.add b) (a.value + b.value) := by
  obtain ⟨c, hc, ho, hr, he⟩ := add_of_over ha hb
  refine ⟨c, hc, ⟨ho, hr⟩, AddMonoidAlgebra.ext (Finsupp.ext fun e => ?_)⟩
  rw [coeff_value, he, AddMonoidAlgebra.coeff_add, Finsupp.add_apply, coeff_value, coeff_value]

/-- **A product of costs stands for the product.** -/
theorem yields_mul (ha : a.Over s) (hb : b.Over s) :
    Yields s (a.mul b) (a.value * b.value) := by
  rcases integers_or_terms ha hb with ⟨m, n, rfl, rfl⟩ | ⟨-, h, -⟩
  · refine ⟨integer (m * n), rfl, normalIn_integer s _, ?_⟩
    rw [value_integer, value_integer, value_integer, AddMonoidAlgebra.single_mul_single, add_zero]
  · refine ⟨_, h, normalIn_normal s _, ?_⟩
    refine AddMonoidAlgebra.ext (Finsupp.ext fun e => ?_)
    rw [coeff_value, coefficient_normal, Terms.coefficient_ofSum, ← Terms.coeff_poly,
      Terms.poly_termProducts, value, value]

/-! ### The laws -/

/-- **The laws of a commutative semiring** for the sums and products of three costs. -/
structure SemiringLaws (a b c : Cost) : Prop where
  add_comm : a.add b = b.add a
  add_assoc : (do (← a.add b).add c) = (do a.add (← b.add c))
  zero_add : Cost.add 0 a = .ok a
  mul_comm : a.mul b = b.mul a
  mul_assoc : (do (← a.mul b).mul c) = (do a.mul (← b.mul c))
  one_mul : Cost.mul 1 a = .ok a
  zero_mul : Cost.mul 0 a = .ok 0
  mul_add : (do a.mul (← b.add c)) = (do (← a.mul b).add (← a.mul c))

theorem NormalIn.semiringLaws (ha : a.NormalIn s) (hb : b.NormalIn s) (hc : c.NormalIn s) :
    SemiringLaws a b c where
  add_comm := by
    have h := yields_add hb.symbols ha.symbols
    rw [add_comm] at h
    exact (yields_add ha.symbols hb.symbols).unique h
  add_assoc := by
    have hl : Yields s (do (← a.add b).add c) (a.value + b.value + c.value) :=
      (yields_add ha.symbols hb.symbols).bind fun d hd hv => hv ▸ yields_add hd.symbols hc.symbols
    have hr : Yields s (do a.add (← b.add c)) (a.value + (b.value + c.value)) :=
      (yields_add hb.symbols hc.symbols).bind fun d hd hv => hv ▸ yields_add ha.symbols hd.symbols
    rw [← add_assoc] at hr
    exact hl.unique hr
  zero_add := by
    have h := yields_add (over_zero s) ha.symbols
    rw [value_zero, zero_add] at h
    exact h.unique ha.yields
  mul_comm := by
    have h := yields_mul hb.symbols ha.symbols
    rw [mul_comm] at h
    exact (yields_mul ha.symbols hb.symbols).unique h
  mul_assoc := by
    have hl : Yields s (do (← a.mul b).mul c) (a.value * b.value * c.value) :=
      (yields_mul ha.symbols hb.symbols).bind fun d hd hv => hv ▸ yields_mul hd.symbols hc.symbols
    have hr : Yields s (do a.mul (← b.mul c)) (a.value * (b.value * c.value)) :=
      (yields_mul hb.symbols hc.symbols).bind fun d hd hv => hv ▸ yields_mul ha.symbols hd.symbols
    rw [← mul_assoc] at hr
    exact hl.unique hr
  one_mul := by
    have h := yields_mul (normalIn_one s).symbols ha.symbols
    rw [value_one, one_mul] at h
    exact h.unique ha.yields
  zero_mul := by
    have h := yields_mul (over_zero s) ha.symbols
    rw [value_zero, zero_mul, ← value_zero] at h
    exact h.unique (normalIn_zero s).yields
  mul_add := by
    have hl : Yields s (do a.mul (← b.add c)) (a.value * (b.value + c.value)) :=
      (yields_add hb.symbols hc.symbols).bind fun d hd hv => hv ▸ yields_mul ha.symbols hd.symbols
    have hr : Yields s (do (← a.mul b).add (← a.mul c))
        (a.value * b.value + a.value * c.value) :=
      (yields_mul ha.symbols hb.symbols).bind fun d hd hv =>
        (yields_mul ha.symbols hc.symbols).bind fun e he hw =>
          hv ▸ hw ▸ yields_add hd.symbols he.symbols
    rw [← mul_add] at hr
    exact hl.unique hr

/-! ### Exact polynomials -/

/-- The polynomial over the natural numbers with the terms of a cost. -/
noncomputable def exact (c : Cost) : ℕ[X] :=
  (c.descending.map fun x => monomial x.1.val x.2.val).sum

/-- The coefficient of an exponent once all exponents are cut off at the largest one: the
coefficients that meet there are added. -/
def clampedCoeff (p : ℕ[X]) (e : Exponent) : ℕ :=
  p.sum fun k n => if Saturating.ofNat _ k = e then n else 0

/-- Cutting off all exponents and coefficients. -/
noncomputable def saturate : ℕ[X] →+* SaturatedPoly :=
  eval₂RingHom (Nat.castRingHom SaturatedPoly) (.single 1 1)

theorem saturate_monomial (k n : ℕ) :
    saturate (monomial k n) = .single (.ofNat _ k) (.ofNat _ n) := by
  have hk : k • (1 : Exponent) = .ofNat _ k := by
    rw [nsmul_one]
    rfl
  show eval₂ (Nat.castRingHom SaturatedPoly) (.single 1 1) (monomial k n) = _
  rw [eval₂_monomial, AddMonoidAlgebra.single_pow, one_pow, hk, Nat.coe_castRingHom,
    AddMonoidAlgebra.natCast_def, AddMonoidAlgebra.single_mul_single, zero_add, mul_one]
  rfl

theorem clampedCoeff_add (p q : ℕ[X]) (e : Exponent) :
    clampedCoeff (p + q) e = clampedCoeff p e + clampedCoeff q e := by
  refine sum_add_index p q _ (fun k => ite_self 0) fun k m n => ?_
  split
  · rfl
  · rfl

theorem clampedCoeff_monomial (k n : ℕ) (e : Exponent) :
    clampedCoeff (monomial k n) e = if Saturating.ofNat _ k = e then n else 0 :=
  sum_monomial_index n _ (ite_self 0)

theorem coeff_saturate (p : ℕ[X]) (e : Exponent) :
    (saturate p).coeff e = .ofNat _ (clampedCoeff p e) := by
  induction p using Polynomial.induction_on' with
  | add p q hp hq =>
    rw [map_add, AddMonoidAlgebra.coeff_add, Finsupp.add_apply, hp, hq, clampedCoeff_add,
      Saturating.ofNat_add]
  | monomial k n =>
    rw [saturate_monomial, AddMonoidAlgebra.coeff_single, Finsupp.single_apply,
      clampedCoeff_monomial]
    split
    · rfl
    · rfl

theorem saturate_exact (c : Cost) : saturate c.exact = c.value := by
  rw [exact, map_list_sum, List.map_map, value, Terms.poly]
  refine congrArg List.sum (List.map_congr_left fun x _ => ?_)
  show saturate (monomial x.1.val x.2.val) = .single x.1 x.2
  rw [saturate_monomial, Saturating.ofNat_val, Saturating.ofNat_val]

/-- The computation gives the cost in normal form that an exact polynomial becomes when exponents
and then coefficients are cut off. -/
def Clamps (s : String) (r : Except Error Cost) (p : ℕ[X]) : Prop :=
  ∃ c, r = .ok c ∧ c.NormalIn s ∧ ∀ e, c.coefficient e = .ofNat _ (clampedCoeff p e)

theorem Yields.clamps {r : Except Error Cost} {p : ℕ[X]} (h : Yields s r (saturate p)) :
    Clamps s r p := by
  obtain ⟨c, rfl, hc, hv⟩ := h
  refine ⟨c, rfl, hc, fun e => ?_⟩
  rw [← coeff_value, hv, coeff_saturate]

/-- **Sums are exact sums, cut off at the end.** -/
theorem clamps_add (ha : a.Over s) (hb : b.Over s) : Clamps s (a.add b) (a.exact + b.exact) := by
  have h := yields_add ha hb
  rw [← saturate_exact, ← saturate_exact, ← map_add] at h
  exact h.clamps

/-- **Products are exact products, cut off at the end.** -/
theorem clamps_mul (ha : a.Over s) (hb : b.Over s) : Clamps s (a.mul b) (a.exact * b.exact) := by
  have h := yields_mul ha hb
  rw [← saturate_exact, ← saturate_exact, ← map_mul] at h
  exact h.clamps

end Cost

end TensorNet
