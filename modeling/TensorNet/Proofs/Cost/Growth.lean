import Mathlib.Order.Lattice
import TensorNet.Proofs.Cost.Semiring

/-!
# Growth of costs

A cost in one variable is a function of this variable, and costs are compared by how these functions
grow: a cost is the smaller one when its values are smaller at all large numbers.

What is large does not depend on the costs. At every number from `Terms.base` on the coefficients of
a cost are the digits of its value, so there the comparison of two costs is that of their values
(`cmp_eq_compare_eval`). The comparison at `Terms.base` itself, which is that of the ranks, makes
the costs in one variable a linear order. Ranks add up in exact sums, so adding a cost to both sides
does not change the order.
-/

namespace TensorNet.Cost

variable {s : String} {a b c : Cost}

/-- The costs in normal form that use no variable but the given one. -/
abbrev NormalCost (s : String) := {c : Cost // c.NormalIn s}

/-- No coefficient of the sum goes beyond the limit. -/
def AddsExactly (a c : Cost) : Prop :=
  ∀ e, (a.coefficient e).val + (c.coefficient e).val < Terms.base

/-- **What it says about two costs** to compare them. -/
structure ByGrowth (s : String) (a b : Cost) : Prop where
  exists_cmp : ∃ o, a.cmp b = .ok o
  /-- The smaller cost has the smaller value at every number that is large enough. -/
  less : a.cmp b = .ok .lt ↔ ∃ n, ∀ x ≥ n, a.eval x < b.eval x
  equal : a.cmp b = .ok .eq ↔ a = b
  /-- Costs with the same values are the same. -/
  values : a = b ↔ ∀ x, a.eval x = b.eval x
  /-- A cost that is added to both sides does not matter. -/
  sums : ∀ c, c.NormalIn s → a.AddsExactly c → b.AddsExactly c →
    ∃ d e, a.add c = .ok d ∧ b.add c = .ok e ∧ d.cmp e = a.cmp b

/-! ### Comparing values -/

theorem NormalIn.cmp_eq (ha : a.NormalIn s) (hb : b.NormalIn s) {n : Nat} (hn : Terms.base ≤ n) :
    a.cmp b = .ok (compare (a.eval n) (b.eval n)) :=
  cmp_eq_compare_eval ha.symbols hb.symbols ha.reduced hb.reduced hn

/-- **The smaller cost is the one that grows slower.** -/
theorem NormalIn.cmp_eq_lt (ha : a.NormalIn s) (hb : b.NormalIn s) :
    a.cmp b = .ok .lt ↔ ∃ n, ∀ x ≥ n, a.eval x < b.eval x := by
  constructor
  · intro h
    refine ⟨Terms.base, fun x hx => ?_⟩
    rw [ha.cmp_eq hb hx, Except.ok.injEq] at h
    exact Nat.compare_eq_lt.1 h
  · rintro ⟨n, hn⟩
    -- any number does that is large for both
    have hx := hn (max n Terms.base) (Nat.le_max_left _ _)
    rw [ha.cmp_eq hb (Nat.le_max_right n _), Except.ok.injEq]
    exact Nat.compare_eq_lt.2 hx

theorem NormalIn.eq_of_rank_eq (ha : a.NormalIn s) (hb : b.NormalIn s) (h : a.rank = b.rank) :
    a = b :=
  Cost.eq_of_rank_eq ha.symbols hb.symbols ha.reduced hb.reduced h

theorem NormalIn.cmp_eq_eq (ha : a.NormalIn s) (hb : b.NormalIn s) :
    a.cmp b = .ok .eq ↔ a = b := by
  rw [ha.cmp_eq hb (Nat.le_refl _), Except.ok.injEq, Nat.compare_eq_eq]
  constructor
  · intro h
    exact ha.eq_of_rank_eq hb h
  · rintro rfl
    rfl

/-- One value, at `Terms.base`, tells two costs apart. -/
theorem NormalIn.eq_iff_eval (ha : a.NormalIn s) (hb : b.NormalIn s) :
    a = b ↔ ∀ x, a.eval x = b.eval x := by
  constructor
  · rintro rfl x
    rfl
  · intro h
    exact ha.eq_of_rank_eq hb (h Terms.base)

/-! ### Numbers and polynomials -/

/-- The value of a polynomial in normal form is at least the number that is put for its variable. -/
theorem le_eval_polynomial {p : Poly} (hp : (polynomial p).Reduced) {n : Nat} (hn : 0 < n) :
    n ≤ (polynomial p).eval n := by
  have hdigits := hp.digits
  obtain ⟨-, x, hx, hne⟩ := hp
  have hx' : x ∈ (polynomial p).descending := List.mem_reverse.2 hx
  rw [eval]
  cases hd : (polynomial p).descending with
  | nil => simp [hd] at hx'
  | cons y ys =>
    rw [hd] at hx' hdigits
    -- the first term has the largest exponent, and some exponent is positive
    have hy : 1 ≤ y.1.val := by
      have hpos : x.1.val ≠ 0 := fun h0 => hne (Saturating.ext h0)
      rcases List.mem_cons.1 hx' with rfl | hx'
      · omega
      · have hlt : x.1.val < y.1.val := (List.pairwise_cons.1 hdigits.descending).1 x hx'
        omega
    calc n = n ^ 1 := (Nat.pow_one n).symm
      _ ≤ n ^ y.1.val := Nat.pow_le_pow_right hn hy
      _ ≤ Terms.eval n (y :: ys) := hdigits.le_eval

/-- **Every number is smaller than every polynomial.** -/
theorem cmp_integer_polynomial {m : Coefficient} {p : Poly} (hp : (polynomial p).NormalIn s) :
    (integer m).cmp (polynomial p) = .ok .lt := by
  have hm : m.val < Terms.base := Terms.val_lt_base m
  have hp' := le_eval_polynomial hp.reduced Terms.base_pos
  rw [(normalIn_integer s m).cmp_eq hp (Nat.le_refl _), eval_integer, Nat.compare_eq_lt.2 (by omega)]

/-! ### Sums -/

theorem total_le_sum (ts : List (Exponent × Coefficient)) (e : Exponent) :
    Terms.total ts e ≤ (ts.map fun x => x.2.val).sum := by
  induction ts with
  | nil => simp
  | cons x ts ih =>
    rw [Terms.total_cons, List.map_cons, List.sum_cons]
    split
    · omega
    · omega

/-- A sum is exact when all coefficients together do not go beyond the limit. -/
theorem addsExactly_of_sum (h : (a.descending.map fun x => x.2.val).sum +
    (c.descending.map fun x => x.2.val).sum < Terms.base) : a.AddsExactly c := by
  intro e
  have h1 := total_le_sum a.descending e
  have h2 := total_le_sum c.descending e
  rw [total_descending] at h1 h2
  omega

theorem NormalIn.exists_add (ha : a.NormalIn s) (hc : c.NormalIn s) (h : a.AddsExactly c) :
    ∃ d, a.add c = .ok d ∧ d.NormalIn s ∧ d.rank = a.rank + c.rank := by
  obtain ⟨d, hd, ho, hr, he⟩ := add_of_over ha.symbols hc.symbols
  refine ⟨d, hd, ⟨ho, hr⟩, rank_add_of_exact fun e => ?_⟩
  rw [he, Saturating.val_add]
  exact Nat.min_eq_left (Nat.le_of_lt_succ (h e))

/-- **Exact sums with a third cost** compare as the costs do. -/
theorem NormalIn.cmp_add (ha : a.NormalIn s) (hb : b.NormalIn s) (hc : c.NormalIn s)
    (hac : a.AddsExactly c) (hbc : b.AddsExactly c) :
    ∃ d e, a.add c = .ok d ∧ b.add c = .ok e ∧ d.cmp e = a.cmp b := by
  obtain ⟨d, hd, hdn, hdr⟩ := ha.exists_add hc hac
  obtain ⟨e, he, hen, her⟩ := hb.exists_add hc hbc
  refine ⟨d, e, hd, he, ?_⟩
  rw [hdn.cmp_eq hen (Nat.le_refl _), ha.cmp_eq hb (Nat.le_refl _)]
  show Except.ok (compare d.rank e.rank) = .ok (compare a.rank b.rank)
  simp only [hdr, her, Nat.compare_eq_ite_lt, Nat.add_lt_add_iff_right]

/-! ### The order -/

theorem rank_injective (s : String) :
    Function.Injective fun c : NormalCost s => c.val.rank :=
  fun a b h => Subtype.ext (a.property.eq_of_rank_eq b.property h)

/-- **Comparing costs in one variable is comparing in a linear order**, that of their growth, with
the numbers below all polynomials. -/
theorem ordered_by_growth (s : String) :
    (∃ _ : LinearOrder (NormalCost s), ∀ a b : NormalCost s,
      a.val.cmp b.val = .ok (compare a b)) ∧
    (∀ a b : Cost, a.NormalIn s → b.NormalIn s → ByGrowth s a b) ∧
    (∀ m n : Coefficient, (integer m).cmp (integer n) = .ok (compare m.val n.val)) ∧
    ∀ (m : Coefficient) (p : Poly), (polynomial p).NormalIn s →
      (integer m).cmp (polynomial p) = .ok .lt := by
  refine ⟨⟨LinearOrder.lift' _ (rank_injective s), fun a b => ?_⟩, fun a b ha hb => ?_,
    fun m n => rfl, fun m p hp => cmp_integer_polynomial hp⟩
  · exact a.property.cmp_eq b.property (Nat.le_refl _)
  · exact {
      exists_cmp := ⟨_, ha.cmp_eq hb (Nat.le_refl _)⟩
      less := ha.cmp_eq_lt hb
      equal := ha.cmp_eq_eq hb
      values := ha.eq_iff_eval hb
      sums := fun c hc hac hbc => ha.cmp_add hb hc hac hbc }

/-- Two polynomials of one degree and one leading coefficient, of which the second goes on with a
higher exponent, and the variable added to both. -/
theorem ordered_by_growth_tied :
    (ofTerms "χ" [(2, 3), (0, 1)]).NormalIn "χ" ∧ (ofTerms "χ" [(2, 3), (1, 1)]).NormalIn "χ" ∧
    (∃ n, ∀ x ≥ n, (ofTerms "χ" [(2, 3), (0, 1)]).eval x < (ofTerms "χ" [(2, 3), (1, 1)]).eval x) ∧
    ∃ d e, (ofTerms "χ" [(2, 3), (0, 1)]).add (var "χ") = .ok d ∧
      (ofTerms "χ" [(2, 3), (1, 1)]).add (var "χ") = .ok e ∧ d.cmp e = .ok .lt := by
  have hcmp : (ofTerms "χ" [(2, 3), (0, 1)]).cmp (ofTerms "χ" [(2, 3), (1, 1)]) = .ok .lt := by
    decide
  have ha : (ofTerms "χ" [(2, 3), (0, 1)]).NormalIn "χ" := normalIn_normal _ _
  have hb : (ofTerms "χ" [(2, 3), (1, 1)]).NormalIn "χ" := normalIn_normal _ _
  have hc : (var "χ").NormalIn "χ" := normalIn_normal "χ" (.ofSum [(1, 1)])
  have h := (ordered_by_growth "χ").2.1 _ _ ha hb
  exact ⟨ha, hb, h.less.1 hcmp,
    hcmp ▸ h.sums _ hc (addsExactly_of_sum (by decide)) (addsExactly_of_sum (by decide))⟩

end TensorNet.Cost
