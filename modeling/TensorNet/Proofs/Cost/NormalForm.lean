import Mathlib.Data.List.GetD
import TensorNet.Proofs.Cost.Semiring

/-!
# Normal forms of costs

A document may hold a polynomial with zero terms, or one that is a number. Its normal form has the
same coefficients. A product is determined by the coefficients of its factors, so a factor may be
replaced by its normal form; and as a product of costs starts from the number one, even a product
of a single cost is normal. So the cost of a join is the same for label costs and for their normal
forms.
-/

namespace TensorNet

open scoped Saturating

namespace Cost

variable {s : String} {a b : Cost}

/-- The normal form: no zero terms, and a number where no variable is left. -/
def normalForm : Cost → Cost
  | integer n => integer n
  | polynomial p => normal p.symbol p.terms

theorem reduced_normalForm (c : Cost) : c.normalForm.Reduced := by
  cases c with
  | integer n => trivial
  | polynomial p => exact reduced_normal p.symbol p.terms

theorem Over.normalForm {c : Cost} (h : c.Over s) : c.normalForm.Over s := by
  cases c with
  | integer n => exact h
  | polynomial p =>
    obtain rfl : p.symbol = s := h _ rfl
    exact over_normal p.symbol p.terms

theorem normalIn_normalForm {c : Cost} (h : c.Over s) : c.normalForm.NormalIn s :=
  ⟨h.normalForm, reduced_normalForm c⟩

@[simp] theorem coefficient_normalForm (c : Cost) (e : Exponent) :
    c.normalForm.coefficient e = c.coefficient e := by
  cases c with
  | integer n => rfl
  | polynomial p => exact coefficient_normal p.symbol p.terms e

theorem over_symbol (p : Poly) : (polynomial p).Over p.symbol :=
  fun _ hx => (Option.mem_some.1 hx).symm

/-- A cost is its own normal form exactly when it has no zero terms and, as a polynomial, positive
degree. -/
theorem normalForm_eq_self_iff {c : Cost} : c.normalForm = c ↔ c.Reduced := by
  constructor
  · intro h
    rw [← h]
    exact reduced_normalForm c
  · intro h
    cases c with
    | integer n => rfl
    | polynomial p =>
      have hp := over_symbol p
      exact eq_of_coefficient_eq hp.normalForm hp (reduced_normalForm _) h
        (coefficient_normalForm _)

@[simp] theorem value_normalForm (c : Cost) : c.normalForm.value = c.value := by
  refine AddMonoidAlgebra.ext (Finsupp.ext fun e => ?_)
  rw [coeff_value, coeff_value, coefficient_normalForm]

/-- **A factor may be replaced by its normal form.** -/
theorem mul_normalForm (ha : a.Over s) (hb : b.Over s) : a.mul b.normalForm = a.mul b := by
  have h := yields_mul ha hb.normalForm
  rw [value_normalForm] at h
  exact h.unique (yields_mul ha hb)

theorem product_normalForm {cs : List Cost} (h : ∀ c ∈ cs, c.Over s) :
    product (cs.map normalForm) = product cs := by
  have fold : ∀ (cs : List Cost) (d : Cost), (∀ c ∈ cs, c.Over s) → d.Over s →
      (cs.map normalForm).foldlM mul d = cs.foldlM mul d := by
    intro cs
    induction cs with
    | nil =>
      intro d _ _
      rfl
    | cons c cs ih =>
      intro d hcs hd
      have hc := hcs c List.mem_cons_self
      obtain ⟨d', hd', ho, -⟩ := mul_of_over hd hc
      rw [List.map_cons, List.foldlM_cons, List.foldlM_cons, mul_normalForm hd hc, hd', ok_bind,
        ok_bind]
      exact ih d' (fun c hc => hcs c (List.mem_cons_of_mem _ hc)) ho
  exact fold cs 1 h (over_integer s 1)

/-- A sum of normal costs is normal. -/
theorem normalIn_of_sum {cs : List Cost} (h : ∀ c ∈ cs, c.NormalIn s) {x : Cost}
    (hx : cs.foldlM add 0 = .ok x) : x.NormalIn s := by
  refine foldlM_inv (fun c => c.NormalIn s) ?_ (normalIn_zero s) hx
  intro c a c' ha hc hadd
  obtain ⟨d, hd, ho, hr, -⟩ := add_of_over hc.symbols (h a ha).symbols
  obtain rfl := Except.ok.inj (hadd.symm.trans hd)
  exact ⟨ho, hr⟩

end Cost

/-- **The cost of a join is the same for the normal forms** of the costs of the labels. -/
theorem joinCost_normalForm {s : String} {costs : List Cost} (h : ∀ c ∈ costs, c.Over s)
    (a b : LabelSet) : joinCost (costs.map Cost.normalForm) a b = joinCost costs a b := by
  have hget : ∀ id, (costs.map Cost.normalForm).getD id default =
      (costs.getD id default).normalForm := fun id => List.getD_map costs default Cost.normalForm
  have hover : ∀ c ∈ (a.union b).toList.map fun id => costs.getD id default, c.Over s := by
    intro c hc
    obtain ⟨id, -, rfl⟩ := List.mem_map.1 hc
    rw [List.getD_eq_getElem?_getD]
    cases hid : costs[id]? with
    | none => exact Cost.over_integer s _
    | some c => exact h c (List.mem_of_getElem? hid)
  rw [joinCost, joinCost, ← Cost.product_normalForm hover, List.map_map]
  simp only [hget]
  rfl

namespace CostModel

/-- The model with every cost in normal form. -/
def normalized (m : CostModel) : CostModel where
  costs := m.costs.map fun x => (x.1, x.2.normalForm)
  rest := m.rest.normalForm

theorem costOf_normalized (m : CostModel) (l : Label) :
    m.normalized.costOf l = (m.costOf l).normalForm := by
  have hlookup : ∀ costs : List (Label × Cost),
      (costs.map fun x => (x.1, x.2.normalForm)).lookup l =
        (costs.lookup l).map Cost.normalForm := by
    intro costs
    induction costs with
    | nil => rfl
    | cons x costs ih =>
      rw [List.map_cons, List.lookup_cons, List.lookup_cons, ih]
      split
      · rfl
      · rfl
  rw [costOf, costOf, normalized, hlookup]
  cases m.costs.lookup l with
  | none => rfl
  | some c => rfl

theorem resolve_normalized (m : CostModel) (net : Network) :
    m.normalized.resolve net = (m.resolve net).map Cost.normalForm := by
  rw [resolve, resolve, List.map_map]
  exact List.map_congr_left fun l _ => costOf_normalized m l

end CostModel

end TensorNet
