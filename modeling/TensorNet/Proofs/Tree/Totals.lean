import Mathlib.Data.Multiset.Fold
import TensorNet.Proofs.Cost.Semiring
import TensorNet.Proofs.Tree.WellFormed

/-!
# Totals

The cost of a join is a product over labels, and the cost of a tree is a sum over its joins. Both
are computed in some order, and where they pass a limit they are cut off on the way. By the laws of
the semiring of costs neither the order nor the grouping matters.

A `Grouping` puts costs together two at a time. The sums and products of the library are groupings
from the left, so a statement about all groupings of the same costs is one about all orders in
which a total can be computed.
-/

namespace TensorNet

open scoped Saturating

namespace Cost

/-- Costs that are put together two at a time. -/
inductive Grouping
  | none
  | one (c : Cost)
  | both (l r : Grouping)

namespace Grouping

/-- The costs, from left to right. -/
def parts : Grouping → List Cost
  | none => []
  | one c => [c]
  | both l r => l.parts ++ r.parts

/-- The outcome of an operation with a neutral cost. -/
def combine (op : Cost → Cost → Except Error Cost) (unit : Cost) : Grouping → Except Error Cost
  | none => .ok unit
  | one c => .ok c
  | both l r => do op (← l.combine op unit) (← r.combine op unit)

/-- The grouping from the left. -/
def ofList (cs : List Cost) : Grouping := cs.foldl (fun g c => both g (one c)) none

theorem parts_ofList (cs : List Cost) : (ofList cs).parts = cs := by
  have fold : ∀ (cs : List Cost) (g : Grouping),
      (cs.foldl (fun g c => both g (one c)) g).parts = g.parts ++ cs := by
    intro cs
    induction cs with
    | nil =>
      intro g
      exact (List.append_nil _).symm
    | cons c cs ih =>
      intro g
      rw [List.foldl_cons, ih, parts, parts, List.append_assoc]
      rfl
  exact fold cs none

theorem combine_ofList (op : Cost → Cost → Except Error Cost) (unit : Cost) (cs : List Cost) :
    (ofList cs).combine op unit = cs.foldlM op unit := by
  have fold : ∀ (cs : List Cost) (g : Grouping),
      (cs.foldl (fun g c => both g (one c)) g).combine op unit =
        (do cs.foldlM op (← g.combine op unit)) := by
    intro cs
    induction cs with
    | nil =>
      intro g
      exact (bind_pure _).symm
    | cons c cs ih =>
      intro g
      rw [List.foldl_cons, ih, combine, bind_assoc]
      rfl
  exact fold cs none

section

/-! An operation on costs that is commutative and associative on what the costs stand for. -/

variable {s : String} {op : Cost → Cost → Except Error Cost} {unit : Cost}
  {f : SaturatedPoly → SaturatedPoly → SaturatedPoly} [Std.Commutative f] [Std.Associative f]
  (hop : ∀ {a b : Cost}, a.Over s → b.Over s → Yields s (op a b) (f a.value b.value))
  (hunit : unit.NormalIn s) (hleft : ∀ v, f unit.value v = v)
include hop hunit hleft

/-- **A grouping stands for the outcome over all its parts.** -/
theorem yields_combine {g : Grouping} (hg : ∀ c ∈ g.parts, c.NormalIn s) :
    Yields s (g.combine op unit)
      ((g.parts.map value : Multiset SaturatedPoly).fold f unit.value) := by
  induction g with
  | none => exact hunit.yields
  | one c =>
    have hright : f c.value unit.value = c.value :=
      (Std.Commutative.comm c.value unit.value).trans (hleft c.value)
    rw [parts, List.map_singleton, Multiset.coe_singleton, Multiset.fold_singleton, hright]
    exact (hg c (List.mem_singleton_self c)).yields
  | both l r ihl ihr =>
    have hl := ihl fun c hc => hg c (List.mem_append_left _ hc)
    have hr := ihr fun c hc => hg c (List.mem_append_right _ hc)
    have hsplit := Multiset.fold_add f unit.value unit.value (l.parts.map value : Multiset _)
      (r.parts.map value)
    rw [hleft, Multiset.coe_add, ← List.map_append] at hsplit
    rw [parts, hsplit]
    exact hl.bind fun x hx hv => hr.bind fun y hy hw => hv ▸ hw ▸ hop hx.symbols hy.symbols

/-- **All groupings of the same costs have one outcome**, that of the grouping from the left. -/
theorem exists_combine {cs : List Cost} (hcs : ∀ c ∈ cs, c.NormalIn s) :
    ∃ x, cs.foldlM op unit = .ok x ∧
      ∀ g : Grouping, g.parts.Perm cs → g.combine op unit = .ok x := by
  have hlist : ∀ c ∈ (ofList cs).parts, c.NormalIn s := by rwa [parts_ofList]
  have h := yields_combine hop hunit hleft hlist
  rw [combine_ofList, parts_ofList] at h
  have ⟨x, hx, _⟩ := h
  refine ⟨x, hx, fun g hg => ?_⟩
  have hv := yields_combine hop hunit hleft fun c hc => hcs c (hg.mem_iff.1 hc)
  rw [Multiset.coe_eq_coe.2 (hg.map value)] at hv
  rw [hv.unique h, hx]

end

theorem exists_sum {s : String} {cs : List Cost} (hcs : ∀ c ∈ cs, c.NormalIn s) :
    ∃ x, cs.foldlM add 0 = .ok x ∧ ∀ g : Grouping, g.parts.Perm cs → g.combine add 0 = .ok x := by
  refine exists_combine (f := fun v w => v + w) yields_add (normalIn_zero s) (fun v => ?_) hcs
  rw [value_zero, zero_add]

theorem exists_product {s : String} {cs : List Cost} (hcs : ∀ c ∈ cs, c.NormalIn s) :
    ∃ x, product cs = .ok x ∧ ∀ g : Grouping, g.parts.Perm cs → g.combine mul 1 = .ok x := by
  refine exists_combine (f := fun v w => v * w) yields_mul (normalIn_one s) (fun v => ?_) hcs
  rw [value_one, one_mul]

end Grouping

/-- The costs of the labels that are open in one of two sets or in both. -/
def ofLabels (costs : List Cost) (x y : LabelSet) : List Cost :=
  (x.union y).toList.map fun id => costs.getD id default

/-- **Totals do not depend on the order in which costs are combined.** -/
structure OrderFree (s : String) : Prop where
  sums : ∀ cs : List Cost, (∀ c ∈ cs, c.NormalIn s) →
    ∃ x, ∀ g : Grouping, g.parts.Perm cs → g.combine add 0 = .ok x
  products : ∀ cs : List Cost, (∀ c ∈ cs, c.NormalIn s) →
    ∃ x, ∀ g : Grouping, g.parts.Perm cs → g.combine mul 1 = .ok x
  joins : ∀ costs : List Cost, (∀ c ∈ costs, c.NormalIn s) → ∀ x y : LabelSet,
    ∃ c, joinCost costs x y = .ok c ∧
      ∀ g : Grouping, g.parts.Perm (ofLabels costs x y) → g.combine mul 1 = .ok c
  trees : ∀ factors output net model t, Network.build factors output = .ok net →
    (∀ c ∈ model.resolve net, c.NormalIn s) → ContractionTree.Chosen net model t →
      ∀ g : Grouping, g.parts.Perm (t.nodes.filterMap TreeNode.cost?) →
        g.combine add 0 = .ok t.cost

theorem normalIn_ofLabels {s : String} {costs : List Cost} (h : ∀ c ∈ costs, c.NormalIn s)
    (x y : LabelSet) : ∀ c ∈ ofLabels costs x y, c.NormalIn s := by
  intro c hc
  obtain ⟨id, -, rfl⟩ := List.mem_map.1 hc
  rw [List.getD_eq_getElem?_getD]
  cases hid : costs[id]? with
  | none => exact normalIn_integer s _
  | some c => exact h c (List.mem_of_getElem? hid)

theorem normalIn_of_join {s : String} {net : Network} {costs : List Cost}
    (hcosts : ∀ c ∈ costs, c.NormalIn s) {t : ContractionTree} (ht : t.Proper net costs) {c : Cost}
    (hc : ∃ v ∈ t.nodes, v.cost? = some c) : c.NormalIn s := by
  obtain ⟨v, hv, hc⟩ := hc
  have hbuilt := ht.built.of_mem_postorder ((List.mergeSort_perm _ _).mem_iff.1 hv)
  cases hbuilt with
  | leaf hf => cases hc
  | join hl hr hj =>
    obtain ⟨d, hd, ho, hr⟩ := exists_joinCost (fun c hc => (hcosts c hc).symbols) _ _
    rw [hj] at hd
    cases hd
    cases hc
    exact ⟨ho, hr⟩

/-- The orders in which the library computes totals are groupings like all others. -/
theorem orderFree (s : String) : OrderFree s where
  sums := fun cs hcs =>
    have ⟨x, _, hx⟩ := Grouping.exists_sum hcs
    ⟨x, hx⟩
  products := fun cs hcs =>
    have ⟨x, _, hx⟩ := Grouping.exists_product hcs
    ⟨x, hx⟩
  joins := fun costs hcosts x y => Grouping.exists_product (normalIn_ofLabels hcosts x y)
  trees := by
    intro factors output net model t hnet hcosts ht g hg
    have hlaw := (Network.lawful_of_build hnet).1
    have htotal := ((ht.grown hlaw).wellFormed (ht.proper hlaw) hlaw).total
    obtain ⟨x, hx, hgroup⟩ := Grouping.exists_sum fun c hc => normalIn_of_join hcosts
      (ht.proper hlaw) (List.mem_filterMap.1 hc)
    rw [hgroup g hg, ← hx, htotal]

/-- **Saturating costs in one variable are a commutative semiring**, and an image of the exact
polynomials: sums and products always exist, obey the laws, and are what the exact ones become when
they are cut off at the end. So totals do not depend on the order in which costs are combined. -/
theorem semiring_of_normalIn {s : String} {a b c : Cost} (ha : a.NormalIn s) (hb : b.NormalIn s)
    (hc : c.NormalIn s) :
    Clamps s (a.add b) (a.exact + b.exact) ∧ Clamps s (a.mul b) (a.exact * b.exact) ∧
      SemiringLaws a b c ∧ OrderFree s :=
  ⟨clamps_add ha.symbols hb.symbols, clamps_mul ha.symbols hb.symbols, ha.semiringLaws hb hc,
    orderFree s⟩

/-- Exponents and coefficients that meet at their limits. -/
theorem semiring_of_normalIn_saturated :
    ∃ a b c : Cost, a.NormalIn "χ" ∧ b.NormalIn "χ" ∧ c.NormalIn "χ" ∧
      a = ofTerms "χ" [(.ofNat _ (2 ^ 32 - 1), .ofNat _ (2 ^ 127)), (0, 3)] ∧
      a.mul b =
        .ok (ofTerms "χ" [(.ofNat _ (2 ^ 32 - 1), .ofNat _ (2 ^ 128 - 1)), (1, 6), (0, 15)]) ∧
      b.mul c = .ok (ofTerms "χ" [(1, .ofNat _ (2 ^ 128 - 1)), (0, .ofNat _ (2 ^ 128 - 1))]) ∧
      Clamps "χ" (a.mul b) (a.exact * b.exact) ∧ SemiringLaws a b c ∧ OrderFree "χ" := by
  have ha : (ofTerms "χ" [(.ofNat _ (2 ^ 32 - 1), .ofNat _ (2 ^ 127)), (0, 3)]).NormalIn "χ" :=
    normalIn_normal _ _
  have hb : (ofTerms "χ" [(1, 2), (0, 5)]).NormalIn "χ" := normalIn_normal _ _
  have hc : (integer (.ofNat _ (2 ^ 127))).NormalIn "χ" := normalIn_integer _ _
  obtain ⟨-, h⟩ := semiring_of_normalIn ha hb hc
  exact ⟨_, _, _, ha, hb, hc, rfl, by decide, by decide, h⟩

end Cost

end TensorNet
