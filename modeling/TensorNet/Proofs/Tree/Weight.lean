import TensorNet.Proofs.Cost.Rank
import TensorNet.Proofs.Tree.Shape

/-!
# Weights of trees

The weight of a tree is the sum of the ranks of the costs of its joins, a natural number without
any limit. The cost of a tree need not have this rank, since sums of costs saturate. There are two
cases in which it does not matter.

* All costs of labels are numbers. Then the cost of a tree is its weight, cut off at the largest
  number.
* The costs are numbers and polynomials in one variable, and no coefficient of the sum of the costs
  of a tree passes the limit. Then the rank of the cost of a tree is its weight.

`Gauge` says what both cases have in common: the rank of every sum is a monotone function of the
weight.
-/

namespace TensorNet

namespace Shape

variable (net : Network) (costs : List Cost)

/-- The cost of the last join of a tree, zero where it has none. -/
def step : Shape → Cost
  | leaf _ => 0
  | join l r =>
    match joinCost costs (net.openIn l.factors) (net.openIn r.factors) with
    | .ok c => c
    | .error _ => 0

/-- The exact sum over the joins of a tree of the coefficients of their costs. -/
def exact (e : Exponent) : Shape → Nat
  | leaf _ => 0
  | join l r => l.exact e + r.exact e + ((join l r).step net costs |>.coefficient e).val

/-- The sum over the joins of a tree of the ranks of their costs. -/
def weight : Shape → Nat
  | leaf _ => 0
  | join l r => l.weight + r.weight + ((join l r).step net costs).rank

end Shape

/-- **The costs of a network's labels can be compared**: they are numbers, or they are numbers and
polynomials in one variable and no coefficient of the cost of any tree saturates. -/
def Comparable (net : Network) (costs : List Cost) : Prop :=
  (∀ c ∈ costs, c.symbol? = none) ∨
    ∃ s, (∀ c ∈ costs, c.Over s) ∧ ∀ u : Shape, u.factors.Perm (List.range net.numFactors) →
      ∀ e, u.exact net costs e ≤ 0xFFFFFFFFFFFFFFFFFFFFFFFFFFFFFFFF

/-! ### Trees over some of the factors -/

/-- The leaves are different factors below `n`. -/
structure Shape.Within (n : Nat) (u : Shape) : Prop where
  nodup : u.factors.Nodup
  lt : ∀ f ∈ u.factors, f < n

namespace Shape

variable {net : Network} {costs : List Cost} {n : Nat} {l r u v : Shape}

theorem within_of_perm (h : u.factors.Perm (List.range n)) : u.Within n :=
  ⟨h.nodup_iff.2 List.nodup_range, fun _ hf => List.mem_range.1 (h.mem_iff.1 hf)⟩

theorem perm_of_within (h : u.Within n) (hall : ∀ f, f ∈ u.factors ↔ f < n) :
    u.factors.Perm (List.range n) :=
  (List.perm_ext_iff_of_nodup h.nodup List.nodup_range).2 fun f => by
    rw [hall, List.mem_range]

theorem within_leaf {f : Nat} (hf : f < n) : (leaf f).Within n :=
  ⟨List.nodup_singleton f, fun g hg => by rwa [List.mem_singleton.1 hg]⟩

theorem within_join (hl : l.Within n) (hr : r.Within n) (hd : ∀ f ∈ l.factors, f ∉ r.factors) :
    (join l r).Within n := by
  refine ⟨List.nodup_append.2 ⟨hl.nodup, hr.nodup, fun f hf g hg he => ?_⟩, fun f hf => ?_⟩
  · exact hd f hf (he ▸ hg)
  · rcases List.mem_append.1 hf with hf | hf
    · exact hl.lt f hf
    · exact hr.lt f hf

theorem Within.left (h : (join l r).Within n) : l.Within n :=
  ⟨(List.nodup_append.1 h.nodup).1, fun f hf => h.lt f (List.mem_append_left _ hf)⟩

theorem Within.right (h : (join l r).Within n) : r.Within n :=
  ⟨(List.nodup_append.1 h.nodup).2.1, fun f hf => h.lt f (List.mem_append_right _ hf)⟩

theorem Within.disjoint (h : (join l r).Within n) : ∀ f ∈ l.factors, f ∉ r.factors :=
  TreeNode.disjoint_of_nodup h.nodup

variable (net costs) in
/-- A tree over some of the factors is a part of a tree over all of them. -/
theorem Within.exists_extension (hu : u.Within n) :
    ∃ v : Shape, v.factors.Perm (List.range n) ∧
      ∀ e, u.exact net costs e ≤ v.exact net costs e := by
  have grow : ∀ (rest : List Nat) (u : Shape),
      (rest.foldl (fun u f => join u (leaf f)) u).factors = u.factors ++ rest ∧
      ∀ e, u.exact net costs e ≤ (rest.foldl (fun u f => join u (leaf f)) u).exact net costs e := by
    intro rest
    induction rest with
    | nil =>
      intro u
      exact ⟨(List.append_nil _).symm, fun e => Nat.le_refl _⟩
    | cons f rest ih =>
      intro u
      obtain ⟨hf, he⟩ := ih (join u (leaf f))
      refine ⟨?_, fun e => Nat.le_trans ?_ (he e)⟩
      · rw [List.foldl_cons, hf, factors, factors, List.append_assoc]
        rfl
      · rw [exact]
        omega
  obtain ⟨hf, he⟩ := grow ((List.range n).filter fun f => decide (f ∉ u.factors)) u
  refine ⟨_, ?_, he⟩
  rw [hf]
  refine (List.perm_ext_iff_of_nodup ?_ List.nodup_range).2 fun f => ?_
  · refine List.nodup_append.2 ⟨hu.nodup, List.nodup_range.filter _, fun f hf g hg he => ?_⟩
    have := (List.mem_filter.1 hg).2
    rw [decide_eq_true_eq, ← he] at this
    exact this hf
  · simp only [List.mem_append, List.mem_filter, List.mem_range, decide_eq_true_eq]
    constructor
    · rintro (hf | hf)
      · exact hu.lt f hf
      · exact hf.1
    · intro hf
      by_cases hm : f ∈ u.factors
      · exact .inl hm
      · exact .inr ⟨hf, hm⟩

end Shape

/-! ### Costs of joins -/

/-- What a join costs depends on the members of the open sets only. -/
theorem joinCost_congr {costs : List Cost} {a b a' b' : LabelSet}
    (h : ∀ i, (a.contains i || b.contains i) = (a'.contains i || b'.contains i)) :
    joinCost costs a b = joinCost costs a' b' := by
  rw [joinCost, joinCost, LabelSet.toList_congr fun i => ?_]
  rw [LabelSet.contains_union, LabelSet.contains_union, h]

section

variable {net : Network} {costs : List Cost} {s : String} (hover : ∀ c ∈ costs, c.Over s)
include hover

theorem exists_joinCost (a b : LabelSet) :
    ∃ c, joinCost costs a b = .ok c ∧ c.Over s ∧ c.Reduced := by
  refine Cost.product_of_over fun c hc => ?_
  obtain ⟨id, -, rfl⟩ := List.mem_map.1 hc
  rw [List.getD_eq_getElem?_getD]
  cases h : costs[id]? with
  | none => exact Cost.over_integer s _
  | some c => exact hover c (List.mem_of_getElem? h)

variable (net) in
theorem Shape.step_spec (l r : Shape) :
    joinCost costs (net.openIn l.factors) (net.openIn r.factors) =
        .ok ((join l r).step net costs) ∧
      ((join l r).step net costs).Over s ∧ ((join l r).step net costs).Reduced := by
  obtain ⟨c, hc, h⟩ := exists_joinCost hover (net.openIn l.factors) (net.openIn r.factors)
  rw [step, hc]
  exact ⟨rfl, h⟩

variable (net) in
/-- **Every tree has a cost**, and its coefficients are the exact ones cut off at the limit. -/
theorem Shape.cost_spec (u : Shape) :
    ∃ c, u.cost net costs = .ok c ∧ c.Over s ∧ c.Reduced ∧
      ∀ e, c.coefficient e = .ofNat _ (u.exact net costs e) := by
  induction u with
  | leaf f =>
    refine ⟨0, rfl, Cost.over_zero s, trivial, fun e => ?_⟩
    rw [Cost.coefficient_zero]
    rfl
  | join l r ihl ihr =>
    obtain ⟨a, ha, hao, -, hae⟩ := ihl
    obtain ⟨b, hb, hbo, -, hbe⟩ := ihr
    obtain ⟨p, hp, hpo, -, hpe⟩ := Cost.add_of_over hao hbo
    obtain ⟨hj, hjo, -⟩ := step_spec net hover l r
    obtain ⟨c, hc, hco, hcr, hce⟩ := Cost.add_of_over hpo hjo
    refine ⟨c, ?_, hco, hcr, fun e => ?_⟩
    · simp only [cost, ha, hb, hp, hj, ok_bind, hc]
    · rw [hce, hpe, hae, hbe, exact, Saturating.ofNat_add, Saturating.ofNat_add,
        Saturating.ofNat_val]

end

/-! ### Ranks of costs of trees -/

/-- **A gauge** turns a sum of ranks into the rank of the sum, for trees over some of the factors
and for the two sides of a join. -/
structure Gauge (net : Network) (costs : List Cost) (s : String) (cap : Nat → Nat) : Prop where
  costs_over : ∀ c ∈ costs, c.Over s
  mono : ∀ {m n}, m ≤ n → cap m ≤ cap n
  cap_add : ∀ m n, cap (m + n) = cap (cap m + n)
  rank_cost : ∀ {u : Shape} {c}, u.Within net.numFactors → u.cost net costs = .ok c →
    c.rank = cap (u.weight net costs)
  rank_parts : ∀ {l r : Shape} {a b c}, (Shape.join l r).Within net.numFactors →
    l.cost net costs = .ok a → r.cost net costs = .ok b → a.add b = .ok c →
    c.rank = cap (l.weight net costs + r.weight net costs)

/-- The order of sums is kept when both sides are replaced by smaller ones. -/
theorem Gauge.cap_le {net : Network} {costs : List Cost} {s : String} {cap : Nat → Nat}
    (g : Gauge net costs s cap) {m n m' n' : Nat} (hm : cap m' ≤ cap m) (hn : cap n' ≤ cap n)
    (k : Nat) : cap (m' + n' + k) ≤ cap (m + n + k) := by
  have h1 : ∀ a b, cap (a + b + k) = cap (cap a + cap b + k) := by
    intro a b
    calc cap (a + b + k) = cap (a + (b + k)) := by rw [Nat.add_assoc]
      _ = cap (b + (cap a + k)) := by rw [g.cap_add a, Nat.add_left_comm]
      _ = cap (cap a + cap b + k) := by rw [g.cap_add b, Nat.add_left_comm, Nat.add_assoc]
  rw [h1 m', h1 m]
  exact g.mono (by omega)

section

variable {net : Network} {costs : List Cost}

/-- Only numbers use no variable at all. -/
theorem Cost.integer_of_over {c : Cost} (h : ∀ s, c.Over s) : ∃ n, c = .integer n := by
  cases c with
  | integer n => exact ⟨n, rfl⟩
  | polynomial p =>
    have h1 : p.symbol = "" := h "" _ rfl
    have h2 : p.symbol = "x" := h "x" _ rfl
    rw [h1] at h2
    exact absurd h2 (by decide)

theorem Cost.rank_eq_of_over {c : Cost} (h : ∀ s, c.Over s) : c.rank = (c.coefficient 0).val := by
  obtain ⟨n, rfl⟩ := integer_of_over h
  rw [rank_integer, coefficient_integer, if_pos rfl]

/-- **Numbers**: the limit cuts the weight off. -/
theorem gauge_of_integers (h : ∀ c ∈ costs, c.symbol? = none) :
    Gauge net costs "" fun m => min m 0xFFFFFFFFFFFFFFFFFFFFFFFFFFFFFFFF := by
  have hover : ∀ s, ∀ c ∈ costs, c.Over s := by
    intro s c hc x hx
    rw [h c hc] at hx
    cases hx
  have hcost : ∀ {u : Shape} {c}, u.cost net costs = .ok c →
      (∀ s, c.Over s) ∧ ∀ e, c.coefficient e = .ofNat _ (u.exact net costs e) := by
    intro u c hc
    have spec : ∀ s, c.Over s ∧ ∀ e, c.coefficient e = .ofNat _ (u.exact net costs e) := by
      intro s
      obtain ⟨d, hd, ho, -, he⟩ := u.cost_spec net (hover s)
      rw [hc] at hd
      cases hd
      exact ⟨ho, he⟩
    exact ⟨fun s => (spec s).1, (spec "").2⟩
  have hweight : ∀ u : Shape, u.weight net costs = u.exact net costs 0 := by
    intro u
    induction u with
    | leaf f => rfl
    | join l r ihl ihr =>
      rw [Shape.weight, Shape.exact, ihl, ihr,
        Cost.rank_eq_of_over fun s => (Shape.step_spec net (hover s) l r).2.1]
  refine ⟨hover "", fun hmn => by omega, fun m n => by omega, fun {u c} _ hc => ?_,
    fun {l r a b c} _ ha hb hc => ?_⟩
  · obtain ⟨ho, he⟩ := hcost hc
    rw [Cost.rank_eq_of_over ho, he, hweight, Saturating.val_ofNat]
  · obtain ⟨hao, hae⟩ := hcost ha
    obtain ⟨hbo, hbe⟩ := hcost hb
    have hsum : ∀ s, c.Over s ∧ ∀ e, c.coefficient e = a.coefficient e + b.coefficient e := by
      intro s
      obtain ⟨d, hd, ho, -, he⟩ := Cost.add_of_over (hao s) (hbo s)
      rw [hc] at hd
      cases hd
      exact ⟨ho, he⟩
    rw [Cost.rank_eq_of_over fun s => (hsum s).1, (hsum "").2, hae, hbe, ← Saturating.ofNat_add,
      hweight, hweight, Saturating.val_ofNat]

/-! ### Without saturation -/

section

variable {s : String} (hover : ∀ c ∈ costs, c.Over s)
variable (hle : ∀ {u : Shape}, u.Within net.numFactors → ∀ e,
  u.exact net costs e ≤ 0xFFFFFFFFFFFFFFFFFFFFFFFFFFFFFFFF)
include hover hle

theorem Shape.cost_of_exact {u : Shape} {c : Cost} (hu : u.Within net.numFactors)
    (hc : u.cost net costs = .ok c) :
    c.Over s ∧ ∀ e, (c.coefficient e).val = u.exact net costs e := by
  obtain ⟨d, hd, ho, -, he⟩ := u.cost_spec net hover
  obtain rfl := Except.ok.inj (hc.symm.trans hd)
  refine ⟨ho, fun e => ?_⟩
  rw [he, Saturating.val_ofNat, Nat.min_eq_left (hle hu e)]

/-- The costs of the two sides of a join add up exactly. -/
theorem Shape.parts_of_exact {l r : Shape} {a b c : Cost}
    (hw : (Shape.join l r).Within net.numFactors) (ha : l.cost net costs = .ok a)
    (hb : r.cost net costs = .ok b) (hc : a.add b = .ok c) :
    c.rank = a.rank + b.rank ∧
      ∀ e, (c.coefficient e).val = l.exact net costs e + r.exact net costs e := by
  obtain ⟨hao, hae⟩ := cost_of_exact hover hle hw.left ha
  obtain ⟨hbo, hbe⟩ := cost_of_exact hover hle hw.right hb
  obtain ⟨d, hd, -, -, he⟩ := Cost.add_of_over hao hbo
  obtain rfl := Except.ok.inj (hc.symm.trans hd)
  have hce : ∀ e, (c.coefficient e).val = (a.coefficient e).val + (b.coefficient e).val := by
    intro e
    have hj := hle hw e
    rw [Shape.exact] at hj
    rw [he, Saturating.val_add, hae, hbe]
    omega
  exact ⟨Cost.rank_add_of_exact hce, fun e => by rw [hce, hae, hbe]⟩

theorem Shape.rank_of_exact {u : Shape} {c : Cost} (hu : u.Within net.numFactors)
    (hc : u.cost net costs = .ok c) : c.rank = u.weight net costs := by
  induction u generalizing c with
  | leaf f =>
    cases hc
    exact Cost.rank_zero
  | join l r ihl ihr =>
    obtain ⟨-, hce⟩ := cost_of_exact hover hle hu hc
    unfold Shape.cost at hc
    obtain ⟨a, ha, hc⟩ := bind_eq_ok.1 hc
    obtain ⟨b, hb, hc⟩ := bind_eq_ok.1 hc
    obtain ⟨p, hp, hc⟩ := bind_eq_ok.1 hc
    obtain ⟨hpr, hpe⟩ := parts_of_exact hover hle hu ha hb hp
    rw [(Shape.step_spec net hover l r).1, ok_bind] at hc
    rw [Shape.weight, ← ihl hu.left ha, ← ihr hu.right hb, ← hpr]
    exact Cost.rank_add_of_exact fun e => by rw [hce, Shape.exact, hpe]

/-- **Polynomials**: without saturation the rank of a cost is the weight. -/
theorem gauge_of_exact : Gauge net costs s fun m => m := by
  refine ⟨hover, fun hmn => hmn, fun m n => rfl, fun hu hc => Shape.rank_of_exact hover hle hu hc,
    fun {l r a b c} hw ha hb hc => ?_⟩
  rw [(Shape.parts_of_exact hover hle hw ha hb hc).1, Shape.rank_of_exact hover hle hw.left ha,
    Shape.rank_of_exact hover hle hw.right hb]

end

/-- Comparable costs have a gauge. -/
theorem Comparable.exists_gauge (h : Comparable net costs) : ∃ s cap, Gauge net costs s cap := by
  rcases h with h | ⟨s, hover, h⟩
  · exact ⟨_, _, gauge_of_integers h⟩
  · refine ⟨_, _, gauge_of_exact hover fun {u} hu e => ?_⟩
    obtain ⟨v, hv, he⟩ := hu.exists_extension net costs
    exact Nat.le_trans (he e) (h v hv e)

end

/-! ### The total of an assembly -/

section

variable {net : Network} {s : String}

/-- **Assembling adds the cost of the tree to the total.** -/
theorem Shape.exists_assemble (hnet : net.Lawful) {u : Shape} (hu : u.Within net.numFactors)
    {a : Assembly} (hover : ∀ c ∈ a.costs, c.Over s) (ho : a.total.Over s) (hr : a.total.Reduced) :
    ∃ t a', u.assemble net a = .ok (t, a') ∧ a'.total.Over s ∧ a'.total.Reduced ∧
      ∀ e, a'.total.coefficient e = a.total.coefficient e + .ofNat _ (u.exact net a.costs e) := by
  induction u generalizing a with
  | leaf f =>
    refine ⟨_, _, rfl, ho, hr, fun e => Saturating.ext ?_⟩
    exact (Nat.min_eq_left (a.total.coefficient e).val_le).symm
  | join l r ihl ihr =>
    obtain ⟨x, b, hx, hbo, hbr, hbe⟩ := ihl hu.left hover ho hr
    obtain ⟨hxs, hxm⟩ := l.made_of_assemble hu.left.lt hx
    have hbc : b.costs = a.costs := hxm.costs
    obtain ⟨y, c, hy, hco, hcr, hce⟩ := ihr hu.right (hbc ▸ hover) hbo hbr
    obtain ⟨hys, hym⟩ := r.made_of_assemble hu.right.lt hy
    have hcc : c.costs = a.costs := hym.costs.trans hbc
    -- the open sets of the two nodes are those of the two sides
    have hxf : x.factors = l.factors := by rw [← hxs, x.factors_shape]
    have hyf : y.factors = r.factors := by rw [← hys, y.factors_shape]
    have hstep : joinCost c.costs x.openSet y.openSet = .ok ((join l r).step net a.costs) := by
      rw [hcc, ← (step_spec net hover l r).1]
      refine joinCost_congr fun i => ?_
      rw [hxm.built.contains_openSet hnet (hxf ▸ hu.left.nodup),
        hym.built.contains_openSet hnet (hyf ▸ hu.right.nodup), hxf, hyf]
    obtain ⟨d, hd, hdo, hdr, hde⟩ := Cost.add_of_over hco (step_spec net hover l r).2.1
    obtain ⟨t, hj⟩ : ∃ t, c.join net x y =
        .ok (t, { c with next := c.next + 1, total := d }) :=
      ⟨_, by simp only [Assembly.join, hstep, hd, ok_bind, pure_eq_ok]; rfl⟩
    refine ⟨t, { c with next := c.next + 1, total := d }, ?_, hdo, hdr, fun e => ?_⟩
    · simp only [assemble, hx, hy, ok_bind]
      exact hj
    · rw [hde, hce, hbe, hbc, exact, Saturating.ofNat_add, Saturating.ofNat_add,
        Saturating.ofNat_val]
      ext
      simp only [Saturating.val_add]
      omega

/-- **The total of an assembled tree is its cost.** -/
theorem Shape.exists_assemble_cost (hnet : net.Lawful) {costs : List Cost} {u : Shape}
    (hu : u.Within net.numFactors) (hover : ∀ c ∈ costs, c.Over s) :
    ∃ t a, u.assemble net { costs } = .ok (t, a) ∧ u.cost net costs = .ok a.total := by
  obtain ⟨t, a, ht, ho, hr, he⟩ := u.exists_assemble hnet hu (a := { costs }) hover
    (Cost.over_zero s) trivial
  obtain ⟨c, hc, hco, hcr, hce⟩ := u.cost_spec net hover
  refine ⟨t, a, ht, ?_⟩
  rw [hc, Cost.eq_of_coefficient_eq hco ho hcr hr fun e => ?_]
  rw [hce, he, Cost.coefficient_zero]
  ext
  show min (u.exact net costs e) _ = min (0 + min (u.exact net costs e) _) _
  omega

end

end TensorNet
