import TensorNet.Proofs.Tree.Masks
import TensorNet.Proofs.Tree.Weight

/-!
# The canonical cheapest tree

Among the trees over a set of factors one is singled out. At each of its joins the left side has the
least factor, no tree over the same factors is cheaper, and every division whose left side is a
larger set, taken as a number, costs strictly more. There is exactly one such tree for each set.

## Why it exists

By induction on the number of factors: join the canonical trees of the two parts of every division,
in the order of `Search.splits`, and take the first of the cheapest. Replacing a side of any other
tree by the canonical tree of the same factors does not make it dearer, since sums of costs are
monotone (`Gauge.cap_le`), so nothing is cheaper than what was taken.
-/

namespace TensorNet

namespace Shape

variable (net : Network) (costs : List Cost)

/-- One tree costs strictly less than another. -/
def Cheaper (u v : Shape) : Prop :=
  ∃ c d, u.cost net costs = .ok c ∧ v.cost net costs = .ok d ∧ c.lt d = .ok true

/-- The factors of a tree as a number. -/
def mask (u : Shape) : Nat := Subset.ofFactors u.factors

/-- The least factor is on the left side. -/
def LeastLeft (l r : Shape) : Prop :=
  ∃ m ∈ l.factors, ∀ f, f ∈ l.factors ∨ f ∈ r.factors → m ≤ f

/-- **The canonical tree** of its factors. -/
inductive Canonical : Shape → Prop
  | leaf (f : Nat) : Canonical (leaf f)
  | join {l r : Shape} (left : Canonical l) (right : Canonical r) (least : LeastLeft l r)
      (cheapest : ∀ u : Shape, u.factors.Perm (l.factors ++ r.factors) →
        ¬ u.Cheaper net costs (join l r))
      (first : ∀ l' r' : Shape, (l'.factors ++ r'.factors).Perm (l.factors ++ r.factors) →
        LeastLeft l' r' → l.mask < l'.mask → (join l r).Cheaper net costs (join l' r')) :
      Canonical (join l r)

/-- A tree solves a set of factors if it is the canonical tree of them. -/
structure Solves (s : Nat) (u : Shape) : Prop where
  within : u.Within net.numFactors
  canonical : u.Canonical net costs
  mask : u.mask = s

/-! ### Factors and masks -/

variable {net costs} {l r l' r' u v : Shape} {s : Nat}

theorem testBit_mask (u : Shape) (f : Nat) : u.mask.testBit f = true ↔ f ∈ u.factors := by
  rw [mask, Subset.testBit_ofFactors, decide_eq_true_eq]

theorem mask_eq_iff : u.mask = v.mask ↔ ∀ f, f ∈ u.factors ↔ f ∈ v.factors :=
  Subset.ofFactors_eq_iff

theorem mask_ne_zero (u : Shape) : u.mask ≠ 0 := by
  obtain ⟨f, hf⟩ := List.exists_mem_of_ne_nil _ u.factors_ne_nil
  intro h
  have := (testBit_mask u f).2 hf
  rw [h, Nat.zero_testBit] at this
  cases this

theorem perm_of_mask_eq {n : Nat} (hu : u.Within n) (hv : v.Within n) (h : u.mask = v.mask) :
    u.factors.Perm v.factors :=
  (List.perm_ext_iff_of_nodup hu.nodup hv.nodup).2 (mask_eq_iff.1 h)

theorem mask_eq_of_perm (h : u.factors.Perm v.factors) : u.mask = v.mask :=
  mask_eq_iff.2 fun _ => h.mem_iff

theorem mask_leaf (f : Nat) : (leaf f).mask = Subset.single f := Subset.ofFactors_singleton f

/-- The two sides of a join have different factors, so it has more than one. -/
theorem mask_join_ne_single {n : Nat} (h : (join l r).Within n) (k : Nat) :
    (join l r).mask ≠ Subset.single k := by
  intro he
  have hk : ∀ f ∈ (join l r).factors, f = k := by
    intro f hf
    rw [← testBit_mask, he, Subset.mem_single] at hf
    exact hf
  obtain ⟨f, hf⟩ := List.exists_mem_of_ne_nil _ l.factors_ne_nil
  obtain ⟨f', hf'⟩ := List.exists_mem_of_ne_nil _ r.factors_ne_nil
  have h1 := hk f (List.mem_append_left _ hf)
  have h2 := hk f' (List.mem_append_right _ hf')
  exact h.disjoint f hf (h1.trans h2.symm ▸ hf')

theorem hasLowest_mask {m : Nat} :
    Subset.HasLowest u.mask m ↔ m ∈ u.factors ∧ ∀ f ∈ u.factors, m ≤ f := by
  constructor
  · intro h
    refine ⟨(testBit_mask u m).1 h.mem, fun f hf => Nat.le_of_not_lt fun hlt => ?_⟩
    have := h.below f hlt
    rw [(testBit_mask u f).2 hf] at this
    cases this
  · rintro ⟨hm, hle⟩
    refine ⟨(testBit_mask u m).2 hm, fun f hf => ?_⟩
    rw [← Bool.not_eq_true, testBit_mask]
    intro hm'
    have := hle f hm'
    omega

theorem leastLeft_iff {m : Nat} (h : Subset.HasLowest (join l r).mask m) :
    LeastLeft l r ↔ m ∈ l.factors := by
  obtain ⟨hm, hle⟩ := hasLowest_mask.1 h
  constructor
  · rintro ⟨k, hk, hkle⟩
    have h1 := hkle m (List.mem_append.1 hm)
    have h2 := hle k (List.mem_append_left _ hk)
    rwa [Nat.le_antisymm h2 h1]
  · intro hml
    exact ⟨m, hml, fun f hf => hle f (List.mem_append.2 hf)⟩

/-- The right side is what a join has besides its left side. -/
theorem Within.mask_xor_left {n : Nat} (h : (join l r).Within n) :
    (join l r).mask ^^^ l.mask = r.mask :=
  Subset.ofFactors_xor_left h.disjoint

/-- **The joins of two trees with the least factor on the left are the splits of their factors.** -/
theorem mask_mem_splits {n : Nat} (h : (join l r).Within n) (hleast : LeastLeft l r) :
    (l.mask, r.mask) ∈ Search.splits (join l r).mask := by
  obtain ⟨m, hm⟩ := Subset.exists_hasLowest (join l r).mask_ne_zero
  have hr : r.mask = (join l r).mask ^^^ l.mask := h.mask_xor_left.symm
  refine hm.mem_splits.2 ⟨fun f hf => ?_, (testBit_mask l m).2 ((leastLeft_iff hm).1 hleast),
    fun he => ?_, hr⟩
  · rw [testBit_mask] at hf ⊢
    exact List.mem_append_left _ hf
  · rw [← he, Nat.xor_self] at hr
    exact r.mask_ne_zero hr

/-- A split of a set, read as two trees. -/
theorem join_of_mem_splits {n : Nat} (hl : l.Within n) (hr : r.Within n)
    (h : (l.mask, r.mask) ∈ Search.splits u.mask) :
    (join l r).Within n ∧ (join l r).mask = u.mask ∧ LeastLeft l r := by
  obtain ⟨m, hm⟩ := Subset.exists_hasLowest u.mask_ne_zero
  obtain ⟨hpart, hlm, -, hxor⟩ := hm.mem_splits.1 h
  have hbit : ∀ f, f ∈ r.factors ↔ (f ∈ u.factors ∧ f ∉ l.factors) := by
    intro f
    have hsub : f ∈ l.factors → f ∈ u.factors := fun hf =>
      (testBit_mask u f).1 (hpart f ((testBit_mask l f).2 hf))
    rw [← testBit_mask r, hxor, Nat.testBit_xor, bne_iff_ne, ne_eq, Bool.eq_iff_iff, testBit_mask,
      testBit_mask]
    by_cases hf : f ∈ l.factors
    · simp [hf, hsub hf]
    · simp [hf]
  have hw : (join l r).Within n := within_join hl hr fun f hf hg => ((hbit f).1 hg).2 hf
  have hmask : (join l r).mask = u.mask := mask_eq_iff.2 fun f => by
    rw [factors, List.mem_append, hbit]
    constructor
    · rintro (hf | hf)
      · exact (testBit_mask u f).1 (hpart f ((testBit_mask l f).2 hf))
      · exact hf.1
    · intro hf
      by_cases hfl : f ∈ l.factors
      · exact .inl hfl
      · exact .inr ⟨hf, hfl⟩
  exact ⟨hw, hmask, (leastLeft_iff (hmask ▸ hm)).2 ((testBit_mask l m).1 hlm)⟩

/-! ### Weights -/

theorem step_congr (h : ∀ f, f ∈ l.factors ↔ f ∈ l'.factors)
    (h' : ∀ f, f ∈ r.factors ↔ f ∈ r'.factors) :
    (join l r).step net costs = (join l' r').step net costs := by
  rw [step, step, Network.openIn_congr h, Network.openIn_congr h']

theorem weight_swap (l r : Shape) : (join r l).weight net costs = (join l r).weight net costs := by
  have hj : (join r l).step net costs = (join l r).step net costs := by
    rw [step, step, joinCost_congr fun i => Bool.or_comm _ _]
  rw [weight, weight, hj]
  omega

/-- A join can be turned round, so that the least factor is on the left. -/
theorem exists_leastLeft {n : Nat} (hw : (join l r).Within n) :
    ∃ l' r' : Shape, (join l' r').Within n ∧ (join l' r').mask = (join l r).mask ∧
      LeastLeft l' r' ∧
      ∀ net costs, (join l' r').weight net costs = (join l r).weight net costs := by
  obtain ⟨m, hm⟩ := Subset.exists_hasLowest (join l r).mask_ne_zero
  rcases List.mem_append.1 (hasLowest_mask.1 hm).1 with hml | hmr
  · exact ⟨l, r, hw, rfl, (leastLeft_iff hm).2 hml, fun _ _ => rfl⟩
  · have hsw : (join r l).mask = (join l r).mask := mask_eq_of_perm List.perm_append_comm
    have hws : (join r l).Within n :=
      within_join hw.right hw.left fun f hf hg => hw.disjoint f hg hf
    exact ⟨r, l, hws, hsw, (leastLeft_iff (hsw ▸ hm)).2 hmr, fun _ _ => weight_swap l r⟩

variable {sym : String} {cap : Nat → Nat}

theorem cheaper_iff (g : Gauge net costs sym cap) (hu : u.Within net.numFactors)
    (hv : v.Within net.numFactors) :
    u.Cheaper net costs v ↔ cap (u.weight net costs) < cap (v.weight net costs) := by
  obtain ⟨c, hc, hco, hcr, -⟩ := u.cost_spec net g.costs_over
  obtain ⟨d, hd, hdo, hdr, -⟩ := v.cost_spec net g.costs_over
  have hlt : c.lt d = .ok (decide (cap (u.weight net costs) < cap (v.weight net costs))) := by
    rw [Cost.lt_of_over hco hdo hcr hdr, g.rank_cost hu hc, g.rank_cost hv hd]
  constructor
  · rintro ⟨c', d', hc', hd', h⟩
    rw [hc] at hc'
    rw [hd] at hd'
    cases hc'
    cases hd'
    rw [hlt] at h
    exact of_decide_eq_true (Except.ok.inj h)
  · intro h
    exact ⟨c, d, hc, hd, by rw [hlt, decide_eq_true h]⟩

/-- Replacing the sides of a join by trees that are not dearer does not make it dearer. -/
theorem weight_join_le (g : Gauge net costs sym cap)
    (hl : l'.mask = l.mask) (hr : r'.mask = r.mask)
    (hlw : cap (l'.weight net costs) ≤ cap (l.weight net costs))
    (hrw : cap (r'.weight net costs) ≤ cap (r.weight net costs)) :
    cap ((join l' r').weight net costs) ≤ cap ((join l r).weight net costs) := by
  have hstep : (join l' r').step net costs = (join l r).step net costs :=
    step_congr (mask_eq_iff.1 hl) (mask_eq_iff.1 hr)
  rw [weight, weight, hstep]
  exact g.cap_le hlw hrw _

theorem weight_left_le (g : Gauge net costs sym cap) (l r : Shape) :
    cap (l.weight net costs) ≤ cap ((join l r).weight net costs) := by
  apply g.mono
  rw [weight]
  omega

theorem weight_right_le (g : Gauge net costs sym cap) (l r : Shape) :
    cap (r.weight net costs) ≤ cap ((join l r).weight net costs) := by
  apply g.mono
  rw [weight]
  omega

theorem weight_parts_le (g : Gauge net costs sym cap) (l r : Shape) :
    cap (l.weight net costs + r.weight net costs) ≤ cap ((join l r).weight net costs) := by
  apply g.mono
  rw [weight]
  omega

theorem Solves.parts (h : (join l r).Solves net costs s) :
    l.Solves net costs l.mask ∧ r.Solves net costs r.mask ∧
      (l.mask, r.mask) ∈ Search.splits s := by
  obtain ⟨hw, hc, rfl⟩ := h
  cases hc with
  | join left right least cheapest first =>
    exact ⟨⟨hw.left, left, rfl⟩, ⟨hw.right, right, rfl⟩, mask_mem_splits hw least⟩

/-- No tree over the same factors weighs less than the canonical one. -/
theorem Solves.weight_le (g : Gauge net costs sym cap) (h : u.Solves net costs s)
    (hv : v.Within net.numFactors) (hs : v.mask = s) :
    cap (u.weight net costs) ≤ cap (v.weight net costs) := by
  have hperm : v.factors.Perm u.factors := perm_of_mask_eq hv h.within (hs.trans h.mask.symm)
  cases h.canonical with
  | leaf f => exact g.mono (Nat.zero_le _)
  | join left right least cheapest first =>
    have hc := cheapest v hperm
    rw [cheaper_iff g hv h.within] at hc
    omega

/-- **The first of the cheapest splits makes the canonical tree**, when its parts are solved. -/
theorem solves_join (g : Gauge net costs sym cap) {t : Shape}
    (hl : l.Solves net costs l.mask) (hr : r.Solves net costs r.mask)
    (hmem : (l.mask, r.mask) ∈ Search.splits t.mask)
    (hmin : ∀ l' r' : Shape, (l'.mask, r'.mask) ∈ Search.splits t.mask →
      l'.Solves net costs l'.mask → r'.Solves net costs r'.mask →
      cap ((join l r).weight net costs) ≤ cap ((join l' r').weight net costs) ∧
        (l.mask < l'.mask →
          cap ((join l r).weight net costs) < cap ((join l' r').weight net costs)))
    (hex : ∀ s, (∃ v : Shape, v.Within net.numFactors ∧ v.mask = s ∧
      v.factors.length < t.factors.length) → ∃ v : Shape, v.Solves net costs s)
    (ht : t.Within net.numFactors) : (join l r).Solves net costs t.mask := by
  obtain ⟨hw, hmask, hleast⟩ := join_of_mem_splits hl.within hr.within hmem
  -- every division with the least factor on the left is matched by one into canonical trees
  have hsplit : ∀ l' r' : Shape, (join l' r').Within net.numFactors →
      (join l' r').mask = t.mask → LeastLeft l' r' →
      cap ((join l r).weight net costs) ≤ cap ((join l' r').weight net costs) ∧
        (l.mask < l'.mask →
          cap ((join l r).weight net costs) < cap ((join l' r').weight net costs)) := by
    intro l' r' hw' hm' hleast'
    have hlen : t.factors.length = l'.factors.length + r'.factors.length := by
      rw [(perm_of_mask_eq ht hw' hm'.symm).length_eq, length_factors_join]
    have hlpos := l'.length_factors_pos
    have hrpos := r'.length_factors_pos
    obtain ⟨cl, hcl⟩ := hex l'.mask ⟨l', hw'.left, rfl, by omega⟩
    obtain ⟨cr, hcr⟩ := hex r'.mask ⟨r', hw'.right, rfl, by omega⟩
    have hin : (cl.mask, cr.mask) ∈ Search.splits t.mask := by
      rw [hcl.mask, hcr.mask, ← hm']
      exact mask_mem_splits hw' hleast'
    obtain ⟨h1, h2⟩ := hmin cl cr hin (hcl.mask.symm ▸ hcl) (hcr.mask.symm ▸ hcr)
    have h3 := weight_join_le g hcl.mask hcr.mask (hcl.weight_le g hw'.left rfl)
      (hcr.weight_le g hw'.right rfl)
    rw [hcl.mask] at h2
    refine ⟨by omega, fun hlt => ?_⟩
    have := h2 hlt
    omega
  refine ⟨hw, .join hl.canonical hr.canonical hleast ?_ ?_, hmask⟩
  · intro u hperm
    have hwu : u.Within net.numFactors :=
      ⟨hperm.nodup_iff.2 hw.nodup, fun f hf => hw.lt f (hperm.mem_iff.1 hf)⟩
    have hmu : u.mask = t.mask := (mask_eq_of_perm hperm).trans hmask
    rw [cheaper_iff g hwu hw, Nat.not_lt]
    cases u with
    | leaf f =>
      have hlen : 1 = (join l r).factors.length := hperm.length_eq
      have := two_le_length l r
      omega
    | join l' r' =>
      obtain ⟨a, b, hwab, hab, hleast', hweight⟩ := exists_leastLeft hwu
      rw [← hweight]
      exact (hsplit a b hwab (hab.trans hmu) hleast').1
  · intro l' r' hperm hleast' hlt
    have hw' : (join l' r').Within net.numFactors :=
      ⟨hperm.nodup_iff.2 hw.nodup, fun f hf => hw.lt f (hperm.mem_iff.1 hf)⟩
    have hm' : (join l' r').mask = t.mask :=
      (mask_eq_of_perm (u := join l' r') (v := join l r) hperm).trans hmask
    rw [cheaper_iff g hw hw']
    exact (hsplit l' r' hw' hm' hleast').2 hlt

/-! ### Existence and uniqueness -/

theorem Canonical.eq_of_mask_eq (hu : u.Canonical net costs)
    (huw : u.Within net.numFactors) (hv : v.Canonical net costs) (hvw : v.Within net.numFactors)
    (h : u.mask = v.mask) : u = v := by
  induction hu generalizing v with
  | leaf f =>
    have hperm := perm_of_mask_eq huw hvw h
    cases hv with
    | leaf k =>
      have hk : f ∈ (Shape.leaf k).factors := hperm.mem_iff.1 (List.mem_singleton_self f)
      rw [List.mem_singleton.1 hk]
    | @join l r _ _ _ _ _ =>
      have hlen : 1 = (Shape.join l r).factors.length := hperm.length_eq
      have := two_le_length l r
      omega
  | @join l r left right least cheapest first ihl ihr =>
    have hperm := perm_of_mask_eq huw hvw h
    cases hv with
    | leaf k =>
      have hlen : (Shape.join l r).factors.length = 1 := hperm.length_eq
      have := two_le_length l r
      omega
    | @join l' r' left' right' least' cheapest' first' =>
      -- of two different divisions the one with the larger left side would be dearer
      have hmask : l.mask = l'.mask := by
        rcases Nat.lt_trichotomy l.mask l'.mask with hlt | he | hlt
        · exact absurd (first l' r' hperm.symm least' hlt) (cheapest' _ hperm)
        · exact he
        · exact absurd (first' l r hperm least hlt) (cheapest _ hperm.symm)
      have hmask' : r.mask = r'.mask := by
        rw [← huw.mask_xor_left, ← hvw.mask_xor_left, h, hmask]
      rw [ihl huw.left left' hvw.left hmask, ihr huw.right right' hvw.right hmask']

theorem Solves.unique (hu : u.Solves net costs s)
    (hv : v.Solves net costs s) : u = v :=
  hu.canonical.eq_of_mask_eq hu.within hv.canonical hv.within (hu.mask.trans hv.mask.symm)

/-- The first of the elements that are least under a measure. -/
theorem exists_first_min {α : Type} (f : α → Nat) {xs : List α} (h : xs ≠ []) :
    ∃ pre a post, xs = pre ++ a :: post ∧ (∀ b ∈ pre, f a < f b) ∧ ∀ b ∈ post, f a ≤ f b := by
  induction xs with
  | nil => exact absurd rfl h
  | cons x xs ih =>
    by_cases hxs : xs = []
    · subst hxs
      exact ⟨[], x, [], rfl, nofun, nofun⟩
    · obtain ⟨pre, a, post, rfl, hpre, hpost⟩ := ih hxs
      by_cases hx : f a < f x
      · refine ⟨x :: pre, a, post, rfl, fun b hb => ?_, hpost⟩
        rcases List.mem_cons.1 hb with rfl | hb
        · exact hx
        · exact hpre b hb
      · refine ⟨[], x, pre ++ a :: post, rfl, nofun, fun b hb => ?_⟩
        rcases List.mem_append.1 hb with hb | hb
        · have := hpre b hb
          omega
        · rcases List.mem_cons.1 hb with rfl | hb
          · omega
          · have := hpost b hb
            omega

theorem exists_factors_eq : ∀ {fs : List Nat}, fs ≠ [] → ∃ v : Shape, v.factors = fs
  | [f], _ => ⟨leaf f, rfl⟩
  | f :: g :: fs, _ => by
    obtain ⟨v, hv⟩ := exists_factors_eq (List.cons_ne_nil g fs)
    exact ⟨join (leaf f) v, by rw [factors, factors, hv, List.singleton_append]⟩

/-- A tree over the set of all factors has each of them once. -/
theorem Within.perm_range {n : Nat} (hu : u.Within n) (hm : u.mask = Subset.full n) :
    u.factors.Perm (List.range n) := by
  refine perm_of_within hu fun f => ?_
  rw [← testBit_mask, hm, ← Subset.ofFactors_range, Subset.testBit_ofFactors, decide_eq_true_eq,
    List.mem_range]

theorem perm_leftDeep {n : Nat} (hn : 0 < n) :
    (leftDeep (n - 1)).factors.Perm (List.range n) := by
  rw [factors_leftDeep, Nat.sub_add_cancel hn]

theorem mask_leftDeep {n : Nat} (hn : 0 < n) : (leftDeep (n - 1)).mask = Subset.full n := by
  rw [mask, factors_leftDeep, Nat.sub_add_cancel hn, Subset.ofFactors_range]

theorem Within.length_le {n : Nat} (hu : u.Within n) : u.factors.length ≤ n := by
  have hsub : u.factors.Subperm (List.range n) :=
    hu.nodup.subperm fun f hf => List.mem_range.2 (hu.lt f hf)
  simpa using hsub.length_le

/-- A part of the factors of a tree has a tree, with fewer leaves. -/
theorem Within.exists_part {n : Nat} (hu : u.Within n) (hpart : Subset.IsPart s u.mask)
    (h0 : s ≠ 0) (hne : s ≠ u.mask) :
    ∃ v : Shape, v.Within n ∧ v.mask = s ∧ v.factors.length < u.factors.length := by
  have hmem : ∀ f, f ∈ u.factors.filter (fun f => s.testBit f) ↔ s.testBit f = true := by
    intro f
    rw [List.mem_filter]
    exact ⟨fun h => h.2, fun h => ⟨(testBit_mask u f).1 (hpart f h), h⟩⟩
  obtain ⟨m, hm⟩ := Subset.testBit_of_ne_zero h0
  obtain ⟨v, hv⟩ := exists_factors_eq (List.ne_nil_of_mem ((hmem m).2 hm))
  have hmask : v.mask = s := by
    refine Nat.eq_of_testBit_eq fun f => ?_
    rw [Bool.eq_iff_iff, testBit_mask, hv, hmem]
  refine ⟨v, ⟨?_, fun f hf => ?_⟩, hmask, ?_⟩
  · rw [hv]
    exact hu.nodup.filter _
  · rw [hv, List.mem_filter] at hf
    exact hu.lt f hf.1
  · rw [hv]
    refine Nat.lt_of_le_of_ne (List.length_filter_le _ _) fun hlen => hne ?_
    have hall := List.length_filter_eq_length_iff.1 hlen
    refine Nat.eq_of_testBit_eq fun f => Bool.eq_iff_iff.2 ⟨hpart f, fun hf => ?_⟩
    exact hall f ((testBit_mask u f).1 hf)

/-- The two parts of a split have trees with fewer leaves. -/
theorem Within.exists_parts {n : Nat} (hu : u.Within n) {x : Nat × Nat}
    (hx : x ∈ Search.splits u.mask) :
    (∃ v : Shape, v.Within n ∧ v.mask = x.1 ∧ v.factors.length < u.factors.length) ∧
      ∃ v : Shape, v.Within n ∧ v.mask = x.2 ∧ v.factors.length < u.factors.length := by
  obtain ⟨m, hm⟩ := Subset.exists_hasLowest u.mask_ne_zero
  obtain ⟨hpart, hlm, hne, hr⟩ := hm.mem_splits.1 hx
  have h0 : x.1 ≠ 0 := by
    intro h
    rw [h, Nat.zero_testBit] at hlm
    cases hlm
  have hr0 : x.2 ≠ 0 := by
    intro h
    apply hne
    rw [← Subset.xor_xor_cancel u.mask x.1, ← hr, h, Nat.xor_zero]
  have hrpart : Subset.IsPart x.2 u.mask := by
    intro i hi
    rw [hr, Nat.testBit_xor] at hi
    by_cases hl : x.1.testBit i = true
    · exact hpart i hl
    · rw [Bool.not_eq_true] at hl
      rwa [hl, Bool.xor_false] at hi
  have hrne : x.2 ≠ u.mask := by
    intro h
    apply h0
    rw [← Subset.xor_xor_cancel u.mask x.1, ← hr, h, Nat.xor_self]
  exact ⟨hu.exists_part hpart h0 hne, hu.exists_part hrpart hr0 hrne⟩

/-- The parts of a split are other sets than the whole. -/
theorem Within.ne_of_mem_splits {n : Nat} (hu : u.Within n) {x : Nat × Nat}
    (hx : x ∈ Search.splits u.mask) : x.1 ≠ u.mask ∧ x.2 ≠ u.mask := by
  obtain ⟨⟨v, hv, hvm, hlt⟩, ⟨w, hw, hwm, hlt'⟩⟩ := hu.exists_parts hx
  refine ⟨fun he => ?_, fun he => ?_⟩
  · have := (perm_of_mask_eq hv hu (hvm.trans he)).length_eq
    omega
  · have := (perm_of_mask_eq hw hu (hwm.trans he)).length_eq
    omega

theorem splits_ne_nil {n : Nat} (hu : (join l r).Within n) :
    Search.splits (join l r).mask ≠ [] := by
  obtain ⟨l', r', hw, hmask, hleast, -⟩ := exists_leastLeft hu
  exact hmask ▸ List.ne_nil_of_mem (mask_mem_splits hw hleast)

/-- The first of the splits that are least under a measure. -/
theorem exists_first_split {n : Nat} (hu : (join l r).Within n) (f : Nat × Nat → Nat) :
    ∃ x ∈ Search.splits (join l r).mask, ∀ y ∈ Search.splits (join l r).mask,
      f x ≤ f y ∧ (x.1 < y.1 → f x < f y) := by
  obtain ⟨m, hm⟩ := Subset.exists_hasLowest (join l r).mask_ne_zero
  obtain ⟨pre, x, post, hxs, hpre, hpost⟩ := exists_first_min f (splits_ne_nil hu)
  have hdesc := hm.pairwise_splits
  rw [hxs, List.pairwise_append] at hdesc
  refine ⟨x, hxs ▸ List.mem_append_right _ List.mem_cons_self, fun y hy => ?_⟩
  rw [hxs] at hy
  rcases List.mem_append.1 hy with hy | hy
  · have := hpre y hy
    exact ⟨by omega, fun _ => this⟩
  · rcases List.mem_cons.1 hy with rfl | hy
    · exact ⟨Nat.le_refl _, fun hlt => absurd hlt (Nat.lt_irrefl _)⟩
    · have hlt := (List.pairwise_cons.1 hdesc.2.1).1 y hy
      exact ⟨hpost y hy, fun h => absurd hlt (Nat.lt_asymm h)⟩

/-- **Every set of factors has a canonical tree.** -/
theorem exists_solves (g : Gauge net costs sym cap) (hu : u.Within net.numFactors) :
    ∃ c : Shape, c.Solves net costs u.mask := by
  generalize hn : u.factors.length = n
  induction n using Nat.strongRecOn generalizing u with
  | _ n ih =>
    have hex : ∀ s, (∃ v : Shape, v.Within net.numFactors ∧ v.mask = s ∧
        v.factors.length < u.factors.length) → ∃ v : Shape, v.Solves net costs s := by
      rintro s ⟨v, hv, rfl, hlt⟩
      exact ih _ (hn ▸ hlt) hv rfl
    cases u with
    | leaf f => exact ⟨leaf f, hu, .leaf f, rfl⟩
    | join l r =>
      -- the canonical trees of the two parts of each split
      have hpair : ∀ x : Nat × Nat, ∃ p : Shape × Shape, x ∈ Search.splits (join l r).mask →
          p.1.Solves net costs x.1 ∧ p.2.Solves net costs x.2 := by
        intro x
        by_cases hx : x ∈ Search.splits (join l r).mask
        · obtain ⟨h1, h2⟩ := hu.exists_parts hx
          obtain ⟨a, ha⟩ := hex _ h1
          obtain ⟨b, hb⟩ := hex _ h2
          exact ⟨(a, b), fun _ => ⟨ha, hb⟩⟩
        · exact ⟨(l, r), fun h => absurd h hx⟩
      choose F hF using hpair
      obtain ⟨x, hx, hmin⟩ :=
        exists_first_split hu fun x => cap ((join (F x).1 (F x).2).weight net costs)
      obtain ⟨hxl, hxr⟩ := hF x hx
      refine ⟨join (F x).1 (F x).2, solves_join g (hxl.mask.symm ▸ hxl) (hxr.mask.symm ▸ hxr)
        ?_ ?_ hex hu⟩
      · rw [hxl.mask, hxr.mask]
        exact hx
      · intro l' r' hy hl' hr'
        obtain ⟨hyl, hyr⟩ := hF _ hy
        have h := hmin _ hy
        rw [← hl'.unique hyl, ← hr'.unique hyr] at h
        rwa [hxl.mask]

end Shape

end TensorNet
