import Mathlib
import TensorNet.Proofs.Tree.Search

/-!
# Never worse than from left to right

Where costs saturate, a cheaper part need not make a cheaper tree, and the search may find nothing
at all below its bound. What it returns is still never worse than the left-to-right tree, whose
cost is the bound.

## What a table holds

Nothing is said here about the choices being good ones. Each choice belongs to a tree whose parts
are all in the table, its cost is the cost of this tree, and it passed the bound. So the tree that
is read off the table for all factors has the cost that is noted for them: sums saturate, but they
do not depend on how they are grouped. Where all factors have no choice the left-to-right tree is
returned itself.
-/

namespace TensorNet

namespace Search

variable {net : Network} {p : Problem} {t t' : Table} {u : Shape}

/-! ### What a table holds -/

/-- What is known of a table when the given sets have been through. -/
structure Filled (net : Network) (p : Problem) (done : Nat → Prop) (t : Table) : Prop where
  opens : ∀ u : Shape, u.Within net.numFactors → done u.mask → NotesOpen net t u
  fresh : ∀ s, ¬ done s → t.choices[s]? = none
  noted : ∀ s c, t.choices[s]? = some c →
    ∃ u : Shape, u.Within net.numFactors ∧ u.mask = s ∧ Noted net p t u
  below : ∀ s c, t.choices[s]? = some c →
    (∃ f, s = Subset.single f) ∨ (p.prune = true → p.bound.lt c.cost = .ok false)

/-- A choice for a set joins two trees that are in the table, and passes the bound. -/
structure Found (net : Network) (p : Problem) (t : Table) (s : Nat) (c : Choice) : Prop where
  tree : ∃ l r : Shape, (Shape.join l r).Within net.numFactors ∧ (Shape.join l r).mask = s ∧
    Noted net p t l ∧ Noted net p t r ∧ c.left = l.mask ∧
    (Shape.join l r).cost net p.costs = .ok c.cost
  below : p.prune = true → p.bound.lt c.cost = .ok false

variable {done : Nat → Prop}

/-- A split of a set whose parts are in the table. -/
theorem Filled.split (h : Filled net p done t) {x : Nat × Nat} (hx : x ∈ splits u.mask)
    (hd : done x.1 ∧ done x.2) {a b : Choice} (ha : t.choices[x.1]? = some a)
    (hb : t.choices[x.2]? = some b) :
    ∃ l r : Shape, l.mask = x.1 ∧ r.mask = x.2 ∧ (Shape.join l r).Within net.numFactors ∧
      (Shape.join l r).mask = u.mask ∧ Noted net p t l ∧ Noted net p t r ∧
      l.cost net p.costs = .ok a.cost ∧ r.cost net p.costs = .ok b.cost ∧
      Search.joinCost p t x.1 x.2 =
        TensorNet.joinCost p.costs (net.openIn l.factors) (net.openIn r.factors) := by
  obtain ⟨l, hlw, hlm, hl⟩ := h.noted _ _ ha
  obtain ⟨r, hrw, hrm, hr⟩ := h.noted _ _ hb
  obtain ⟨hw, hm, -⟩ := Shape.join_of_mem_splits (u := u) hlw hrw (by rw [hlm, hrm]; exact hx)
  obtain ⟨k, hk, hkc⟩ := hl.exists_choice
  obtain ⟨k', hk', hkc'⟩ := hr.exists_choice
  rw [hlm, ha] at hkc
  rw [hrm, hb] at hkc'
  cases hkc
  cases hkc'
  refine ⟨l, r, hlm, hrm, hw, hm, hl, hr, hk, hk', ?_⟩
  have hjoin := joinCost_of_notesOpen (p := p) (h.opens l hlw (hlm ▸ hd.1))
    (h.opens r hrw (hrm ▸ hd.2))
  rwa [hlm, hrm] at hjoin

/-! ### One split -/

theorem Filled.consider (h : Filled net p done t) {x : Nat × Nat} (hx : x ∈ splits u.mask)
    (hd : done x.1 ∧ done x.2) {best best' : Option Choice}
    (hbest : ∀ c ∈ best, Found net p t u.mask c)
    (hc : consider p t best x.1 x.2 = .ok best') : ∀ c ∈ best', Found net p t u.mask c := by
  rcases consider_cases hc with
    rfl | ⟨a, b, parts, j, total, ha, hb, hparts, hj, htotal, habove, rfl⟩
  · exact hbest
  · obtain ⟨l, r, hlm, -, hw, hm, hl, hr, hlc, hrc, hjoin⟩ := h.split hx hd ha hb
    intro c hc
    cases hc
    refine ⟨⟨l, r, hw, hm, hl, hr, hlm.symm, ?_⟩, fun hp => ?_⟩
    · rw [hjoin] at hj
      simp only [Shape.cost, hlc, hrc, hparts, hj, ok_bind, htotal]
    · rwa [aboveBound, if_pos hp] at habove

/-! ### One set -/

theorem Filled.best (h : Filled net p done t) (hd : ∀ x ∈ splits u.mask, done x.1 ∧ done x.2)
    {b : Option Choice} (hb : best p t u.mask = .ok b) : ∀ c ∈ b, Found net p t u.mask c := by
  refine foldlM_inv (fun b => ∀ c ∈ b, Found net p t u.mask c) ?_ ?_ hb
  · intro b x b' hx hbest hc
    exact h.consider hx (hd x hx) hbest hc
  · intro c hc
    cases hc

/-- A set has been through once its open labels are noted, with or without a choice. -/
theorem Filled.insertOpen (h : Filled net p done t) {o : LabelSet}
    (ho : ∀ i, o.contains i = (net.openIn u.factors).contains i) :
    Filled net p (fun s => done s ∨ s = u.mask)
      { t with openSets := t.openSets.insert u.mask o } := by
  have hself : NotesOpen net { t with openSets := t.openSets.insert u.mask o } u :=
    ⟨o, Std.HashMap.getElem?_insert_self, ho⟩
  refine ⟨fun v hv hdone => ?_, fun s hs => h.fresh s fun hdone => hs (.inl hdone),
    fun s c hc => ?_, h.below⟩
  · by_cases he : v.mask = u.mask
    · exact hself.congr he.symm
    · obtain ⟨o', ho', hi⟩ := h.opens v hv (hdone.resolve_right he)
      refine ⟨o', ?_, hi⟩
      rw [Std.HashMap.getElem?_insert, if_neg (by simpa using Ne.symm he)]
      exact ho'
  · obtain ⟨v, hv, hm, hn⟩ := h.noted s c hc
    exact ⟨v, hv, hm, hn.mono fun _ _ hs => hs⟩

/-- A choice that was found for a set without one can be added. -/
theorem Filled.insertChoice (h : Filled net p done t) {s : Nat} (hdone : done s)
    (hnone : t.choices[s]? = none) {c : Choice} (hc : Found net p t s c) :
    Filled net p done { t with choices := t.choices.insert s c } := by
  have hget : ∀ s', s' ≠ s → (t.choices.insert s c)[s']? = t.choices[s']? := by
    intro s' hs
    rw [Std.HashMap.getElem?_insert, if_neg (by simpa using Ne.symm hs)]
  have hsub : ∀ (s' : Nat) (d : Choice), t.choices[s']? = some d →
      (t.choices.insert s c)[s']? = some d := by
    intro s' d hd
    rw [hget s', hd]
    rintro rfl
    rw [hnone] at hd
    cases hd
  obtain ⟨⟨l, r, hw, rfl, hl, hr, hleft, hcost⟩, hbelow⟩ := hc
  refine ⟨h.opens, fun s' hs => ?_, fun s' d hd => ?_, fun s' d hd => ?_⟩
  · rw [hget s' fun he => hs (he ▸ hdone)]
    exact h.fresh s' hs
  · by_cases hs : s' = (Shape.join l r).mask
    · subst hs
      refine ⟨.join l r, hw, rfl, hl.mono hsub, hr.mono hsub, c.cost, hcost, ?_⟩
      rw [Std.HashMap.getElem?_insert_self, ← hleft]
    · rw [hget s' hs] at hd
      obtain ⟨v, hv, hvm, hn⟩ := h.noted s' d hd
      exact ⟨v, hv, hvm, hn.mono hsub⟩
  · by_cases hs : s' = (Shape.join l r).mask
    · subst hs
      rw [Std.HashMap.getElem?_insert_self] at hd
      cases hd
      exact .inr hbelow
    · rw [hget s' hs] at hd
      exact h.below s' d hd

theorem Filled.exists_noteOpen (hnet : net.Lawful) (h : Filled net p done t)
    (hu : u.Within net.numFactors) (hlen : 2 ≤ u.factors.length)
    (hd : ∀ x ∈ splits u.mask, done x.1 ∧ done x.2) :
    ∃ o, noteOpen t u.mask = .ok { t with openSets := t.openSets.insert u.mask o } ∧
      ∀ i, o.contains i = (net.openIn u.factors).contains i := by
  cases u with
  | leaf f =>
    rw [Shape.length_factors_leaf] at hlen
    omega
  | join l r =>
    refine Search.exists_noteOpen hnet hu fun x hx v hv hvx => h.opens v hv ?_
    rcases hvx with hvx | hvx
    · exact hvx ▸ (hd x hx).1
    · exact hvx ▸ (hd x hx).2

/-- **Solving a new set keeps what is known of the table.** -/
theorem Filled.solve (hnet : net.Lawful) (h : Filled net p done t)
    (hu : u.Within net.numFactors) (hlen : 2 ≤ u.factors.length) (hnew : ¬ done u.mask)
    (hd : ∀ x ∈ splits u.mask, done x.1 ∧ done x.2) (hs : solve p t u.mask = .ok t') :
    Filled net p (fun x => done x ∨ x = u.mask) t' := by
  obtain ⟨o, ho, hoi⟩ := h.exists_noteOpen hnet hu hlen hd
  have hopen := h.insertOpen hoi
  unfold Search.solve at hs
  rw [ho, ok_bind] at hs
  obtain ⟨b, hb, hs⟩ := bind_eq_ok.1 hs
  have hfound := hopen.best (fun x hx => ⟨.inl (hd x hx).1, .inl (hd x hx).2⟩) hb
  cases b with
  | none =>
    cases hs
    exact hopen
  | some c =>
    cases hs
    exact hopen.insertChoice (.inr rfl) (h.fresh _ hnew) (hfound c rfl)

/-- The table of the single factors. -/
theorem filled_start (hnet : net.Lawful) (p : Problem) :
    Filled net p (Sized net 1) (start net) := by
  obtain ⟨hsome, hnone⟩ := start_spec net
  have hsingle : ∀ s c, (start net).choices[s]? = some c →
      ∃ f < net.numFactors, s = Subset.single f := by
    intro s c hc
    by_contra hs
    rw [hnone s fun f hf he => hs ⟨f, hf, he⟩] at hc
    cases hc
  refine ⟨fun u hu hdone => ?_, fun s hs => hnone s fun f hf he => hs ?_, fun s c hc => ?_,
    fun s c hc => ?_⟩
  · obtain ⟨v, hv, hvm, hvl⟩ := hdone
    cases u with
    | leaf f =>
      have hf : f < net.numFactors := hu.lt f (List.mem_singleton_self f)
      exact ⟨_, Shape.mask_leaf f ▸ (hsome f hf).1, hnet.contains_openSetOf hf⟩
    | join l r =>
      have hlen := (Shape.perm_of_mask_eq hu hv hvm.symm).length_eq
      have := Shape.two_le_length l r
      omega
  · exact ⟨.leaf f, Shape.within_leaf hf, he ▸ Shape.mask_leaf f, Nat.le_refl 1⟩
  · obtain ⟨f, hf, rfl⟩ := hsingle s c hc
    exact ⟨.leaf f, Shape.within_leaf hf, Shape.mask_leaf f, (hsome f hf).2⟩
  · obtain ⟨f, -, rfl⟩ := hsingle s c hc
    exact .inl ⟨f, rfl⟩

/-! ### Costs in one variable -/

section

variable {sym : String} (hcosts : ∀ c ∈ p.costs, c.Over sym)
include hcosts

theorem Found.over {s : Nat} {c : Choice} (h : Found net p t s c) :
    c.cost.Over sym ∧ c.cost.Reduced := by
  obtain ⟨⟨l, r, -, -, -, -, -, hcost⟩, -⟩ := h
  obtain ⟨k, hk, ho, hr, -⟩ := (Shape.join l r).cost_spec net hcosts
  obtain rfl := Except.ok.inj (hcost.symm.trans hk)
  exact ⟨ho, hr⟩

variable (hbo : p.bound.Over sym) (hbr : p.bound.Reduced)
include hbo hbr

theorem Filled.exists_consider (h : Filled net p done t) {x : Nat × Nat}
    (hx : x ∈ splits u.mask) (hd : done x.1 ∧ done x.2) {best : Option Choice}
    (hbest : ∀ c ∈ best, Found net p t u.mask c) :
    ∃ b, Search.consider p t best x.1 x.2 = .ok b := by
  cases ha : t.choices[x.1]? with
  | none => exact ⟨best, by simp only [Search.consider, ha]⟩
  | some a =>
    cases hb : t.choices[x.2]? with
    | none => exact ⟨best, by simp only [Search.consider, ha, hb]⟩
    | some b =>
      obtain ⟨l, r, -, -, -, -, -, -, hlc, hrc, hjoin⟩ := h.split hx hd ha hb
      obtain ⟨a', ha', hao, -⟩ := l.cost_spec net hcosts
      obtain ⟨b', hb', hbo', -⟩ := r.cost_spec net hcosts
      obtain rfl := Except.ok.inj (hlc.symm.trans ha')
      obtain rfl := Except.ok.inj (hrc.symm.trans hb')
      obtain ⟨parts, hparts, hpo, hpr, -⟩ := Cost.add_of_over hao hbo'
      obtain ⟨hstep, hso, -⟩ := Shape.step_spec net hcosts l r
      obtain ⟨total, htotal, hto, htr, -⟩ := Cost.add_of_over hpo hso
      exact ⟨_, consider_eq ha hb hparts (hjoin.trans hstep) htotal hpo hpr hto htr hbo hbr
        fun c hc => (hbest c hc).over hcosts⟩

theorem Filled.exists_best (h : Filled net p done t)
    (hd : ∀ x ∈ splits u.mask, done x.1 ∧ done x.2) : ∃ b, Search.best p t u.mask = .ok b := by
  have hstep : ∀ pre x post b, splits u.mask = pre ++ x :: post →
      (∀ c ∈ b, Found net p t u.mask c) →
      ∃ b', Search.consider p t b x.1 x.2 = .ok b' ∧ ∀ c ∈ b', Found net p t u.mask c := by
    intro pre x post b hsplit hfound
    have hx : x ∈ splits u.mask := hsplit ▸ List.mem_append_right _ List.mem_cons_self
    obtain ⟨b', hb'⟩ := h.exists_consider hcosts hbo hbr hx (hd x hx) hfound
    exact ⟨b', hb', h.consider hx (hd x hx) hfound hb'⟩
  obtain ⟨b, hb, -⟩ := exists_foldlM (fun _ b => ∀ c ∈ b, Found net p t u.mask c) hstep
    (fun c hc => absurd hc (Option.not_mem_none c))
  exact ⟨b, hb⟩

/-- **The search goes through** where the costs are in one variable. -/
theorem exists_filled (hnet : net.Lawful) :
    ∃ t, solveAll p net = .ok t ∧ Filled net p (Sized net net.numFactors) t := by
  have hkeeps : Keeps net p (Filled net p) := by
    intro done t u hu hlen hnew hd ht
    obtain ⟨o, ho, hoi⟩ := ht.exists_noteOpen hnet hu hlen hd
    obtain ⟨b, hb⟩ := (ht.insertOpen hoi).exists_best hcosts hbo hbr fun x hx =>
      ⟨.inl (hd x hx).1, .inl (hd x hx).2⟩
    obtain ⟨t', ht'⟩ : ∃ t', Search.solve p t u.mask = .ok t' := by
      simp only [Search.solve, ho, ok_bind, hb]
      cases b with
      | none => exact ⟨_, rfl⟩
      | some c => exact ⟨_, rfl⟩
    exact ⟨t', ht', ht.solve hnet hu hlen hnew hd ht'⟩
  exact hkeeps.solveAll (filled_start hnet p)

end

end Search

namespace ContractionTree

open Search

variable {net : Network} {model : CostModel} {s : String}

theorem exists_leftToRight (hnet : net.Lawful) (hcosts : ∀ c ∈ model.resolve net, c.Over s) :
    ∃ t : ContractionTree, leftToRight net model = .ok t ∧ t.cost.Over s ∧ t.cost.Reduced := by
  obtain ⟨root, a, ha, hcost⟩ := Shape.exists_assemble_cost hnet
    (Shape.within_of_perm (Shape.perm_leftDeep hnet.pos)) hcosts
  obtain ⟨c, hc, ho, hr, -⟩ := (Shape.leftDeep (net.numFactors - 1)).cost_spec net hcosts
  obtain rfl := Except.ok.inj (hcost.symm.trans hc)
  refine ⟨Assembly.finish (root, a), ?_, ho, hr⟩
  rw [leftToRight_eq, ha]
  rfl

/-- **The tree that the table has for all factors is read off it**, at the cost that is noted. -/
theorem exists_read (hnet : net.Lawful) {p : Problem} (hcosts : ∀ c ∈ p.costs, c.Over s) {t : Table}
    (ht : Filled net p (Sized net net.numFactors) t) {c : Choice}
    (hc : t.choices[Subset.full net.numFactors]? = some c) :
    ∃ (u : Shape) (last : TreeNode × Assembly), u.Within net.numFactors ∧
      u.mask = Subset.full net.numFactors ∧ u.factors.length = net.numFactors ∧
      rebuild net t net.numFactors (Subset.full net.numFactors) { costs := p.costs } = .ok last ∧
      u.cost net p.costs = .ok c.cost ∧ last.2.total = c.cost := by
  obtain ⟨u, hu, hum, hn⟩ := ht.noted _ _ hc
  have hlen := (hu.perm_range hum).length_eq
  rw [List.length_range] at hlen
  obtain ⟨root, a, ha, hcost⟩ := Shape.exists_assemble_cost hnet hu hcosts
  obtain ⟨k, hk, hkc⟩ := hn.exists_choice
  obtain rfl := Except.ok.inj (hcost.symm.trans hk)
  rw [hum, hc] at hkc
  cases hkc
  refine ⟨u, (root, a), hu, hum, hlen, ?_, hk, rfl⟩
  rw [← hum, hn.rebuild_eq hu hlen.le, ha]

/-- **A tree that the table has for all factors passed the bound.** -/
theorem exists_rebuild (hnet : net.Lawful) {p : Problem} (hcosts : ∀ c ∈ p.costs, c.Over s)
    (hbo : p.bound.Over s) (hbr : p.bound.Reduced) (hp : p.prune = true)
    (h3 : 3 ≤ net.numFactors) {t : Table} (ht : Filled net p (Sized net net.numFactors) t)
    {c : Choice} (hc : t.choices[Subset.full net.numFactors]? = some c) :
    ∃ last, rebuild net t net.numFactors (Subset.full net.numFactors) { costs := p.costs } =
        .ok last ∧ ∃ o, last.2.total.cmp p.bound = .ok o ∧ o ≠ .gt := by
  obtain ⟨u, last, hu, hum, hlen, hread, hcost, htotal⟩ := exists_read hnet hcosts ht hc
  refine ⟨last, hread, ?_⟩
  rw [htotal]
  have hbelow : p.bound.lt c.cost = .ok false := by
    refine (ht.below _ _ hc).resolve_left ?_ hp
    rintro ⟨f, hf⟩
    cases u with
    | leaf g =>
      rw [Shape.length_factors_leaf] at hlen
      omega
    | join l r => exact Shape.mask_join_ne_single hu f (hum.trans hf)
  obtain ⟨d, hd, ho, hr, -⟩ := u.cost_spec net hcosts
  obtain rfl := Except.ok.inj (hcost.symm.trans hd)
  rw [Cost.lt_of_over hbo ho hbr hr] at hbelow
  have hle := of_decide_eq_false (Except.ok.inj hbelow)
  refine ⟨_, Cost.cmp_of_over ho hbo hr hbr, fun hgt => hle ?_⟩
  exact Nat.compare_eq_gt.1 hgt

/-- **The search is never worse than taking the factors as they come**, whatever saturates. -/
theorem optimal_le_leftToRight {factors : List Factor} {output : Option (List Label)}
    (hbuild : Network.build factors output = .ok net) (hmax : net.numFactors ≤ maxSearchFactors)
    (hcosts : ∃ s, ∀ c ∈ model.resolve net, c.Over s) :
    ∃ t reference : ContractionTree, optimal net model true = .ok t ∧
      leftToRight net model = .ok reference ∧
      ∃ o, t.cost.cmp reference.cost = .ok o ∧ o ≠ .gt := by
  obtain ⟨s, hcosts⟩ := hcosts
  obtain ⟨hnet, -⟩ := Network.lawful_of_build hbuild
  obtain ⟨reference, href, hro, hrr⟩ := exists_leftToRight hnet hcosts
  have hself : ∃ o, reference.cost.cmp reference.cost = .ok o ∧ o ≠ .gt := by
    refine ⟨_, Cost.cmp_of_over hro hro hrr hrr, ?_⟩
    rw [Nat.compare_eq_eq.2 rfl]
    decide
  have hnot : ¬ maxSearchFactors < net.numFactors := by omega
  simp only [optimal, hnot, if_false, href, ok_bind, pure_eq_ok]
  by_cases h2 : net.numFactors ≤ 2
  · exact ⟨reference, reference, if_pos h2, rfl, hself⟩
  obtain ⟨table, htable, hfilled⟩ := exists_filled (p := ⟨model.resolve net, reference.cost, true⟩)
    hcosts hro hrr hnet
  simp only [h2, if_false, htable, ok_bind]
  cases hall : table.choices[Subset.full net.numFactors]? with
  | none =>
    have hmiss : table.choices.contains (Subset.full net.numFactors) = false := by
      rw [Std.HashMap.contains_eq_isSome_getElem?, hall]
      rfl
    refine ⟨reference, reference, ?_, rfl, hself⟩
    rw [hmiss]
    rfl
  | some c =>
    have hhit : table.choices.contains (Subset.full net.numFactors) = true := by
      rw [Std.HashMap.contains_eq_isSome_getElem?, hall]
      rfl
    obtain ⟨last, hlast, o, ho, hle⟩ :=
      exists_rebuild hnet hcosts hro hrr rfl (by omega) hfilled hall
    refine ⟨Assembly.finish last, reference, ?_, rfl, o, ho, hle⟩
    rw [hhit, hlast]
    rfl

/-- The product of three matrices whose labels cost so much that every join saturates, in the
coefficient and in the exponent. -/
theorem optimal_le_leftToRight_saturated :
    ∃ (m : CostModel) (t reference : ContractionTree),
      m = ⟨[], .power "χ" (.ofNat _ (2 ^ 127)) (.ofNat _ (2 ^ 31))⟩ ∧
      optimal .chain m true = .ok t ∧ leftToRight .chain m = .ok reference ∧
      reference.cost = .power "χ" (.ofNat _ (2 ^ 128 - 1)) (.ofNat _ (2 ^ 32 - 1)) ∧
      ∃ o, t.cost.cmp reference.cost = .ok o ∧ o ≠ .gt := by
  obtain ⟨m, hm⟩ : ∃ m : CostModel,
    m = ⟨[], .power "χ" (.ofNat _ (2 ^ 127)) (.ofNat _ (2 ^ 31))⟩ := ⟨_, rfl⟩
  have hcosts : ∃ s, ∀ c ∈ m.resolve .chain, c.Over s := by
    refine ⟨"χ", fun c hc => ?_⟩
    obtain ⟨l, -, rfl⟩ := List.mem_map.1 hc
    rw [hm, CostModel.costOf, List.lookup_nil, Option.getD_none]
    exact Cost.over_power "χ" (.ofNat _ (2 ^ 127)) (.ofNat _ (2 ^ 31))
  obtain ⟨t, reference, ht, href, hle⟩ :=
    optimal_le_leftToRight Network.build_chain (by decide) hcosts
  refine ⟨m, t, reference, hm, ht, href, ?_, hle⟩
  have hcost : (leftToRight .chain m).map ContractionTree.cost =
      .ok (.power "χ" (.ofNat _ (2 ^ 128 - 1)) (.ofNat _ (2 ^ 32 - 1))) := by
    rw [hm]
    cbv
  rw [href] at hcost
  exact Except.ok.inj hcost

end ContractionTree

end TensorNet
