import TensorNet.Proofs.Tree.Canonical

/-!
# What the search finds

The table of the search holds, for every set of factors it has been through, the open labels of the
set and the cost and left part of its canonical tree. With bounds a set is missing exactly when its
canonical tree costs more than the bound.

## Why bounds do no harm

* A set dropped by the bound has only trees above the bound, and so has every set that contains it.
  The canonical tree of all factors is not above the bound, which is the cost of some tree, so none
  of its parts is dropped.
* A split that is passed over because its parts cost as much as the best split so far costs at
  least as much as that one, and a later split is kept only if it is strictly cheaper.

So the table without bounds agrees with the one with bounds on every set that is in the latter.

## For any costs

What a split can do (`consider_cases`), that the parts of a set have been through before it
(`parts_mem_of_schedule`), that its open labels can be noted then (`exists_noteOpen`), that the
search keeps what solving one set keeps (`Keeps`) and that a tree whose parts are all in the table
is read off it (`Noted.rebuild_eq`) does not depend on how costs compare.
-/

namespace TensorNet.Search

/-- The canonical tree of a set is not dropped by the bound. -/
def Kept (cap : Nat → Nat) (net : Network) (p : Problem) (u : Shape) : Prop :=
  p.prune = true → cap (u.weight net p.costs) ≤ p.bound.rank

/-- The left part noted for a tree. -/
def leftMask : Shape → Nat
  | .leaf _ => 0
  | .join l _ => l.mask

/-- What a table knows of the set of factors of its canonical tree. -/
structure Knows (cap : Nat → Nat) (net : Network) (p : Problem) (t : Table) (u : Shape) : Prop where
  openSet : ∃ o, t.openSets[u.mask]? = some o ∧
    ∀ i, o.contains i = (net.openIn u.factors).contains i
  kept : Kept cap net p u → ∃ k, u.cost net p.costs = .ok k ∧
    t.choices[u.mask]? = some ⟨k, leftMask u⟩
  dropped : ¬ Kept cap net p u → t.choices[u.mask]? = none

variable {net : Network} {p : Problem} {sym : String} {cap : Nat → Nat}

/-! ### The three tests -/

theorem hopeless_eq {parts : Cost} {best : Option Choice} (ho : parts.Over sym)
    (hr : parts.Reduced) (hbest : ∀ b ∈ best, b.cost.Over sym ∧ b.cost.Reduced) :
    hopeless p.prune parts best =
      .ok (decide (p.prune = true ∧ ∃ b ∈ best, b.cost.rank ≤ parts.rank)) := by
  unfold hopeless
  cases hp : p.prune with
  | false => simp
  | true =>
    cases best with
    | none => simp
    | some b =>
      obtain ⟨hbo, hbr⟩ := hbest b rfl
      simp only [Cost.lt_of_over ho hbo hr hbr, ok_bind, pure_eq_ok, Option.mem_some,
        exists_eq_left', true_and]
      rw [← decide_not]
      exact congrArg Except.ok (decide_eq_decide.2 (by omega))

theorem aboveBound_eq {total : Cost} (hbo : p.bound.Over sym) (hbr : p.bound.Reduced)
    (ho : total.Over sym) (hr : total.Reduced) :
    aboveBound p total = .ok (decide (p.prune = true ∧ p.bound.rank < total.rank)) := by
  unfold aboveBound
  cases hp : p.prune with
  | false => simp
  | true =>
    rw [if_pos rfl, Cost.lt_of_over hbo ho hbr hr]
    simp

theorem improves_eq {total : Cost} {best : Option Choice} (ho : total.Over sym)
    (hr : total.Reduced) (hbest : ∀ b ∈ best, b.cost.Over sym ∧ b.cost.Reduced) :
    improves total best = .ok (decide (∀ b ∈ best, total.rank < b.cost.rank)) := by
  unfold improves
  cases best with
  | none => simp
  | some b =>
    obtain ⟨hbo, hbr⟩ := hbest b rfl
    simp [Cost.lt_of_over ho hbo hr hbr]

/-! ### One split -/

/-- The open labels noted for a set of factors are those that stand once in them. -/
def NotesOpen (net : Network) (t : Table) (u : Shape) : Prop :=
  ∃ o, t.openSets[u.mask]? = some o ∧ ∀ i, o.contains i = (net.openIn u.factors).contains i

/-- The open labels noted for two sets price their join. -/
theorem joinCost_of_notesOpen {t : Table} {l r : Shape} (hl : NotesOpen net t l)
    (hr : NotesOpen net t r) : Search.joinCost p t l.mask r.mask =
      TensorNet.joinCost p.costs (net.openIn l.factors) (net.openIn r.factors) := by
  obtain ⟨o, ho, hoi⟩ := hl
  obtain ⟨o', ho', hoi'⟩ := hr
  simp only [Search.joinCost, ho, ho']
  exact joinCost_congr fun i => by rw [hoi, hoi']

/-- **What a split can do**: it changes nothing, or its parts are in the table, it costs what they
and their join cost, and it is not above the bound. -/
theorem consider_cases {t : Table} {best best' : Option Choice} {l r : Nat}
    (h : consider p t best l r = .ok best') : best' = best ∨ ∃ x y parts join total,
      t.choices[l]? = some x ∧ t.choices[r]? = some y ∧ x.cost.add y.cost = .ok parts ∧
      Search.joinCost p t l r = .ok join ∧ parts.add join = .ok total ∧
      aboveBound p total = .ok false ∧ best' = some ⟨total, l⟩ := by
  unfold consider at h
  split at h
  · next x y hx hy =>
    obtain ⟨parts, hparts, h⟩ := bind_eq_ok.1 h
    obtain ⟨skip, -, h⟩ := bind_eq_ok.1 h
    split at h
    · exact .inl (Except.ok.inj h).symm
    · obtain ⟨join, hjoin, h⟩ := bind_eq_ok.1 h
      obtain ⟨total, htotal, h⟩ := bind_eq_ok.1 h
      obtain ⟨above, habove, h⟩ := bind_eq_ok.1 h
      cases above with
      | true => exact .inl (Except.ok.inj h).symm
      | false =>
        obtain ⟨better, -, h⟩ := bind_eq_ok.1 h
        cases better with
        | true => exact .inr ⟨x, y, parts, join, total, hx, hy, hparts, hjoin, htotal, habove,
            (Except.ok.inj h).symm⟩
        | false => exact .inl (Except.ok.inj h).symm
  · exact .inl (Except.ok.inj h).symm

/-- **A split whose parts are in the table** is taken up if the three tests let it through. -/
theorem consider_eq {t : Table} {best : Option Choice} {l r : Nat} {x y : Choice}
    {parts join total : Cost} (hx : t.choices[l]? = some x) (hy : t.choices[r]? = some y)
    (hparts : x.cost.add y.cost = .ok parts) (hjoin : Search.joinCost p t l r = .ok join)
    (htotal : parts.add join = .ok total) (hpo : parts.Over sym) (hpr : parts.Reduced)
    (hto : total.Over sym) (htr : total.Reduced) (hbo : p.bound.Over sym) (hbr : p.bound.Reduced)
    (hbest : ∀ b ∈ best, b.cost.Over sym ∧ b.cost.Reduced) :
    consider p t best l r = .ok (
      if p.prune = true ∧ ∃ b ∈ best, b.cost.rank ≤ parts.rank then best
      else if p.prune = true ∧ p.bound.rank < total.rank then best
      else if ∀ b ∈ best, total.rank < b.cost.rank then some ⟨total, l⟩
      else best) := by
  simp only [consider, hx, hy, hparts, hjoin, htotal, ok_bind, pure_eq_ok, decide_eq_true_eq,
    hopeless_eq hpo hpr hbest, aboveBound_eq hbo hbr hto htr, improves_eq hto htr hbest]
  split
  · rfl
  · split
    · rfl
    · split
      · rfl
      · rfl

variable (g : Gauge net p.costs sym cap) (hbo : p.bound.Over sym) (hbr : p.bound.Reduced)
include g hbo hbr

omit g hbo hbr in
theorem consider_of_not_kept {t : Table} {l r : Shape} (hl : Knows cap net p t l)
    (hr : Knows cap net p t r) (h : ¬ (Kept cap net p l ∧ Kept cap net p r))
    (best : Option Choice) : consider p t best l.mask r.mask = .ok best := by
  by_cases hkl : Kept cap net p l
  · have hkr : ¬ Kept cap net p r := fun hkr => h ⟨hkl, hkr⟩
    simp only [consider, hr.dropped hkr]
    split <;> simp_all
  · simp only [consider, hl.dropped hkl]

/-- With both parts in the table, the three tests ask for the bound and for the best so far. -/
theorem consider_of_kept {t : Table} {best : Option Choice} {l r : Shape}
    (hl : Knows cap net p t l) (hr : Knows cap net p t r) (hkl : Kept cap net p l)
    (hkr : Kept cap net p r) (hw : (Shape.join l r).Within net.numFactors)
    (hbest : ∀ b ∈ best, b.cost.Over sym ∧ b.cost.Reduced) {k : Cost}
    (hk : (Shape.join l r).cost net p.costs = .ok k) :
    ((Kept cap net p (.join l r) ∧ ∀ b ∈ best, k.rank < b.cost.rank) ∧
        consider p t best l.mask r.mask = .ok (some ⟨k, l.mask⟩)) ∨
      (¬ (Kept cap net p (.join l r) ∧ ∀ b ∈ best, k.rank < b.cost.rank) ∧
        consider p t best l.mask r.mask = .ok best) := by
  obtain ⟨k', hk', hko, hkr', -⟩ := (Shape.join l r).cost_spec net g.costs_over
  obtain rfl := Except.ok.inj (hk.symm.trans hk')
  have hrank := g.rank_cost hw hk
  obtain ⟨a, ha, hla⟩ := hl.kept hkl
  obtain ⟨b, hb, hrb⟩ := hr.kept hkr
  unfold Shape.cost at hk
  rw [ha, ok_bind, hb, ok_bind] at hk
  obtain ⟨q, hq, hk⟩ := bind_eq_ok.1 hk
  obtain ⟨c, hc, hk⟩ := bind_eq_ok.1 hk
  have hjoin : Search.joinCost p t l.mask r.mask = .ok c :=
    (joinCost_of_notesOpen hl.openSet hr.openSet).trans hc
  have hqk : q.rank ≤ k.rank := by
    rw [g.rank_parts hw ha hb hq, hrank]
    exact Shape.weight_parts_le g l r
  obtain ⟨hqo, hqd⟩ : q.Over sym ∧ q.Reduced := by
    obtain ⟨a', ha', hao, -⟩ := l.cost_spec net g.costs_over
    obtain ⟨b', hb', hbo, -⟩ := r.cost_spec net g.costs_over
    obtain rfl := Except.ok.inj (ha.symm.trans ha')
    obtain rfl := Except.ok.inj (hb.symm.trans hb')
    obtain ⟨q', hq', ho, hr, -⟩ := Cost.add_of_over hao hbo
    obtain rfl := Except.ok.inj (hq.symm.trans hq')
    exact ⟨ho, hr⟩
  rw [consider_eq hla hrb hq hjoin hk hqo hqd hko hkr' hbo hbr hbest]
  by_cases hh : p.prune = true ∧ ∃ b ∈ best, b.cost.rank ≤ q.rank
  · refine .inr ⟨fun h => ?_, congrArg _ (if_pos hh)⟩
    obtain ⟨-, b, hb, hle⟩ := hh
    have := h.2 b hb
    omega
  rw [if_neg hh]
  by_cases ha : p.prune = true ∧ p.bound.rank < k.rank
  · refine .inr ⟨fun h => ?_, congrArg _ (if_pos ha)⟩
    have := h.1 ha.1
    omega
  rw [if_neg ha]
  have hkept : Kept cap net p (.join l r) := by
    intro hp
    rw [← hrank]
    exact Nat.le_of_not_lt fun hlt => ha ⟨hp, hlt⟩
  by_cases hi : ∀ b ∈ best, k.rank < b.cost.rank
  · exact .inl ⟨⟨hkept, hi⟩, congrArg _ (if_pos hi)⟩
  · exact .inr ⟨fun h => hi h.2, congrArg _ (if_neg hi)⟩

omit hbo hbr in
theorem Kept.parts {l r : Shape} (h : Kept cap net p (.join l r)) :
    Kept cap net p l ∧ Kept cap net p r :=
  ⟨fun hp => Nat.le_trans (Shape.weight_left_le g l r) (h hp),
    fun hp => Nat.le_trans (Shape.weight_right_le g l r) (h hp)⟩

/-- **A split is kept if it is not dropped by the bound and strictly cheaper than the best so
far.** -/
theorem consider_spec {t : Table} {best : Option Choice} {l r : Shape}
    (hl : Knows cap net p t l) (hr : Knows cap net p t r)
    (hw : (Shape.join l r).Within net.numFactors)
    (hbest : ∀ b ∈ best, b.cost.Over sym ∧ b.cost.Reduced) :
    ∃ k, (Shape.join l r).cost net p.costs = .ok k ∧
      (((Kept cap net p (.join l r) ∧ ∀ b ∈ best, k.rank < b.cost.rank) ∧
          consider p t best l.mask r.mask = .ok (some ⟨k, l.mask⟩)) ∨
        (¬ (Kept cap net p (.join l r) ∧ ∀ b ∈ best, k.rank < b.cost.rank) ∧
          consider p t best l.mask r.mask = .ok best)) := by
  obtain ⟨k, hk, -⟩ := (Shape.join l r).cost_spec net g.costs_over
  refine ⟨k, hk, ?_⟩
  by_cases h : Kept cap net p l ∧ Kept cap net p r
  · exact consider_of_kept g hbo hbr hl hr h.1 h.2 hw hbest hk
  · exact .inr ⟨fun hj => h (hj.1.parts g), consider_of_not_kept hl hr h best⟩

/-! ### One set -/

omit hbo hbr in
/-- Every set of factors that a tree has is solved by a tree. -/
theorem exists_solves {s : Nat} (h : ∃ v : Shape, v.Within net.numFactors ∧ v.mask = s) :
    ∃ v : Shape, v.Solves net p.costs s := by
  obtain ⟨v, hv, rfl⟩ := h
  exact Shape.exists_solves g hv

/-- The best choice after some of the splits of a set: none of them is kept, or it is the first of
the cheapest. -/
structure Best (cap : Nat → Nat) (net : Network) (p : Problem) (pre : List (Nat × Nat))
    (best : Option Choice) : Prop where
  unkept : best = none → ∀ l r : Shape, (l.mask, r.mask) ∈ pre → l.Solves net p.costs l.mask →
    r.Solves net p.costs r.mask → ¬ Kept cap net p (.join l r)
  found : ∀ b, best = some b → ∃ l r : Shape, (l.mask, r.mask) ∈ pre ∧
    l.Solves net p.costs l.mask ∧ r.Solves net p.costs r.mask ∧ Kept cap net p (.join l r) ∧
    (Shape.join l r).cost net p.costs = .ok b.cost ∧ b.left = l.mask ∧
    ∀ l' r' : Shape, (l'.mask, r'.mask) ∈ pre → l'.Solves net p.costs l'.mask →
      r'.Solves net p.costs r'.mask →
      cap ((Shape.join l r).weight net p.costs) ≤ cap ((Shape.join l' r').weight net p.costs) ∧
        (l.mask < l'.mask → cap ((Shape.join l r).weight net p.costs) <
          cap ((Shape.join l' r').weight net p.costs))

omit g hbo hbr in
theorem lt_of_kept {u v : Shape} (hu : Kept cap net p u) (hv : ¬ Kept cap net p v) :
    cap (u.weight net p.costs) < cap (v.weight net p.costs) := by
  by_cases hp : p.prune = true
  · refine Nat.lt_of_le_of_lt (hu hp) (Nat.lt_of_not_le fun hle => hv fun _ => hle)
  · exact absurd (fun h => absurd h hp) hv

omit g hbo hbr in
/-- A split that is kept and cheaper than the best so far is the first of the cheapest. -/
theorem best_take {pre : List (Nat × Nat)} {l r : Shape} {k : Cost}
    (hl : l.Solves net p.costs l.mask) (hr : r.Solves net p.costs r.mask)
    (hk : Kept cap net p (.join l r))
    (hcost : (Shape.join l r).cost net p.costs = .ok k)
    (hlt : ∀ l' r' : Shape, (l'.mask, r'.mask) ∈ pre → l'.Solves net p.costs l'.mask →
      r'.Solves net p.costs r'.mask →
      cap ((Shape.join l r).weight net p.costs) < cap ((Shape.join l' r').weight net p.costs)) :
    Best cap net p (pre ++ [(l.mask, r.mask)]) (some ⟨k, l.mask⟩) := by
  refine ⟨nofun, fun b hb => ?_⟩
  cases hb
  refine ⟨l, r, List.mem_append_right _ (List.mem_singleton_self _), hl, hr, hk, hcost, rfl,
    fun l' r' hmem hl' hr' => ?_⟩
  rcases List.mem_append.1 hmem with hmem | hmem
  · have := hlt l' r' hmem hl' hr'
    exact ⟨by omega, fun _ => this⟩
  · obtain ⟨h1, h2⟩ := Prod.mk.inj (List.mem_singleton.1 hmem)
    rw [h1] at hl'
    rw [h2] at hr'
    rw [hl'.unique hl, hr'.unique hr]
    exact ⟨Nat.le_refl _, fun h => absurd h (Nat.lt_irrefl _)⟩

omit g hbo hbr in
/-- A split that is dropped or not cheaper than the best so far leaves the best as it is. -/
theorem Best.keep {pre : List (Nat × Nat)} {b : Option Choice} {l r : Shape}
    (hb : Best cap net p pre b) (hl : l.Solves net p.costs l.mask)
    (hr : r.Solves net p.costs r.mask) (hdesc : ∀ x ∈ pre, l.mask < x.1)
    (hnone : b = none → ¬ Kept cap net p (.join l r))
    (hle : ∀ b₀, b = some b₀ → ∀ l₀ r₀ : Shape, (l₀.mask, r₀.mask) ∈ pre →
      l₀.Solves net p.costs l₀.mask → r₀.Solves net p.costs r₀.mask →
      Kept cap net p (.join l₀ r₀) → (Shape.join l₀ r₀).cost net p.costs = .ok b₀.cost →
      cap ((Shape.join l₀ r₀).weight net p.costs) ≤ cap ((Shape.join l r).weight net p.costs)) :
    Best cap net p (pre ++ [(l.mask, r.mask)]) b := by
  have hnew : ∀ l' r' : Shape, (l'.mask, r'.mask) ∈ pre ++ [(l.mask, r.mask)] →
      l'.Solves net p.costs l'.mask → r'.Solves net p.costs r'.mask →
      (l'.mask, r'.mask) ∈ pre ∨ (l' = l ∧ r' = r) := by
    intro l' r' hmem hl' hr'
    rcases List.mem_append.1 hmem with hmem | hmem
    · exact .inl hmem
    · obtain ⟨h1, h2⟩ := Prod.mk.inj (List.mem_singleton.1 hmem)
      rw [h1] at hl'
      rw [h2] at hr'
      exact .inr ⟨hl'.unique hl, hr'.unique hr⟩
  refine ⟨fun h l' r' hmem hl' hr' => ?_, fun b₀ h => ?_⟩
  · rcases hnew l' r' hmem hl' hr' with hmem | ⟨rfl, rfl⟩
    · exact hb.unkept h l' r' hmem hl' hr'
    · exact hnone h
  · obtain ⟨l₀, r₀, hmem₀, hl₀, hr₀, hk₀, hc₀, hm₀, hmin⟩ := hb.found b₀ h
    refine ⟨l₀, r₀, List.mem_append_left _ hmem₀, hl₀, hr₀, hk₀, hc₀, hm₀,
      fun l' r' hmem hl' hr' => ?_⟩
    rcases hnew l' r' hmem hl' hr' with hmem | ⟨rfl, rfl⟩
    · exact hmin l' r' hmem hl' hr'
    · have := hdesc _ hmem₀
      exact ⟨hle b₀ h l₀ r₀ hmem₀ hl₀ hr₀ hk₀ hc₀, fun h => absurd this (Nat.lt_asymm h)⟩

omit hbo hbr in
theorem Best.over {pre : List (Nat × Nat)} {best : Option Choice} (h : Best cap net p pre best) :
    ∀ b ∈ best, b.cost.Over sym ∧ b.cost.Reduced := by
  intro b hb
  obtain ⟨l, r, -, -, -, -, hcost, -⟩ := h.found b hb
  obtain ⟨c, hc, ho, hr, -⟩ := (Shape.join l r).cost_spec net g.costs_over
  obtain rfl := Except.ok.inj (hcost.symm.trans hc)
  exact ⟨ho, hr⟩

/-- One more split of a set. -/
theorem Best.step {t : Table} {u : Shape} (hu : u.Solves net p.costs u.mask)
    {pre post : List (Nat × Nat)} {x : Nat × Nat} {b : Option Choice}
    (hsplit : splits u.mask = pre ++ x :: post) (hb : Best cap net p pre b)
    (hknow : ∀ v : Shape, v.Solves net p.costs x.1 ∨ v.Solves net p.costs x.2 →
      Knows cap net p t v) :
    ∃ b', consider p t b x.1 x.2 = .ok b' ∧ Best cap net p (pre ++ [x]) b' := by
  have hx : x ∈ splits u.mask := hsplit ▸ List.mem_append_right _ List.mem_cons_self
  obtain ⟨⟨v, hv, hvm, -⟩, ⟨w, hw, hwm, -⟩⟩ := hu.within.exists_parts hx
  obtain ⟨l, hl⟩ := exists_solves g ⟨v, hv, hvm⟩
  obtain ⟨r, hr⟩ := exists_solves g ⟨w, hw, hwm⟩
  obtain ⟨x1, x2⟩ := x
  obtain rfl : l.mask = x1 := hl.mask
  obtain rfl : r.mask = x2 := hr.mask
  obtain ⟨hjw, -, -⟩ := Shape.join_of_mem_splits hl.within hr.within hx
  have hbelow : ∀ y ∈ pre, l.mask < y.1 := by
    intro y hy
    obtain ⟨m, hm⟩ := Subset.exists_hasLowest u.mask_ne_zero
    have hdesc := hm.pairwise_splits
    rw [hsplit, List.pairwise_append] at hdesc
    exact hdesc.2.2 y hy _ List.mem_cons_self
  have hrank₀ : ∀ b₀, b = some b₀ → ∀ l₀ r₀ : Shape, (l₀.mask, r₀.mask) ∈ pre →
      l₀.Solves net p.costs l₀.mask → r₀.Solves net p.costs r₀.mask →
      (Shape.join l₀ r₀).cost net p.costs = .ok b₀.cost →
      b₀.cost.rank = cap ((Shape.join l₀ r₀).weight net p.costs) := by
    intro b₀ _ l₀ r₀ hmem hl₀ hr₀ hc₀
    exact g.rank_cost (Shape.join_of_mem_splits (u := u) hl₀.within hr₀.within
      (hsplit ▸ List.mem_append_left _ hmem)).1 hc₀
  obtain ⟨k, hk, hcase⟩ := consider_spec g hbo hbr (hknow l (.inl hl)) (hknow r (.inr hr)) hjw
    (hb.over g)
  have hrank := g.rank_cost hjw hk
  rcases hcase with ⟨⟨hkept, hlt⟩, hc⟩ | ⟨hnot, hc⟩
  · refine ⟨_, hc, best_take hl hr hkept hk fun l' r' hmem hl' hr' => ?_⟩
    cases b with
    | none => exact lt_of_kept hkept (hb.unkept rfl l' r' hmem hl' hr')
    | some b₀ =>
      obtain ⟨l₀, r₀, hmem₀, hl₀, hr₀, -, hc₀, -, hmin⟩ := hb.found b₀ rfl
      have h1 := hlt b₀ rfl
      rw [hrank, hrank₀ b₀ rfl l₀ r₀ hmem₀ hl₀ hr₀ hc₀] at h1
      have h2 := (hmin l' r' hmem hl' hr').1
      omega
  · refine ⟨b, hc, hb.keep hl hr hbelow (fun h hk => hnot ⟨hk, ?_⟩) ?_⟩
    · subst h
      exact fun _ h => nomatch h
    · rintro b₀ rfl l₀ r₀ hmem₀ hl₀ hr₀ hk₀ hc₀
      by_cases hk' : Kept cap net p (.join l r)
      · have h1 : ¬ k.rank < b₀.cost.rank := by
          intro hlt
          apply hnot
          refine ⟨hk', fun b hb => ?_⟩
          cases hb
          exact hlt
        rw [hrank, hrank₀ b₀ rfl l₀ r₀ hmem₀ hl₀ hr₀ hc₀] at h1
        omega
      · have := lt_of_kept hk₀ hk'
        omega

/-- **The best choice for a set is its canonical tree, unless that is dropped by the bound.** -/
theorem best_spec {t : Table} {u : Shape} {s : Nat} (hu : u.Solves net p.costs s)
    (hleaf : ∀ f, u ≠ .leaf f)
    (hknow : ∀ x ∈ splits s, ∀ v : Shape, v.Solves net p.costs x.1 ∨ v.Solves net p.costs x.2 →
      Knows cap net p t v) :
    ∃ b, best p t s = .ok b ∧
      (Kept cap net p u → ∃ k, u.cost net p.costs = .ok k ∧ b = some ⟨k, leftMask u⟩) ∧
      (¬ Kept cap net p u → b = none) := by
  obtain rfl : u.mask = s := hu.mask
  have hstart : Best cap net p [] none :=
    ⟨fun _ _ _ h => (List.not_mem_nil h).elim, fun _ h => nomatch h⟩
  obtain ⟨b, hb, hbest⟩ := exists_foldlM (Best cap net p) (fun pre x post b hsplit h =>
    h.step g hbo hbr hu hsplit
      (hknow x (hsplit ▸ List.mem_append_right _ List.mem_cons_self))) hstart
  refine ⟨b, hb, ?_⟩
  cases u with
  | leaf f => exact absurd rfl (hleaf f)
  | join l r =>
    obtain ⟨hl, hr, hin⟩ := hu.parts
    cases b with
    | none =>
      have hn := hbest.unkept rfl l r hin hl hr
      exact ⟨fun hk => absurd hk hn, fun _ => rfl⟩
    | some b₀ =>
      obtain ⟨l₀, r₀, hmem₀, hl₀, hr₀, hk₀, hc₀, hm₀, hmin⟩ := hbest.found b₀ rfl
      have hsol := Shape.solves_join g hl₀ hr₀ hmem₀ (fun l' r' => hmin l' r')
        (fun s hs => hs.elim fun v hv => exists_solves g ⟨v, hv.1, hv.2.1⟩) hu.within
      obtain ⟨rfl, rfl⟩ := Shape.join.inj (hsol.unique hu)
      refine ⟨fun _ => ⟨b₀.cost, hc₀, ?_⟩, fun hn => absurd hk₀ hn⟩
      rw [leftMask, ← hm₀]

/-- The table knows the sets that have been through, and has no choice for any other. -/
structure Progress (cap : Nat → Nat) (net : Network) (p : Problem) (done : Nat → Prop)
    (t : Table) : Prop where
  known : ∀ s, done s → ∀ u : Shape, u.Solves net p.costs s → Knows cap net p t u
  unknown : ∀ s, ¬ done s → t.choices[s]? = none

omit g hbo hbr in
theorem Knows.insertOpen {t : Table} {u : Shape} (h : Knows cap net p t u) {s : Nat}
    (hne : u.mask ≠ s) (o : LabelSet) :
    Knows cap net p { t with openSets := t.openSets.insert s o } u := by
  refine ⟨?_, h.kept, h.dropped⟩
  obtain ⟨o', ho', hi⟩ := h.openSet
  refine ⟨o', ?_, hi⟩
  rw [Std.HashMap.getElem?_insert, if_neg (by simpa using Ne.symm hne)]
  exact ho'

omit g hbo hbr in
theorem Knows.insertChoice {t : Table} {u : Shape} (h : Knows cap net p t u) {s : Nat}
    (hne : u.mask ≠ s) (c : Choice) :
    Knows cap net p { t with choices := t.choices.insert s c } u := by
  have hget : (t.choices.insert s c)[u.mask]? = t.choices[u.mask]? := by
    rw [Std.HashMap.getElem?_insert, if_neg (by simpa using Ne.symm hne)]
  exact ⟨h.openSet, fun hk => by rw [hget]; exact h.kept hk,
    fun hk => by rw [hget]; exact h.dropped hk⟩

omit g hbo hbr in
theorem NotesOpen.congr {t : Table} {u v : Shape} (h : NotesOpen net t u)
    (hm : u.mask = v.mask) : NotesOpen net t v := by
  obtain ⟨o, ho, hi⟩ := h
  refine ⟨o, hm ▸ ho, fun i => ?_⟩
  rw [hi, Network.openIn_congr (Shape.mask_eq_iff.1 hm)]

omit g hbo hbr in
/-- Where the open labels of the parts are noted, those of the set can be. -/
theorem exists_noteOpen (hnet : net.Lawful) {t : Table} {l r : Shape}
    (hw : (Shape.join l r).Within net.numFactors)
    (hparts : ∀ x ∈ splits (Shape.join l r).mask, ∀ v : Shape, v.Within net.numFactors →
      v.mask = x.1 ∨ v.mask = x.2 → NotesOpen net t v) :
    ∃ o, noteOpen t (Shape.join l r).mask =
        .ok { t with openSets := t.openSets.insert (Shape.join l r).mask o } ∧
      ∀ i, o.contains i = (net.openIn (Shape.join l r).factors).contains i := by
  obtain ⟨m, hm⟩ := Subset.exists_hasLowest (Shape.join l r).mask_ne_zero
  have hmf : m ∈ (Shape.join l r).factors := (Shape.hasLowest_mask.1 hm).1
  have hin : (Subset.single m, (Shape.join l r).mask ^^^ Subset.single m) ∈
      splits (Shape.join l r).mask := by
    refine hm.mem_splits.2 ⟨fun i hi => ?_, by simp, ?_, rfl⟩
    · rw [Subset.mem_single.1 hi]
      exact hm.mem
    · exact (Shape.mask_join_ne_single hw m).symm
  obtain ⟨-, v, hv, hvm, -⟩ := hw.exists_parts hin
  have hleaf : (Shape.leaf m).Within net.numFactors := Shape.within_leaf (hw.lt m hmf)
  obtain ⟨a, ha, hai⟩ := hparts _ hin _ hleaf (.inl (Shape.mask_leaf m))
  obtain ⟨b, hb, hbi⟩ := hparts _ hin _ hv (.inr hvm)
  rw [Shape.mask_leaf] at ha
  rw [hvm] at hb
  have hdrop : Subset.dropLowest (Shape.join l r).mask =
      (Shape.join l r).mask ^^^ Subset.single m := by
    rw [hm.dropLowest_eq, Nat.xor_comm]
  refine ⟨a.symmDiff b, ?_, fun i => ?_⟩
  · simp only [noteOpen, hm.lowest_eq, hdrop, ha, hb]
  · obtain ⟨hjw, hjm, -⟩ := Shape.join_of_mem_splits (u := .join l r) (l := .leaf m)
      hleaf hv (by rw [Shape.mask_leaf, hvm]; exact hin)
    rw [LabelSet.contains_symmDiff, hai, hbi, ← hnet.contains_openIn_append hjw.disjoint]
    exact congrArg (fun o => LabelSet.contains o i)
      (Network.openIn_congr (Shape.mask_eq_iff.1 hjm))

omit hbo hbr in
/-- The open labels noted for a set are those of its factors. -/
theorem noteOpen_spec (hnet : net.Lawful) {t : Table} {done : Nat → Prop} {l r : Shape}
    (h : Progress cap net p done t) (hw : (Shape.join l r).Within net.numFactors)
    (hparts : ∀ x ∈ splits (Shape.join l r).mask, done x.1 ∧ done x.2) :
    ∃ o, noteOpen t (Shape.join l r).mask =
        .ok { t with openSets := t.openSets.insert (Shape.join l r).mask o } ∧
      ∀ i, o.contains i = (net.openIn (Shape.join l r).factors).contains i := by
  have hopen : ∀ v : Shape, v.Within net.numFactors → done v.mask → NotesOpen net t v := by
    intro v hv hd
    obtain ⟨u, hu⟩ := exists_solves g ⟨v, hv, rfl⟩
    exact NotesOpen.congr (h.known _ hd u hu).openSet hu.mask
  refine exists_noteOpen hnet hw fun x hx v hv hvx => hopen v hv ?_
  rcases hvx with hvx | hvx
  · exact hvx ▸ (hparts x hx).1
  · exact hvx ▸ (hparts x hx).2

omit g hbo hbr in
/-- One more set that the table knows. -/
theorem Progress.add {t t' : Table} {done : Nat → Prop} {s : Nat} {u : Shape}
    (h : Progress cap net p done t) (hu : u.Solves net p.costs s) (hnew : Knows cap net p t' u)
    (hold : ∀ v : Shape, v.mask ≠ s → Knows cap net p t v → Knows cap net p t' v)
    (hnone : ∀ s', s' ≠ s → t.choices[s']? = none → t'.choices[s']? = none) :
    Progress cap net p (fun x => done x ∨ x = s) t' := by
  refine ⟨fun s' hs' v hv => ?_, fun s' hs' => ?_⟩
  · by_cases he : s' = s
    · subst he
      exact hv.unique hu ▸ hnew
    · exact hold v (hv.mask.symm ▸ he) (h.known s' (hs'.resolve_right he) v hv)
  · exact hnone s' (fun he => hs' (.inr he)) (h.unknown s' fun hd => hs' (.inl hd))

/-- **Solving a set whose parts have been through.** -/
theorem solve_spec (hnet : net.Lawful) {t : Table} {done : Nat → Prop} {s : Nat} {u : Shape}
    (h : Progress cap net p done t) (hu : u.Solves net p.costs s) (hleaf : ∀ f, u ≠ .leaf f)
    (hparts : ∀ x ∈ splits s, done x.1 ∧ done x.2) :
    ∃ t', solve p t s = .ok t' ∧ Progress cap net p (fun x => done x ∨ x = s) t' := by
  cases u with
  | leaf f => exact absurd rfl (hleaf f)
  | join l r =>
    obtain rfl : (Shape.join l r).mask = s := hu.mask
    obtain ⟨o, ho, hoi⟩ := noteOpen_spec g hnet h hu.within hparts
    obtain ⟨b, hb, hkept, hdropped⟩ := best_spec g hbo hbr hu hleaf
      (t := { t with openSets := t.openSets.insert (Shape.join l r).mask o }) (by
        intro x hx v hv
        obtain ⟨h1, h2⟩ := hu.within.ne_of_mem_splits hx
        obtain ⟨hd1, hd2⟩ := hparts x hx
        rcases hv with hv | hv
        · exact (h.known _ hd1 v hv).insertOpen (hv.mask.symm ▸ h1) o
        · exact (h.known _ hd2 v hv).insertOpen (hv.mask.symm ▸ h2) o)
    have hnew : ∀ c : Std.HashMap Nat Choice, ∃ o',
        ({ openSets := t.openSets.insert (Shape.join l r).mask o, choices := c } :
          Table).openSets[(Shape.join l r).mask]? = some o' ∧
        ∀ i, o'.contains i = (net.openIn (Shape.join l r).factors).contains i :=
      fun c => ⟨o, Std.HashMap.getElem?_insert_self, hoi⟩
    simp only [solve, ho, hb, ok_bind, pure_eq_ok]
    cases b with
    | none =>
      refine ⟨_, rfl, h.add hu ⟨hnew _, fun hk => ?_, fun hk => ?_⟩
        (fun v hne hv => hv.insertOpen hne o) fun _ _ hs => hs⟩
      · obtain ⟨k, -, hk⟩ := hkept hk
        cases hk
      · by_cases hd : done (Shape.join l r).mask
        · exact (h.known _ hd _ hu).dropped hk
        · exact h.unknown _ hd
    | some c =>
      refine ⟨_, rfl, h.add hu ⟨hnew _, fun hk => ?_, fun hk => ?_⟩
        (fun v hne hv => (hv.insertOpen hne o).insertChoice hne c) fun s' hne hs => ?_⟩
      · obtain ⟨k, hc, hk⟩ := hkept hk
        cases hk
        exact ⟨k, hc, Std.HashMap.getElem?_insert_self⟩
      · cases hdropped hk
      · show (t.choices.insert (Shape.join l r).mask c)[s']? = none
        rw [Std.HashMap.getElem?_insert, if_neg (by simpa using Ne.symm hne)]
        exact hs

/-! ### All sets -/

/-- The sets of at most `k` factors, and at least one. -/
def Sized (net : Network) (k s : Nat) : Prop :=
  ∃ u : Shape, u.Within net.numFactors ∧ u.mask = s ∧ u.factors.length ≤ k

omit g hbo hbr in
theorem mem_ofSize_iff {k s : Nat} (hk : 0 < k) :
    s ∈ Subset.ofSize net.numFactors k ↔
      ∃ u : Shape, u.Within net.numFactors ∧ u.mask = s ∧ u.factors.length = k := by
  rw [Subset.mem_ofSize]
  constructor
  · rintro ⟨fs, hp, hlt, rfl, rfl⟩
    obtain ⟨u, rfl⟩ := Shape.exists_factors_eq (List.ne_nil_of_length_pos hk)
    exact ⟨u, ⟨hp.imp fun h => Nat.ne_of_lt h, hlt⟩, rfl, rfl⟩
  · rintro ⟨u, hu, rfl, rfl⟩
    have hmem : ∀ f, f ∈ (List.range net.numFactors).filter (fun f => decide (f ∈ u.factors)) ↔
        f ∈ u.factors := by
      intro f
      rw [List.mem_filter, List.mem_range, decide_eq_true_eq]
      exact ⟨fun h => h.2, fun h => ⟨hu.lt f h, h⟩⟩
    refine ⟨_, List.pairwise_lt_range.filter _, fun f hf => hu.lt f ((hmem f).1 hf), ?_,
      Subset.ofFactors_eq_iff.2 fun f => (hmem f).symm⟩
    exact ((List.perm_ext_iff_of_nodup (List.nodup_range.filter _) hu.nodup).2 hmem).length_eq

/-! ### The order of solving -/

/-- The sets of two or more factors in the order in which they are solved. -/
def schedule (n : Nat) : List Nat := (List.range' 2 (n - 1)).flatMap (Subset.ofSize n)

omit g hbo hbr in
theorem solveAll_eq (p : Problem) (net : Network) :
    solveAll p net = (schedule net.numFactors).foldlM (solve p) (start net) := by
  have fold : ∀ (sizes : List Nat) (t : Table), sizes.foldlM (solveSize p net.numFactors) t =
      (sizes.flatMap (Subset.ofSize net.numFactors)).foldlM (solve p) t := by
    intro sizes
    induction sizes with
    | nil =>
      intro t
      rfl
    | cons k sizes ih =>
      intro t
      rw [List.foldlM_cons, List.flatMap_cons, List.foldlM_append]
      exact bind_congr ih
  exact fold _ _

omit g hbo hbr in
theorem mem_schedule_iff {s : Nat} : s ∈ schedule net.numFactors ↔
    ∃ u : Shape, u.Within net.numFactors ∧ u.mask = s ∧ 2 ≤ u.factors.length := by
  rw [schedule, List.mem_flatMap]
  constructor
  · rintro ⟨k, hk, hs⟩
    have hk2 := (List.mem_range'_1.1 hk).1
    obtain ⟨u, hu, hum, rfl⟩ := (mem_ofSize_iff (by omega)).1 hs
    exact ⟨u, hu, hum, hk2⟩
  · rintro ⟨u, hu, hum, h2⟩
    have hle := hu.length_le
    refine ⟨u.factors.length, List.mem_range'_1.2 ⟨h2, by omega⟩, ?_⟩
    exact (mem_ofSize_iff (by omega)).2 ⟨u, hu, hum, rfl⟩

omit g hbo hbr in
/-- No set comes twice, and none comes before a smaller one. -/
theorem pairwise_schedule : (schedule net.numFactors).Pairwise fun s s' => s ≠ s' ∧
    ∀ u v : Shape, u.Within net.numFactors → v.Within net.numFactors → u.mask = s →
      v.mask = s' → u.factors.length ≤ v.factors.length := by
  have hsize : ∀ {k s}, k ∈ List.range' 2 (net.numFactors - 1) →
      s ∈ Subset.ofSize net.numFactors k → ∀ u : Shape, u.Within net.numFactors → u.mask = s →
        u.factors.length = k := by
    intro k s hk hs u hu hum
    have hk2 := (List.mem_range'_1.1 hk).1
    obtain ⟨v, hv, hvm, rfl⟩ := (mem_ofSize_iff (by omega)).1 hs
    exact (Shape.perm_of_mask_eq hu hv (hum.trans hvm.symm)).length_eq
  have hsizes : (List.range' 2 (net.numFactors - 1)).Pairwise (· < ·) :=
    List.pairwise_lt_range' 1
  refine List.pairwise_flatMap.2 ⟨fun k hk => ?_, ?_⟩
  · refine (Subset.nodup_ofSize net.numFactors k).imp_of_mem fun hs hs' hne => ⟨hne, ?_⟩
    intro u v hu hv hum hvm
    rw [hsize hk hs u hu hum, hsize hk hs' v hv hvm]
  · refine hsizes.imp_of_mem fun {k k'} hk hk' hlt s hs s' hs' => ⟨?_, ?_⟩
    · rintro rfl
      obtain ⟨u, hu, hum, hlen⟩ :=
        (mem_ofSize_iff (by have := (List.mem_range'_1.1 hk).1; omega)).1 hs
      have hlen' := hsize hk' hs' u hu hum
      omega
    · intro u v hu hv hum hvm
      rw [hsize hk hs u hu hum, hsize hk' hs' v hv hvm]
      omega

/-- A set has been through once it is a single factor or has been solved. -/
def Through (net : Network) (solved : List Nat) (s : Nat) : Prop := Sized net 1 s ∨ s ∈ solved

omit g hbo hbr in
theorem through_nil (net : Network) : Through net [] = Sized net 1 := by
  funext s
  simp [Through]

omit g hbo hbr in
theorem through_concat (net : Network) (solved : List Nat) (s : Nat) :
    Through net (solved ++ [s]) = fun x => Through net solved x ∨ x = s := by
  funext x
  simp [Through, or_assoc]

omit g hbo hbr in
theorem through_schedule (net : Network) :
    Through net (schedule net.numFactors) = Sized net net.numFactors := by
  funext s
  refine propext ?_
  rw [Through, mem_schedule_iff]
  constructor
  · rintro (⟨u, hu, hm, -⟩ | ⟨u, hu, hm, -⟩)
    · exact ⟨u, hu, hm, hu.length_le⟩
    · exact ⟨u, hu, hm, hu.length_le⟩
  · rintro ⟨u, hu, hm, -⟩
    by_cases h2 : 2 ≤ u.factors.length
    · exact .inr ⟨u, hu, hm, h2⟩
    · exact .inl ⟨u, hu, hm, by omega⟩

omit g hbo hbr in
/-- **The parts of a set have been through before it.** -/
theorem parts_mem_of_schedule {pre post : List Nat} {s : Nat}
    (h : schedule net.numFactors = pre ++ s :: post) :
    ∃ u : Shape, u.Within net.numFactors ∧ u.mask = s ∧ 2 ≤ u.factors.length ∧
      ¬ Through net pre s ∧ ∀ x ∈ splits s, Through net pre x.1 ∧ Through net pre x.2 := by
  have hmem : s ∈ schedule net.numFactors := h ▸ List.mem_append_right _ List.mem_cons_self
  obtain ⟨u, hu, rfl, h2⟩ := mem_schedule_iff.1 hmem
  have hpair := h ▸ pairwise_schedule
  rw [List.pairwise_append] at hpair
  obtain ⟨-, hpost, hpre⟩ := hpair
  have hbefore : ∀ v : Shape, v.Within net.numFactors →
      v.factors.length < u.factors.length → Through net pre v.mask := by
    intro v hv hlt
    by_cases hv2 : 2 ≤ v.factors.length
    · refine .inr ?_
      have hvs := mem_schedule_iff.2 ⟨v, hv, rfl, hv2⟩
      rw [h, List.mem_append, List.mem_cons] at hvs
      rcases hvs with hvs | hvs | hvs
      · exact hvs
      · have := (Shape.perm_of_mask_eq hv hu hvs).length_eq
        omega
      · have := ((List.pairwise_cons.1 hpost).1 _ hvs).2 u v hu hv rfl rfl
        omega
    · exact .inl ⟨v, hv, rfl, by omega⟩
  refine ⟨u, hu, rfl, h2, ?_, fun x hx => ?_⟩
  · rintro (⟨v, hv, hvm, hvl⟩ | hin)
    · have := (Shape.perm_of_mask_eq hv hu hvm).length_eq
      omega
    · exact (hpre _ hin _ List.mem_cons_self).1 rfl
  · obtain ⟨⟨v, hv, hvm, hlt⟩, ⟨w, hw, hwm, hlt'⟩⟩ := hu.exists_parts hx
    exact ⟨hvm ▸ hbefore v hv hlt, hwm ▸ hbefore w hw hlt'⟩

/-! ### What the search keeps -/

/-- Solving a set whose parts have been through keeps what is said of the table and of the sets
that have been through. -/
def Keeps (net : Network) (p : Problem) (P : (Nat → Prop) → Table → Prop) : Prop :=
  ∀ (done : Nat → Prop) (t : Table) (u : Shape), u.Within net.numFactors → 2 ≤ u.factors.length →
    ¬ done u.mask → (∀ x ∈ splits u.mask, done x.1 ∧ done x.2) → P done t →
      ∃ t', solve p t u.mask = .ok t' ∧ P (fun x => done x ∨ x = u.mask) t'

omit g hbo hbr in
/-- **Solving all sets**, from the table of the single factors. -/
theorem Keeps.solveAll {P : (Nat → Prop) → Table → Prop} (hP : Keeps net p P)
    (h : P (Sized net 1) (start net)) :
    ∃ t, solveAll p net = .ok t ∧ P (Sized net net.numFactors) t := by
  have hstep : ∀ pre s post t, schedule net.numFactors = pre ++ s :: post →
      P (Through net pre) t → ∃ t', solve p t s = .ok t' ∧ P (Through net (pre ++ [s])) t' := by
    intro pre s post t hsplit ht
    obtain ⟨u, hu, rfl, h2, hnew, hparts⟩ := parts_mem_of_schedule hsplit
    rw [through_concat]
    exact hP _ t u hu h2 hnew hparts ht
  rw [solveAll_eq]
  obtain ⟨t, ht, hp⟩ := exists_foldlM (fun pre t => P (Through net pre) t) hstep
    (through_nil net ▸ h)
  exact ⟨t, ht, through_schedule net ▸ hp⟩

omit g hbo hbr in
/-- The table of the single factors. -/
theorem start_spec (net : Network) :
    (∀ f < net.numFactors, (start net).openSets[Subset.single f]? = some (net.openSetOf f) ∧
      (start net).choices[Subset.single f]? = some ⟨0, 0⟩) ∧
    ∀ s, (∀ f < net.numFactors, s ≠ Subset.single f) → (start net).choices[s]? = none := by
  have hinj : ∀ f f', Subset.single f = Subset.single f' → f = f' := by
    intro f f' h
    have := congrArg Subset.member h
    simpa using this
  have fold : ∀ k, (∀ f < k,
      ((List.range k).foldl (noteFactor net) {}).openSets[Subset.single f]? =
        some (net.openSetOf f) ∧
      ((List.range k).foldl (noteFactor net) {}).choices[Subset.single f]? = some ⟨0, 0⟩) ∧
      ∀ s, (∀ f < k, s ≠ Subset.single f) →
        ((List.range k).foldl (noteFactor net) {}).choices[s]? = none := by
    intro k
    induction k with
    | zero => exact ⟨nofun, fun s _ => Std.HashMap.getElem?_empty⟩
    | succ k ih =>
      obtain ⟨ih1, ih2⟩ := ih
      rw [List.range_succ, List.foldl_append, List.foldl_cons, List.foldl_nil]
      refine ⟨fun f hf => ?_, fun s hs => ?_⟩
      · simp only [noteFactor, Std.HashMap.getElem?_insert, beq_iff_eq]
        by_cases he : f = k
        · subst he
          simp
        · have hne : Subset.single k ≠ Subset.single f := fun h => he (hinj _ _ h).symm
          simp only [hne, if_false]
          exact ih1 f (by omega)
      · simp only [noteFactor, Std.HashMap.getElem?_insert, beq_iff_eq]
        rw [if_neg (Ne.symm (hs k (by omega)))]
        exact ih2 s fun f hf => hs f (by omega)
  exact fold net.numFactors

omit hbo hbr in
theorem start_progress (hnet : net.Lawful) :
    Progress cap net p (Sized net 1) (start net) := by
  obtain ⟨hsome, hnone⟩ := start_spec net
  refine ⟨?_, fun s hs => hnone s fun f hf he => hs ?_⟩
  · rintro s ⟨v, hv, rfl, hl⟩ u hu
    cases u with
    | join l r =>
      have hlen := (Shape.perm_of_mask_eq hu.within hv hu.mask).length_eq
      have := Shape.two_le_length l r
      omega
    | leaf f =>
      have hf : f < net.numFactors := hu.within.lt f (List.mem_singleton_self f)
      obtain ⟨ho, hc⟩ := hsome f hf
      have hkept : Kept cap net p (.leaf f) := by
        intro _
        have := g.rank_cost hu.within rfl
        rw [Cost.rank_zero] at this
        rw [← this]
        exact Nat.zero_le _
      refine ⟨⟨_, Shape.mask_leaf f ▸ ho, hnet.contains_openSetOf hf⟩, fun _ => ⟨0, rfl, ?_⟩,
        fun hn => absurd hkept hn⟩
      rw [Shape.mask_leaf]
      exact hc
  · exact ⟨.leaf f, Shape.within_leaf hf, he ▸ Shape.mask_leaf f, Nat.le_refl 1⟩

/-- **The search goes through, and its table knows every set of factors.** -/
theorem solveAll_spec (hnet : net.Lawful) :
    ∃ t, solveAll p net = .ok t ∧ Progress cap net p (Sized net net.numFactors) t := by
  have hkeeps : Keeps net p (Progress cap net p) := by
    intro done t v hv hlen _ hparts ht
    obtain ⟨u, hu⟩ := exists_solves g ⟨v, hv, rfl⟩
    refine solve_spec g hbo hbr hnet ht hu ?_ hparts
    rintro f rfl
    have h1 := (Shape.perm_of_mask_eq hu.within hv hu.mask).length_eq
    rw [Shape.length_factors_leaf] at h1
    omega
  exact hkeeps.solveAll (start_progress g hnet)

/-! ### Reading the tree off the table -/

/-- The choices for a tree and for all of its parts are those of the tree. -/
def Noted (net : Network) (p : Problem) (t : Table) : Shape → Prop
  | .leaf f => t.choices[Subset.single f]? = some ⟨0, 0⟩
  | .join l r => Noted net p t l ∧ Noted net p t r ∧
      ∃ k, (Shape.join l r).cost net p.costs = .ok k ∧
        t.choices[(Shape.join l r).mask]? = some ⟨k, l.mask⟩

omit g hbo hbr in
theorem Noted.exists_choice {t : Table} {u : Shape} (h : Noted net p t u) :
    ∃ k, u.cost net p.costs = .ok k ∧ t.choices[u.mask]? = some ⟨k, leftMask u⟩ := by
  cases u with
  | leaf f => exact ⟨0, rfl, Shape.mask_leaf f ▸ h⟩
  | join l r => exact h.2.2

omit g hbo hbr in
/-- A tree stays in a table that gets more choices. -/
theorem Noted.mono {t t' : Table} {u : Shape} (h : Noted net p t u)
    (hsub : ∀ (s : Nat) (c : Choice), t.choices[s]? = some c → t'.choices[s]? = some c) :
    Noted net p t' u := by
  induction u with
  | leaf f => exact hsub _ _ h
  | join l r ihl ihr =>
    obtain ⟨hl, hr, k, hk, hc⟩ := h
    exact ⟨ihl hl, ihr hr, k, hk, hsub _ _ hc⟩

omit g hbo hbr in
/-- **A tree in a table is read off it**, with its nodes made in the same order as by assembling
it. -/
theorem Noted.rebuild_eq {t : Table} {u : Shape} (h : Noted net p t u)
    (hu : u.Within net.numFactors) {depth : Nat} (hd : u.factors.length ≤ depth) (a : Assembly) :
    rebuild net t depth u.mask a = u.assemble net a := by
  induction u generalizing depth a with
  | leaf f =>
    obtain ⟨depth, rfl⟩ : ∃ d, depth = d + 1 := ⟨depth - 1, by
      rw [Shape.length_factors_leaf] at hd
      omega⟩
    have hlow : Subset.HasLowest (Subset.single f) f := by
      refine ⟨by simp, fun i hi => ?_⟩
      rw [Subset.testBit_single]
      exact decide_eq_false (by omega)
    rw [rebuild, Shape.mask_leaf, if_pos ((Subset.isSingleton_iff hlow).2 rfl),
      Subset.member_single, Shape.assemble]
  | join l r ihl ihr =>
    obtain ⟨hl, hr, k, -, hc⟩ := h
    have hlpos := l.length_factors_pos
    have hrpos := r.length_factors_pos
    rw [Shape.length_factors_join] at hd
    obtain ⟨depth, rfl⟩ : ∃ d, depth = d + 1 := ⟨depth - 1, by omega⟩
    obtain ⟨m, hm⟩ := Subset.exists_hasLowest (Shape.join l r).mask_ne_zero
    have hns : ¬ Subset.isSingleton (Shape.join l r).mask = true := by
      rw [Subset.isSingleton_iff hm]
      exact Shape.mask_join_ne_single hu m
    rw [rebuild, if_neg hns, hc, Shape.assemble]
    simp only [hu.mask_xor_left]
    rw [ihl hl hu.left (by omega)]
    refine bind_congr fun x => ?_
    rw [ihr hr hu.right (by omega)]

omit hbo hbr in
/-- A canonical tree that is not dropped is in the table. -/
theorem Progress.noted {t : Table} (h : Progress cap net p (Sized net net.numFactors) t) {u : Shape}
    (hu : u.Solves net p.costs u.mask) (hk : Kept cap net p u) : Noted net p t u := by
  have hchoice : ∀ v : Shape, v.Solves net p.costs v.mask → Kept cap net p v →
      ∃ k, v.cost net p.costs = .ok k ∧ t.choices[v.mask]? = some ⟨k, leftMask v⟩ := fun v hv hk =>
    (h.known _ ⟨v, hv.within, rfl, hv.within.length_le⟩ v hv).kept hk
  induction u with
  | leaf f =>
    obtain ⟨k, hk, hc⟩ := hchoice _ hu hk
    cases hk
    rwa [Shape.mask_leaf] at hc
  | join l r ihl ihr =>
    obtain ⟨hl, hr, -⟩ := hu.parts
    obtain ⟨hkl, hkr⟩ := hk.parts g
    exact ⟨ihl hl hkl, ihr hr hkr, hchoice _ hu hk⟩

omit hbo hbr in
/-- **The canonical tree is read off the table.** -/
theorem rebuild_eq {t : Table} (h : Progress cap net p (Sized net net.numFactors) t) {u : Shape}
    {s depth : Nat} (hu : u.Solves net p.costs s) (hk : Kept cap net p u)
    (hd : u.factors.length ≤ depth) (a : Assembly) :
    rebuild net t depth s a = u.assemble net a := by
  obtain rfl : u.mask = s := hu.mask
  exact (h.noted g hu hk).rebuild_eq hu.within hd a

end TensorNet.Search
