import TensorNet.Plan.Lowering
import TensorNet.Proofs.Network.Occurrences

/-!
# Axes by labels

Plans find axes by the positions of labels. Here is what the searches find: `positions` is the
inverse of reading labels off axes, the pairs of `pairsFrom` are the axes that carry one label, and
with the kept axes they make up all axes.
-/

namespace TensorNet.Lowering

theorem eq_of_mem_zip {ι κ γ : Type} {f : ι → γ} {g : κ → γ} {xs : List ι} {ys : List κ}
    (h : xs.map f = ys.map g) : ∀ p ∈ xs.zip ys, f p.1 = g p.2 := by
  induction xs generalizing ys with
  | nil => exact fun p hp => nomatch hp
  | cons x xs ih =>
    cases ys with
    | nil => exact fun p hp => nomatch hp
    | cons y ys =>
      rw [List.map_cons, List.map_cons, List.cons.injEq] at h
      intro p hp
      rcases List.mem_cons.1 hp with rfl | hp
      · exact h.1
      · exact ih h.2 p hp

/-- The label of an axis. -/
def axisLabel (ls : List Label) (k : Nat) : Label := ls.getD k default

theorem axisLabel_eq_of_getElem? {ls : List Label} {k : Nat} {l : Label} (h : ls[k]? = some l) :
    axisLabel ls k = l := by
  rw [axisLabel, List.getD_eq_getElem?_getD, h, Option.getD_some]

theorem getElem?_eq_axisLabel {ls : List Label} {k : Nat} (h : k < ls.length) :
    ls[k]? = some (axisLabel ls k) := by
  rw [axisLabel, List.getD_eq_getElem?_getD, List.getElem?_eq_getElem h, Option.getD_some]

theorem axisLabel_mem {ls : List Label} {k : Nat} (h : k < ls.length) : axisLabel ls k ∈ ls :=
  List.mem_of_getElem? (getElem?_eq_axisLabel h)

/-- Reading all axes gives the labels. -/
theorem map_axisLabel_range (ls : List Label) : (List.range ls.length).map (axisLabel ls) = ls := by
  refine List.ext_getElem (by simp) fun i h1 h2 => ?_
  rw [List.getElem_map, List.getElem_range]
  exact axisLabel_eq_of_getElem? (List.getElem?_eq_getElem h2)

/-! ### Positions -/

section

variable {ls among : List Label}

theorem idxOf?_of_mem {l : Label} (h : l ∈ among) :
    ∃ k, among.idxOf? l = some k ∧ k < among.length ∧ axisLabel among k = l := by
  cases hk : among.idxOf? l with
  | none => exact absurd h (List.idxOf?_eq_none_iff.1 hk)
  | some k =>
    have := getElem?_of_idxOf? hk
    exact ⟨k, rfl, (List.getElem?_eq_some_iff.1 this).1, axisLabel_eq_of_getElem? this⟩

/-- **Reading the labels at their positions gives them back.** -/
theorem map_axisLabel_positions (h : ∀ l ∈ ls, l ∈ among) :
    (positions ls among).map (axisLabel among) = ls := by
  induction ls with
  | nil => rfl
  | cons l ls ih =>
    obtain ⟨k, hk, -, hl⟩ := idxOf?_of_mem (h l List.mem_cons_self)
    have htail := ih fun l hl => h l (List.mem_cons_of_mem _ hl)
    have hcons : positions (l :: ls) among = k :: positions ls among := by
      rw [positions, List.filterMap_cons_some (f := fun a => List.idxOf? a among) hk, positions]
    rw [hcons, List.map_cons, hl, htail]

theorem length_positions (h : ∀ l ∈ ls, l ∈ among) : (positions ls among).length = ls.length := by
  have := congrArg List.length (map_axisLabel_positions h)
  rwa [List.length_map] at this

theorem lt_of_mem_positions {k : Nat} (h : k ∈ positions ls among) : k < among.length := by
  obtain ⟨l, -, hk⟩ := List.mem_filterMap.1 h
  exact (List.getElem?_eq_some_iff.1 (getElem?_of_idxOf? hk)).1

theorem nodup_positions (h : ∀ l ∈ ls, l ∈ among) (hn : ls.Nodup) : (positions ls among).Nodup := by
  rw [← map_axisLabel_positions h] at hn
  exact (List.pairwise_map.1 hn).imp fun hne he => hne (congrArg _ he)

/-- An axis is found exactly when its label is looked for. -/
theorem mem_positions (hn : among.Nodup) {k : Nat} (hk : k < among.length) :
    k ∈ positions ls among ↔ axisLabel among k ∈ ls := by
  constructor
  · intro h
    obtain ⟨l, hl, hk⟩ := List.mem_filterMap.1 h
    rwa [axisLabel_eq_of_getElem? (getElem?_of_idxOf? hk)]
  · intro h
    refine List.mem_filterMap.2 ⟨_, h, ?_⟩
    exact (idxOf?_eq_some_iff_getElem? hn).2 (getElem?_eq_axisLabel hk)

/-- The positions of all labels in another order are all axes. -/
theorem perm_positions (hn : among.Nodup) (h : ls.Perm among) :
    (positions ls among).Perm (List.range among.length) := by
  refine (List.perm_ext_iff_of_nodup (nodup_positions (fun l hl => h.mem_iff.1 hl)
    (h.nodup_iff.2 hn)) List.nodup_range).2 fun k => ?_
  rw [List.mem_range]
  refine ⟨lt_of_mem_positions, fun hk => ?_⟩
  exact (mem_positions hn hk).2 (h.mem_iff.2 (axisLabel_mem hk))

end

/-! ### Axes that are not listed -/

/-- The axes of some labels that are not listed. -/
def restAxes (ls : List Label) (axes : List Nat) : List Nat :=
  (List.range ls.length).filter fun k => !axes.contains k

theorem mem_restAxes {ls : List Label} {axes : List Nat} {k : Nat} :
    k ∈ restAxes ls axes ↔ k < ls.length ∧ k ∉ axes := by
  simp [restAxes]

/-- The axes that are listed and those that are not are together all axes. -/
theorem perm_unlisted {n : Nat} {axes : List Nat} (hn : axes.Nodup) (hlt : ∀ k ∈ axes, k < n) :
    (((List.range n).filter fun k => !axes.contains k) ++ axes).Perm (List.range n) := by
  refine (List.perm_ext_iff_of_nodup ?_ List.nodup_range).2 fun k => ?_
  · refine List.nodup_append.2 ⟨List.nodup_range.filter _, hn, fun j hj k hk he => ?_⟩
    simp [he, hk] at hj
  · rw [List.mem_append, List.mem_filter, List.mem_range]
    by_cases hk : k ∈ axes
    · simp [hk, hlt k hk]
    · simp [hk]

theorem perm_restAxes {ls : List Label} {axes : List Nat} (hn : axes.Nodup)
    (hlt : ∀ k ∈ axes, k < ls.length) :
    (restAxes ls axes ++ axes).Perm (List.range ls.length) :=
  perm_unlisted hn hlt

theorem zip_eq_map_range (v : Located) (h : v.labels.length = v.extents.length) :
    v.labels.zip v.extents = (List.range v.labels.length).map fun k =>
      (axisLabel v.labels k, v.extents.getD k default) := by
  refine List.ext_getElem (by simp [h]) fun i h1 h2 => ?_
  rw [List.length_zip] at h1
  rw [List.getElem_zip, List.getElem_map, List.getElem_range,
    axisLabel_eq_of_getElem? (List.getElem?_eq_getElem (by omega)), List.getD_eq_getElem?_getD,
    List.getElem?_eq_getElem (by omega), Option.getD_some]

/-- The open axes of a value are those that are not listed, with their labels and extents. -/
theorem openAxes_eq (v : Located) (axes : List Nat) (h : v.labels.length = v.extents.length) :
    openAxes v axes = (restAxes v.labels axes).map fun k =>
      (axisLabel v.labels k, v.extents.getD k default) := by
  have hi : ∀ n (f : Nat → Label × (Nat × Nat)), ((List.range n).map f).zipIdx =
      (List.range n).map fun k => (f k, k) := by
    intro n f
    refine List.ext_getElem (by simp) fun i h1 h2 => ?_
    simp
  rw [openAxes, zip_eq_map_range v h, hi, List.filter_map, List.map_map]
  rfl

theorem restAxes_positions {ls cs : List Label} (hn : ls.Nodup) :
    restAxes ls (positions cs ls) =
      (List.range ls.length).filter fun k => decide (axisLabel ls k ∉ cs) := by
  refine List.filter_congr fun k hk => ?_
  have : k ∈ positions cs ls ↔ axisLabel ls k ∈ cs := mem_positions hn (List.mem_range.1 hk)
  by_cases hc : axisLabel ls k ∈ cs
  · simp [hc, this.2 hc]
  · simp [hc, mt this.1 hc]

/-- The labels of the axes that do not carry listed labels. -/
theorem map_axisLabel_restAxes {ls cs : List Label} (hn : ls.Nodup) :
    (restAxes ls (positions cs ls)).map (axisLabel ls) = ls.filter fun l => decide (l ∉ cs) := by
  rw [restAxes_positions hn]
  conv => rhs; rw [← map_axisLabel_range ls]
  rw [List.filter_map]
  rfl

theorem openAxes_positions (v : Located) (h : v.labels.length = v.extents.length)
    (hn : v.labels.Nodup) (cs : List Label) :
    openAxes v (positions cs v.labels) =
      (v.labels.zip v.extents).filter fun p => decide (p.1 ∉ cs) := by
  rw [openAxes_eq v _ h, restAxes_positions hn, zip_eq_map_range v h, List.filter_map]
  rfl

/-! ### Pairs of axes with one label -/

section

variable {ls : List Label} {l : Label}

theorem two_le_count {i j : Nat} (hij : i < j) (hi : ls[i]? = some l) (hj : ls[j]? = some l) :
    2 ≤ ls.count l := by
  have h1 : l ∈ ls.take (i + 1) := List.mem_of_getElem? (i := i) (by
    rw [List.getElem?_take, if_pos (by omega), hi])
  have h2 : l ∈ ls.drop (i + 1) := List.mem_of_getElem? (i := j - (i + 1)) (by
    rw [List.getElem?_drop, Nat.add_sub_cancel' hij, hj])
  have h3 := List.count_pos_iff.2 h1
  have h4 := List.count_pos_iff.2 h2
  rw [← List.take_append_drop (i + 1) ls, List.count_append]
  omega

theorem exists_other {k : Nat} (hk : ls[k]? = some l) (h2 : 2 ≤ ls.count l) :
    ∃ j, j ≠ k ∧ ls[j]? = some l := by
  obtain ⟨hlt, hl⟩ := List.getElem?_eq_some_iff.1 hk
  have hsplit : ls = ls.take k ++ l :: ls.drop (k + 1) := by
    rw [← hl, List.getElem_cons_drop, List.take_append_drop]
  rw [hsplit, List.count_append, List.count_cons_self] at h2
  by_cases hm : l ∈ ls.take k
  · obtain ⟨j, hj⟩ := List.mem_iff_getElem?.1 hm
    rw [List.getElem?_take] at hj
    split at hj
    · next hjk => exact ⟨j, Nat.ne_of_lt hjk, hj⟩
    · cases hj
  · have hd : l ∈ ls.drop (k + 1) := by
      rw [← List.count_pos_iff]
      have := List.count_eq_zero.2 hm
      omega
    obtain ⟨j, hj⟩ := List.mem_iff_getElem?.1 hd
    rw [List.getElem?_drop] at hj
    exact ⟨k + 1 + j, by omega, hj⟩

/-- The axes that pairs have. -/
def pairAxes (pairs : List (Nat × Nat)) : List Nat := pairs.flatMap fun p => [p.1, p.2]

theorem mem_pairAxes {pairs : List (Nat × Nat)} {k : Nat} :
    k ∈ pairAxes pairs ↔ ∃ p ∈ pairs, k = p.1 ∨ k = p.2 := by
  simp [pairAxes]

theorem length_pairAxes (pairs : List (Nat × Nat)) :
    (pairAxes pairs).length = 2 * pairs.length := by
  induction pairs with
  | nil => rfl
  | cons p pairs ih =>
    show (p.1 :: p.2 :: pairAxes pairs).length = _
    rw [List.length_cons, List.length_cons, ih, List.length_cons, Nat.mul_succ]

theorem pairsFrom_cons_some {k j : Nat} (h : ls.idxOf? l = some j) :
    pairsFrom k (l :: ls) = (k, k + 1 + j) :: pairsFrom (k + 1) ls := by
  rw [pairsFrom, h]

theorem pairsFrom_cons_none {k : Nat} (h : ls.idxOf? l = none) :
    pairsFrom k (l :: ls) = pairsFrom (k + 1) ls := by
  rw [pairsFrom, h]

/-- The axes of a pair carry one label. -/
theorem of_mem_pairsFrom {k p q : Nat} (h : (p, q) ∈ pairsFrom k ls) :
    k ≤ p ∧ p < q ∧ ∃ l, ls[p - k]? = some l ∧ ls[q - k]? = some l := by
  induction ls generalizing k with
  | nil => cases h
  | cons a ls ih =>
    have htail : (p, q) ∈ pairsFrom (k + 1) ls →
        k ≤ p ∧ p < q ∧ ∃ l, (a :: ls)[p - k]? = some l ∧ (a :: ls)[q - k]? = some l := by
      intro h
      obtain ⟨hp, hpq, l, h1, h2⟩ := ih h
      have e1 : p - k = (p - (k + 1)) + 1 := by omega
      have e2 : q - k = (q - (k + 1)) + 1 := by omega
      exact ⟨by omega, hpq, l, by rw [e1, List.getElem?_cons_succ, h1],
        by rw [e2, List.getElem?_cons_succ, h2]⟩
    cases hj : ls.idxOf? a with
    | none =>
      rw [pairsFrom_cons_none hj] at h
      exact htail h
    | some j =>
      rw [pairsFrom_cons_some hj] at h
      rcases List.mem_cons.1 h with he | h
      · obtain ⟨rfl, rfl⟩ := Prod.mk.inj he
        refine ⟨Nat.le_refl p, by omega, a, by simp, ?_⟩
        have e : p + 1 + j - p = j + 1 := by omega
        rw [e, List.getElem?_cons_succ, getElem?_of_idxOf? hj]
      · exact htail h

/-- Two axes with one label are a pair, as no label stands more than twice. -/
theorem mem_pairsFrom (h : ∀ l, ls.count l ≤ 2) {k p q : Nat} (hpq : p < q)
    (hp : ls[p]? = some l) (hq : ls[q]? = some l) : (k + p, k + q) ∈ pairsFrom k ls := by
  induction ls generalizing k p q with
  | nil => cases hp
  | cons a ls ih =>
    have hcount : ∀ l, ls.count l ≤ 2 := fun l => Nat.le_trans (List.count_le_count_cons) (h l)
    obtain ⟨q, rfl⟩ : ∃ r, q = r + 1 := ⟨q - 1, by omega⟩
    rw [List.getElem?_cons_succ] at hq
    cases p with
    | zero =>
      rw [List.getElem?_cons_zero] at hp
      obtain rfl := Option.some.inj hp
      cases hj : ls.idxOf? a with
      | none => exact absurd (List.mem_of_getElem? hq) (List.idxOf?_eq_none_iff.1 hj)
      | some j =>
        have hjl := getElem?_of_idxOf? hj
        have hone : ls.count a ≤ 1 := by
          have := h a
          rw [List.count_cons_self] at this
          omega
        have he : j = q := by
          rcases Nat.lt_trichotomy j q with hlt | he | hlt
          · have := two_le_count hlt hjl hq
            omega
          · exact he
          · have := two_le_count hlt hq hjl
            omega
        rw [pairsFrom_cons_some hj, he]
        refine List.mem_cons.2 (.inl ?_)
        rw [Nat.add_zero, Nat.add_assoc, Nat.add_comm 1 q]
    | succ p =>
      rw [List.getElem?_cons_succ] at hp
      have hin := ih hcount (k := k + 1) (by omega) hp hq
      have e1 : k + (p + 1) = k + 1 + p := by omega
      have e2 : k + (q + 1) = k + 1 + q := by omega
      rw [e1, e2]
      cases hj : ls.idxOf? a with
      | none =>
        rw [pairsFrom_cons_none hj]
        exact hin
      | some j =>
        rw [pairsFrom_cons_some hj]
        exact List.mem_cons_of_mem _ hin

/-- No axis is in two pairs. -/
theorem nodup_pairAxes (h : ∀ l, ls.count l ≤ 2) (k : Nat) : (pairAxes (pairsFrom k ls)).Nodup := by
  induction ls generalizing k with
  | nil => exact .nil
  | cons a ls ih =>
    have hcount : ∀ l, ls.count l ≤ 2 := fun l => Nat.le_trans (List.count_le_count_cons) (h l)
    cases hj : ls.idxOf? a with
    | none =>
      rw [pairsFrom_cons_none hj]
      exact ih hcount (k + 1)
    | some j =>
      have hjl := getElem?_of_idxOf? hj
      have hone : ls.count a ≤ 1 := by
        have := h a
        rw [List.count_cons_self] at this
        omega
      have hlow : ∀ i ∈ pairAxes (pairsFrom (k + 1) ls), k + 1 ≤ i := by
        intro i hi
        obtain ⟨⟨p, q⟩, hpq, he⟩ := mem_pairAxes.1 hi
        obtain ⟨h1, h2, -⟩ := of_mem_pairsFrom hpq
        simp only at he
        omega
      have hnot : k + 1 + j ∉ pairAxes (pairsFrom (k + 1) ls) := by
        intro hi
        obtain ⟨⟨p, q⟩, hpq, he⟩ := mem_pairAxes.1 hi
        obtain ⟨hp, hlt, l, h1, h2⟩ := of_mem_pairsFrom hpq
        simp only at he
        have hl : l = a := by
          rcases he with he | he
          · rw [← he, Nat.add_sub_cancel_left, hjl] at h1
            exact (Option.some.inj h1).symm
          · rw [← he, Nat.add_sub_cancel_left, hjl] at h2
            exact (Option.some.inj h2).symm
        rw [hl] at h1 h2
        have := two_le_count (by omega) h1 h2
        omega
      rw [pairsFrom_cons_some hj]
      show (k :: (k + 1 + j) :: pairAxes (pairsFrom (k + 1) ls)).Nodup
      refine List.nodup_cons.2 ⟨fun hk => ?_, List.nodup_cons.2 ⟨hnot, ih hcount (k + 1)⟩⟩
      rcases List.mem_cons.1 hk with he | hk
      · omega
      · have := hlow k hk
        omega

theorem keptAxes_eq (ls : List Label) (pairs : List (Nat × Nat)) :
    keptAxes ls.length pairs = restAxes ls (pairAxes pairs) := by
  refine List.filter_congr fun k _ => ?_
  have : (pairs.any fun p => p.1 == k || p.2 == k) = true ↔ (pairAxes pairs).contains k = true := by
    rw [List.any_eq_true, List.contains_iff_mem, mem_pairAxes]
    simp only [Bool.or_eq_true, beq_iff_eq, eq_comm (b := k)]
  rw [Bool.eq_iff_iff.2 this]

/-- An axis is in a pair exactly when its label stands twice. -/
theorem mem_pairAxes_pairsFrom (h : ∀ l, ls.count l ≤ 2) {k : Nat} (hk : k < ls.length) :
    k ∈ pairAxes (pairsFrom 0 ls) ↔ ls.count (axisLabel ls k) = 2 := by
  have hkl := getElem?_eq_axisLabel hk
  constructor
  · intro hm
    obtain ⟨⟨p, q⟩, hpq, he⟩ := mem_pairAxes.1 hm
    obtain ⟨-, hlt, l, h1, h2⟩ := of_mem_pairsFrom hpq
    rw [Nat.sub_zero] at h1 h2
    have hl : l = axisLabel ls k := by
      rcases he with rfl | rfl
      · exact Option.some.inj (h1.symm.trans hkl)
      · exact Option.some.inj (h2.symm.trans hkl)
    subst hl
    have := two_le_count hlt h1 h2
    have := h (axisLabel ls k)
    omega
  · intro h2
    obtain ⟨j, hne, hj⟩ := exists_other hkl (Nat.le_of_eq h2.symm)
    rcases Nat.lt_or_gt_of_ne hne with hlt | hlt
    · have := mem_pairsFrom h (k := 0) hlt hj hkl
      rw [Nat.zero_add, Nat.zero_add] at this
      exact mem_pairAxes.2 ⟨_, this, .inr rfl⟩
    · have := mem_pairsFrom h (k := 0) hlt hkl hj
      rw [Nat.zero_add, Nat.zero_add] at this
      exact mem_pairAxes.2 ⟨_, this, .inl rfl⟩

end

end TensorNet.Lowering
