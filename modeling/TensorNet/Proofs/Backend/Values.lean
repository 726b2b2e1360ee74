import Mathlib.Data.List.Nodup
import Mathlib.Data.List.Pairwise
import TensorNet.Proofs.Plan.Located
import TensorNet.Proofs.Backend.Checks
import TensorNet.Proofs.Tensor.Sum

/-!
# What dense steps compute

A tensor shows a function of the values of labels when each axis has the extent of its label and the
elements are the values of the function. A trace shows the sum over the labels of the pairs, and a
contraction the sum over the common labels of a product.

In both cases an offset is a sum over axes of values times strides. The permutation and the pairs
only split this sum up, and no axis is left out or taken twice.
-/

namespace TensorNet

open Lowering

/-- A tensor, read conjugated or not, has the values of a function of its labels. -/
structure Shows {α : Type} [Element α] (dim : Label → Nat) (t : Tensor α) (conj : Bool)
    (ls : List Label) (f : Values → α) : Prop where
  dims : t.dims = ls.map dim
  read : ∀ a : Values, (∀ l ∈ ls, a l < dim l) →
    conjIf conj (t.read (Index.offset (ls.map a) (Index.strides t.dims))) = f a

theorem Shows.extent_eq {α : Type} [Element α] {dim : Label → Nat} {t : Tensor α} {conj : Bool}
    {ls : List Label} {f : Values → α} (h : Shows dim t conj ls f) {j : Nat} (hj : j < ls.length) :
    t.extent j = dim (axisLabel ls j) := by
  rw [Tensor.extent, h.dims, List.getD_eq_getElem?_getD, List.getElem?_map,
    getElem?_eq_axisLabel hj]
  rfl

/-! ### Offsets by axes -/

section

variable {α : Type} {t : Tensor α} {ls : List Label} {dim : Label → Nat}

/-- The distance of neighbours along an axis. -/
def Tensor.stride (t : Tensor α) (axis : Nat) : Nat := (Index.strides t.dims).getD axis 0

/-- What some axes add to an offset. -/
def Tensor.along (t : Tensor α) (ls : List Label) (a : Values) (axes : List Nat) : Nat :=
  (axes.map fun j => a (axisLabel ls j) * t.stride j).sum

theorem Tensor.along_append (a : Values) (xs ys : List Nat) :
    t.along ls a (xs ++ ys) = t.along ls a xs + t.along ls a ys := by
  rw [along, List.map_append, List.sum_append, along, along]

theorem Tensor.along_perm (a : Values) {xs ys : List Nat} (h : xs.Perm ys) :
    t.along ls a xs = t.along ls a ys :=
  (h.map _).sum_eq

theorem Tensor.along_congr {a b : Values} {axes : List Nat}
    (h : ∀ j ∈ axes, a (axisLabel ls j) = b (axisLabel ls j)) :
    t.along ls a axes = t.along ls b axes :=
  congrArg List.sum (List.map_congr_left fun j hj => by rw [h j hj])

/-- **An offset is what all axes add.** -/
theorem Tensor.offset_eq_along (h : t.dims.length = ls.length) (a : Values) :
    Index.offset (ls.map a) (Index.strides t.dims) = t.along ls a (List.range ls.length) := by
  have hs : Index.strides t.dims = (List.range ls.length).map t.stride := by
    rw [← h, ← Index.length_strides]
    exact (Index.map_getD_range _).symm
  have hl : ls.map a = (List.range ls.length).map fun j => a (axisLabel ls j) := by
    conv => lhs; rw [← map_axisLabel_range ls]
    rw [List.map_map]
    rfl
  rw [hs, hl, Index.offset_map]
  rfl

theorem Tensor.offset_map_stride (a : Values) (axes : List Nat) :
    Index.offset (axes.map fun j => a (axisLabel ls j)) (axes.map t.stride) =
      t.along ls a axes :=
  Index.offset_map ..

end

/-! ### The trace -/

section

variable {ls : List Label}

/-- The labels that stand twice. -/
def tracedLabels (ls : List Label) : List Label :=
  (pairsFrom 0 ls).map fun p => axisLabel ls p.1

theorem axisLabel_of_mem_pairs {p : Nat × Nat} (hp : p ∈ pairsFrom 0 ls) :
    p.1 < ls.length ∧ p.2 < ls.length ∧ p.1 ≠ p.2 ∧ axisLabel ls p.2 = axisLabel ls p.1 := by
  obtain ⟨-, hlt, l, h1, h2⟩ := of_mem_pairsFrom hp
  rw [Nat.sub_zero] at h1 h2
  refine ⟨(List.getElem?_eq_some_iff.1 h1).1, (List.getElem?_eq_some_iff.1 h2).1,
    Nat.ne_of_lt hlt, ?_⟩
  rw [axisLabel_eq_of_getElem? h1, axisLabel_eq_of_getElem? h2]

theorem mem_tracedLabels (h : ∀ l, ls.count l ≤ 2) {l : Label} :
    l ∈ tracedLabels ls ↔ ls.count l = 2 := by
  constructor
  · intro hl
    obtain ⟨p, hp, rfl⟩ := List.mem_map.1 hl
    have hk := (axisLabel_of_mem_pairs hp).1
    exact (mem_pairAxes_pairsFrom h hk).1 (mem_pairAxes.2 ⟨p, hp, .inl rfl⟩)
  · intro hl
    obtain ⟨k, hk⟩ := List.mem_iff_getElem?.1 (List.count_pos_iff.1 (by omega : 0 < ls.count l))
    have hlt := (List.getElem?_eq_some_iff.1 hk).1
    have he := axisLabel_eq_of_getElem? hk
    obtain ⟨p, hp, hkp⟩ := mem_pairAxes.1 ((mem_pairAxes_pairsFrom h hlt).2 (he ▸ hl))
    refine List.mem_map.2 ⟨p, hp, ?_⟩
    rcases hkp with rfl | rfl
    · exact he
    · rw [← (axisLabel_of_mem_pairs hp).2.2.2, he]

theorem eq_of_shared_axis (h : ∀ l, ls.count l ≤ 2) {p q : Nat × Nat} (hp : p ∈ pairsFrom 0 ls)
    (hq : q ∈ pairsFrom 0 ls) {k : Nat} (hkp : k = p.1 ∨ k = p.2) (hkq : k = q.1 ∨ k = q.2) :
    p = q := by
  have hn := (List.pairwise_flatMap.1 (nodup_pairAxes h 0)).2
  by_contra hne
  have : Std.Symm fun p q : Nat × Nat => ∀ x ∈ [p.1, p.2], ∀ y ∈ [q.1, q.2], x ≠ y :=
    ⟨fun p q h x hx y hy he => h y hy x hx he.symm⟩
  exact hn.forall hp hq hne k (by simpa using hkp) k (by simpa using hkq) rfl

/-- No label has two pairs, as it would stand more than twice. -/
theorem nodup_tracedLabels (h : ∀ l, ls.count l ≤ 2) : (tracedLabels ls).Nodup := by
  have hpairs : (pairsFrom 0 ls).Nodup := by
    refine List.Pairwise.imp_of_mem ?_ (List.pairwise_flatMap.1 (nodup_pairAxes h 0)).2
    rintro p q - - hpq rfl
    exact hpq p.1 (by simp) p.1 (by simp) rfl
  refine List.Nodup.map_on ?_ hpairs
  intro p hp q hq he
  obtain ⟨hpl, -, hp2, -⟩ := axisLabel_of_mem_pairs hp
  obtain ⟨hql, -, hq2, -⟩ := axisLabel_of_mem_pairs hq
  have hget := getElem?_eq_axisLabel hpl
  have hget' := getElem?_eq_axisLabel hql
  rw [← he] at hget'
  rcases Nat.lt_trichotomy p.1 q.1 with hlt | heq | hlt
  · have hr := mem_pairsFrom h (k := 0) hlt hget hget'
    rw [Nat.zero_add, Nat.zero_add] at hr
    have hrp := eq_of_shared_axis h hr hp (.inl rfl) (.inl rfl)
    exact eq_of_shared_axis h hp hq (.inr (congrArg Prod.snd hrp)) (.inl rfl)
  · exact eq_of_shared_axis h hp hq (.inl rfl) (.inl heq)
  · have hr := mem_pairsFrom h (k := 0) hlt hget' hget
    rw [Nat.zero_add, Nat.zero_add] at hr
    have hrq := eq_of_shared_axis h hr hq (.inl rfl) (.inl rfl)
    exact eq_of_shared_axis h hp hq (.inl rfl) (.inr (congrArg Prod.snd hrq))

/-- Kept and paired axes together are all axes. -/
theorem perm_kept_pairs (h : ∀ l, ls.count l ≤ 2) :
    (keptAxes ls.length (pairsFrom 0 ls) ++ pairAxes (pairsFrom 0 ls)).Perm
      (List.range ls.length) := by
  rw [keptAxes_eq]
  refine perm_restAxes (nodup_pairAxes h 0) fun k hk => ?_
  obtain ⟨p, hp, rfl | rfl⟩ := mem_pairAxes.1 hk
  · exact (axisLabel_of_mem_pairs hp).1
  · exact (axisLabel_of_mem_pairs hp).2.1

/-- The permutation of a trace and the pairs together have as many axes as the factor. -/
theorem length_tracePerm {f : Factor} (h : ∀ l, f.labels.count l ≤ 2) {i : Nat} {labels : List Label}
    (hn : ((traceAxes f i).map (·.1)).Nodup) (hl : labels.Perm ((traceAxes f i).map (·.1))) :
    (tracePerm f i labels).length + 2 * (pairsFrom 0 f.labels).length = f.labels.length := by
  have hlen := (perm_kept_pairs h).length_eq
  rwa [List.length_append, List.length_range, length_pairAxes,
    ← (perm_tracePerm hn hl).length_eq] at hlen

/-- What the pairs add to an offset: each summed value, times the strides of both its axes. -/
theorem along_pairAxes {α : Type} (t : Tensor α) (b : Values) :
    t.along ls b (pairAxes (pairsFrom 0 ls)) =
      Index.offset ((tracedLabels ls).map b)
        ((pairsFrom 0 ls).map fun p => t.stride p.1 + t.stride p.2) := by
  rw [tracedLabels, List.map_map, Index.offset_map]
  have hsum : ∀ pairs : List (Nat × Nat), (∀ p ∈ pairs, axisLabel ls p.2 = axisLabel ls p.1) →
      t.along ls b (pairAxes pairs) =
        (pairs.map fun p => b (axisLabel ls p.1) * (t.stride p.1 + t.stride p.2)).sum := by
    intro pairs
    induction pairs with
    | nil => exact fun _ => rfl
    | cons p pairs ih =>
      intro h
      have hcons : pairAxes (p :: pairs) = [p.1, p.2] ++ pairAxes pairs := rfl
      rw [hcons, Tensor.along_append, ih fun q hq => h q (List.mem_cons_of_mem _ hq), List.map_cons,
        List.sum_cons, Nat.mul_add]
      simp only [Tensor.along, List.map_cons, List.map_nil, List.sum_cons, List.sum_nil,
        h p List.mem_cons_self]
      rfl
  exact hsum _ fun p hp => (axisLabel_of_mem_pairs hp).2.2.2

/-- A label that does not stand twice is one of those that the permutation of a trace lists. -/
theorem mem_kept_of_not_mem_traced (h : ∀ l, ls.count l ≤ 2) {perm : List Nat}
    (hperm : perm.Perm (keptAxes ls.length (pairsFrom 0 ls))) {l : Label} (hl : l ∈ ls)
    (hm : l ∉ tracedLabels ls) : l ∈ perm.map (axisLabel ls) := by
  obtain ⟨j, hj⟩ := List.mem_iff_getElem?.1 hl
  have hjl := (List.getElem?_eq_some_iff.1 hj).1
  have he := axisLabel_eq_of_getElem? hj
  rw [← he]
  refine List.mem_map_of_mem (hperm.mem_iff.2 ?_)
  rw [keptAxes_eq, mem_restAxes]
  refine ⟨hjl, fun hp => hm ?_⟩
  rw [mem_tracedLabels h, ← he]
  exact (mem_pairAxes_pairsFrom h hjl).1 hp

/-- The kept axes and the pairs make up the offset of a traced tensor. -/
theorem offset_trace {α : Type} {t : Tensor α} (hlen : t.dims.length = ls.length)
    (h : ∀ l, ls.count l ≤ 2) {perm : List Nat}
    (hperm : perm.Perm (keptAxes ls.length (pairsFrom 0 ls))) {a b : Values}
    (hkeep : ∀ l, l ∉ tracedLabels ls → b l = a l) :
    Index.offset (ls.map b) (Index.strides t.dims) =
      Index.offset ((perm.map (axisLabel ls)).map a) (perm.map t.stride) +
        Index.offset ((tracedLabels ls).map b)
          ((pairsFrom 0 ls).map fun p => t.stride p.1 + t.stride p.2) := by
  have hall : (perm ++ pairAxes (pairsFrom 0 ls)).Perm (List.range ls.length) :=
    (hperm.append_right _).trans (perm_kept_pairs h)
  have hkept : ∀ j ∈ perm, axisLabel ls j ∉ tracedLabels ls := by
    intro j hj hm
    have hj' := hperm.mem_iff.1 hj
    rw [keptAxes_eq, mem_restAxes] at hj'
    exact hj'.2 ((mem_pairAxes_pairsFrom h hj'.1).2 ((mem_tracedLabels h).1 hm))
  rw [t.offset_eq_along hlen, ← Tensor.along_perm b hall, Tensor.along_append, along_pairAxes,
    Tensor.along_congr fun j hj => hkeep _ (hkept j hj), List.map_map, ← t.offset_map_stride]
  rfl

variable {α : Type} [Element α] [LawfulElement α] {dim : Label → Nat} {t : Tensor α} {conj : Bool}
variable {f : Values → α}

/-- **A trace sums over the labels that stand twice.** The permutation lists the other axes. -/
theorem traceAt_eq (h : ∀ l, ls.count l ≤ 2) (ht : Shows dim t conj ls f) {labels : List Label}
    {perm : List Nat} (hperm : perm.Perm (keptAxes ls.length (pairsFrom 0 ls)))
    (hlabels : labels = perm.map (axisLabel ls)) {a : Values} (ha : ∀ l ∈ labels, a l < dim l) :
    Tensor.traceAt t conj perm (pairsFrom 0 ls) (labels.map a) =
      sumOver dim (tracedLabels ls) f a := by
  have hlen : t.dims.length = ls.length := by rw [ht.dims, List.length_map]
  have hext : (pairsFrom 0 ls).map (fun p => t.extent p.1) = (tracedLabels ls).map dim := by
    rw [tracedLabels, List.map_map]
    exact List.map_congr_left fun p hp => ht.extent_eq (axisLabel_of_mem_pairs hp).1
  rw [sumOver_eq_sum_all, ← hext]
  unfold Tensor.traceAt
  dsimp only
  rw [List.foldl_map, foldl_add_eq_sum]
  refine congrArg List.sum (List.map_congr_left fun v hv => ?_)
  rw [Index.mem_all, hext] at hv
  have hvlen : v.length = (tracedLabels ls).length := by
    rw [Index.length_of_inRange hv, List.length_map]
  have hrange : ∀ l ∈ ls, a.set (tracedLabels ls) v l < dim l := fun l hl =>
    Values.set_lt (nodup_tracedLabels h) hv fun hm =>
      ha l (hlabels ▸ mem_kept_of_not_mem_traced h hperm hl hm)
  rw [← ht.read _ hrange, offset_trace hlen h hperm fun l hl => Values.set_of_not_mem hl v,
    Values.map_set (nodup_tracedLabels h) hvlen, ← hlabels]
  rfl

end

/-! ### The contraction -/

section

variable {labels rest cs ls : List Label} {a b : Values}

/-- Picking axes in another order does not change an offset. -/
theorem offset_positions (hn : rest.Nodup) (h : labels.Perm rest) {outer : List Nat}
    (hlen : outer.length = rest.length) :
    Index.offset (labels.map a) ((positions labels rest).map fun k => outer.getD k 0) =
      Index.offset (rest.map a) outer := by
  have hl : labels.map a = (positions labels rest).map fun k => a (axisLabel rest k) := by
    conv => lhs; rw [← map_axisLabel_positions fun l hl => h.mem_iff.1 hl]
    rw [List.map_map]
    rfl
  have hr : rest.map a = (List.range rest.length).map fun k => a (axisLabel rest k) := by
    conv => lhs; rw [← map_axisLabel_range rest]
    rw [List.map_map]
    rfl
  have ho : outer = (List.range rest.length).map fun k => outer.getD k 0 := by
    rw [← hlen, Index.map_getD_range]
  conv => rhs; rw [hr, ho]
  rw [hl, Index.offset_map, Index.offset_map]
  exact ((perm_positions hn h).map _).sum_eq

/-- The offset of a result with the labels of two sides. -/
theorem offset_outer {xs ys : List Label} (hn : (xs ++ ys).Nodup) (h : labels.Perm (xs ++ ys))
    {u v : List Nat} (hu : u.length = xs.length) (hv : v.length = ys.length) :
    Index.offset (labels.map a) ((positions labels (xs ++ ys)).map fun k => (u ++ v).getD k 0) =
      Index.offset (xs.map a) u + Index.offset (ys.map a) v := by
  rw [offset_positions hn h (by simp [hu, hv]), List.map_append, Index.offset_append (by simp [hu])]

theorem offset_zeros {ι : Type} (is : List Nat) (xs : List ι) :
    Index.offset is (xs.map fun _ => 0) = 0 := by
  induction xs generalizing is with
  | nil => cases is <;> rfl
  | cons x xs ih =>
    cases is with
    | nil => rfl
    | cons i is => rw [List.map_cons, Index.offset, ih, Nat.mul_zero]

/-- The open axes and the summed ones make up the offset of a side. -/
theorem offset_side {α : Type} {t : Tensor α} (hlen : t.dims.length = ls.length) (hn : ls.Nodup)
    (hcs : ∀ l ∈ cs, l ∈ ls) (hcn : cs.Nodup) (hkeep : ∀ l, l ∉ cs → b l = a l) :
    Index.offset (ls.map b) (Index.strides t.dims) =
      Index.offset (((restAxes ls (positions cs ls)).map (axisLabel ls)).map a)
          ((restAxes ls (positions cs ls)).map t.stride) +
        Index.offset (cs.map b) ((positions cs ls).map t.stride) := by
  have hall := perm_restAxes (nodup_positions hcs hcn) fun k hk => lt_of_mem_positions hk
  have hopen : ∀ j ∈ restAxes ls (positions cs ls), axisLabel ls j ∉ cs := by
    intro j hj hc
    obtain ⟨hjl, hnot⟩ := mem_restAxes.1 hj
    exact hnot ((mem_positions hn hjl).2 hc)
  have hsum : cs.map b = (positions cs ls).map fun j => b (axisLabel ls j) := by
    conv => lhs; rw [← map_axisLabel_positions hcs]
    rw [List.map_map]
    rfl
  rw [t.offset_eq_along hlen, ← Tensor.along_perm b hall, Tensor.along_append, hsum,
    t.offset_map_stride, List.map_map, Tensor.along_congr fun j hj => hkeep _ (hopen j hj),
    ← t.offset_map_stride]
  rfl

end

section

variable {α : Type} [Element α] [LawfulElement α] {dim : Label → Nat} {s t : Tensor α}
variable {conjS conjT : Bool} {ls ms cs labels : List Label} {f g : Values → α}

/-- **A contraction sums a product over the common labels.** The permutation lists the other labels
of both sides in the order of the result. -/
theorem contractAt_eq (hs : Shows dim s conjS ls f) (ht : Shows dim t conjT ms g) (hls : ls.Nodup)
    (hms : ms.Nodup) (hcn : cs.Nodup) (hcs : ∀ l, l ∈ cs ↔ l ∈ ls ∧ l ∈ ms)
    {rest : List Label}
    (hrest : rest = (ls.filter fun l => decide (l ∉ cs)) ++ ms.filter fun l => decide (l ∉ cs))
    (hn : rest.Nodup) (hlabels : labels.Perm rest) {a : Values} (ha : ∀ l ∈ labels, a l < dim l) :
    Tensor.contractAt s t conjS conjT (positions cs ls) (positions cs ms) (positions labels rest)
        (labels.map a) =
      sumOver dim cs (fun b => f b * g b) a := by
  have hsl : s.dims.length = ls.length := by rw [hs.dims, List.length_map]
  have htl : t.dims.length = ms.length := by rw [ht.dims, List.length_map]
  have hext : (positions cs ls).map s.extent = cs.map dim := by
    conv => rhs; rw [← map_axisLabel_positions fun l hl => ((hcs l).1 hl).1]
    rw [List.map_map]
    exact List.map_congr_left fun j hj => hs.extent_eq (lt_of_mem_positions hj)
  have hopenS : s.openAxes (positions cs ls) = restAxes ls (positions cs ls) := by
    rw [Tensor.openAxes, Tensor.rank, hsl, restAxes]
  have hopenT : t.openAxes (positions cs ms) = restAxes ms (positions cs ms) := by
    rw [Tensor.openAxes, Tensor.rank, htl, restAxes]
  have hrange : ∀ v, Index.inRange v (cs.map dim) = true → ∀ l, l ∈ ls ∨ l ∈ ms →
      a.set cs v l < dim l := by
    intro v hv l hl
    refine Values.set_lt hcn hv fun hm => ha l (hlabels.mem_iff.2 ?_)
    rw [hrest, List.mem_append, List.mem_filter, List.mem_filter]
    exact hl.imp (fun h => ⟨h, decide_eq_true hm⟩) fun h => ⟨h, decide_eq_true hm⟩
  -- the labels that are left are those of the open axes
  rw [← map_axisLabel_restAxes hls, ← map_axisLabel_restAxes hms] at hrest
  subst hrest
  rw [sumOver_eq_sum_all, ← hext]
  unfold Tensor.contractAt
  dsimp only
  rw [List.foldl_map, foldl_add_eq_sum]
  refine congrArg List.sum (List.map_congr_left fun v hv => ?_)
  rw [Index.mem_all, hext] at hv
  have hvlen : v.length = cs.length := by rw [Index.length_of_inRange hv, List.length_map]
  have hkeep : ∀ l, l ∉ cs → a.set cs v l = a l := fun l hl => Values.set_of_not_mem hl v
  have houtS := offset_outer (a := a) hn hlabels
    (u := (restAxes ls (positions cs ls)).map s.stride)
    (v := (restAxes ms (positions cs ms)).map fun _ => 0) (by simp) (by simp)
  have houtT := offset_outer (a := a) hn hlabels
    (u := (restAxes ls (positions cs ls)).map fun _ => 0)
    (v := (restAxes ms (positions cs ms)).map t.stride) (by simp) (by simp)
  rw [offset_zeros, Nat.add_zero] at houtS
  rw [offset_zeros, Nat.zero_add] at houtT
  rw [← hs.read _ fun l hl => hrange v hv l (.inl hl),
    ← ht.read _ fun l hl => hrange v hv l (.inr hl),
    offset_side hsl hls (fun l hl => ((hcs l).1 hl).1) hcn hkeep,
    offset_side htl hms (fun l hl => ((hcs l).1 hl).2) hcn hkeep, Values.map_set hcn hvlen,
    ← houtS, ← houtT, hopenS, hopenT]
  rfl

end

end TensorNet
