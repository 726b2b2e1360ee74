import Mathlib.Data.Finset.Powerset
import Mathlib.Data.List.Sort
import Mathlib.Data.Nat.BitIndices
import Mathlib.Data.Nat.Choose.Basic
import Mathlib.Data.Sym.Sym2
import TensorNet.Proofs.Tree.Masks

/-!
# What the search tries

The search for the cheapest tree is right only if it tries everything: all sets of each size, and
all ways to part a set in two. Main statement: nothing is left out, nothing is tried twice, and the
proper parts of a set come in descending order.

That the walk through the parts of a set leaves none out rests on `(t - 1) &&& s` being the largest
part below `t` (`Subset.IsPart.le_pred_and`). The sets of a size are collected by choosing or
leaving out one number after another; where fewer numbers are left than have to be chosen there is
no set, so the collecting may stop there (`Subset.collect_eq`). A part with the lowest member and
the part without it make each unordered pair once.
-/

namespace TensorNet.Subset

/-- A list has everything that satisfies a condition, once, and nothing else. -/
structure ListsOnce {α : Type} (l : List α) (P : α → Prop) : Prop where
  nodup : l.Nodup
  mem_iff : ∀ a, a ∈ l ↔ P a

/-! ### Sets of a size -/

theorem bitIndices_ofFactors {fs : List Nat} (h : fs.Pairwise (· < ·)) :
    (ofFactors fs).bitIndices = fs :=
  Nat.bitIndices_sorted.eq_of_mem_iff h.sortedLT fun i => by
    rw [Nat.mem_bitIndices, testBit_ofFactors, decide_eq_true_eq]

theorem ofFactors_bitIndices (s : Nat) : ofFactors s.bitIndices = s := by
  refine Nat.eq_of_testBit_eq fun i => ?_
  rw [testBit_ofFactors]
  exact Bool.eq_iff_iff.2 (decide_eq_true_iff.trans Nat.mem_bitIndices)

/-- **The sets of a size** are the numbers with so many set bits. -/
theorem mem_ofSize_iff_bits {n size s : Nat} :
    s ∈ ofSize n size ↔ s < 2 ^ n ∧ s.bitIndices.length = size := by
  rw [mem_ofSize]
  constructor
  · rintro ⟨fs, hp, hlt, hlen, rfl⟩
    refine ⟨Nat.lt_pow_two_of_testBit _ fun i hi => ?_, by rw [bitIndices_ofFactors hp, hlen]⟩
    rw [testBit_ofFactors]
    exact decide_eq_false fun hmem => Nat.not_lt.2 hi (hlt i hmem)
  · rintro ⟨hs, hlen⟩
    refine ⟨s.bitIndices, Nat.bitIndices_sorted.pairwise, fun i hi => ?_, hlen,
      (ofFactors_bitIndices s).symm⟩
    have hle : 2 ^ i ≤ s := Nat.two_pow_le_of_mem_bitIndices hi
    exact (Nat.pow_lt_pow_iff_right (by decide)).1 (Nat.lt_of_le_of_lt hle hs)

theorem length_ofSizeFrom (count size start : Nat) :
    (ofSizeFrom count size start).length = count.choose size := by
  induction count, size, start using ofSizeFrom.induct with
  | case1 count start => simp [ofSizeFrom]
  | case2 start size => simp [ofSizeFrom]
  | case3 count size start ih₁ ih₂ =>
    rw [ofSizeFrom, List.length_append, List.length_map, ih₁, ih₂, Nat.choose_succ_succ]

/-- Collects the sets of `size` of the `count` numbers from `start` on, each joined to what has
been chosen before, and stops where there are not enough numbers. -/
def collect : (count size start chosen : Nat) → List Nat
  | _, 0, _, chosen => [chosen]
  | 0, _ + 1, _, _ => []
  | count + 1, size + 1, start, chosen =>
    if count < size then []
    else
      collect count size (start + 1) (chosen ||| single start) ++
        collect count (size + 1) (start + 1) chosen

/-- **Stopping early loses no set.** -/
theorem collect_eq (count size start chosen : Nat) :
    collect count size start chosen = (ofSizeFrom count size start).map (chosen ||| ·) := by
  induction count, size, start, chosen using collect.induct with
  | case1 count start chosen => simp [collect, ofSizeFrom]
  | case2 size start chosen => rfl
  | case3 count size start chosen hlt =>
    have hlen : (ofSizeFrom (count + 1) (size + 1) start).length = 0 := by
      rw [length_ofSizeFrom, Nat.choose_eq_zero_of_lt (by omega)]
    rw [collect, if_pos hlt, List.length_eq_zero_iff.1 hlen, List.map_nil]
  | case4 count size start chosen hlt ih₁ ih₂ =>
    rw [collect, if_neg hlt, ih₁, ih₂, ofSizeFrom, List.map_append, List.map_map]
    simp only [Function.comp_def, Nat.or_assoc]

/-! ### Parts of a set -/

theorem isPart_iff {t s : Nat} : IsPart t s ↔ t &&& s = t := by
  constructor
  · intro h
    refine Nat.eq_of_testBit_eq fun i => ?_
    rw [Nat.testBit_and]
    cases ht : t.testBit i with
    | false => rfl
    | true => rw [h i ht, Bool.true_and]
  · intro h i hi
    rw [← h, Nat.testBit_and, Bool.and_eq_true] at hi
    exact hi.2

theorem nodup_proper (s : Nat) : (proper s).Nodup :=
  (pairwise_proper s).imp fun h => Nat.ne_of_gt h

/-- The parts of a set, itself included, are listed by `proper` and the set. -/
theorem mem_cons_proper {s t : Nat} : t ∈ s :: proper s ↔ IsPart t s := by
  rw [List.mem_cons, mem_proper]
  constructor
  · rintro (rfl | ⟨h, -⟩)
    · exact fun _ hi => hi
    · exact h
  · intro h
    by_cases hts : t = s
    · exact .inl hts
    · exact .inr ⟨h, hts⟩

/-- **The walk through the parts ends** after as many steps as there are subsets of the members,
less one. -/
theorem length_proper (s : Nat) : (proper s).length + 1 = 2 ^ s.bitIndices.length := by
  have hnodup : (s :: proper s).Nodup :=
    List.nodup_cons.2 ⟨fun h => (mem_proper.1 h).2 rfl, nodup_proper s⟩
  have hcard : (s :: proper s).toFinset.card = s.bitIndices.toFinset.powerset.card := by
    refine Finset.card_nbij' (fun t => t.bitIndices.toFinset) (fun u => ofFactors u.toList)
      (fun t ht => ?_) (fun u hu => ?_) (fun t _ => ?_) fun u _ => ?_
    · have hpart := mem_cons_proper.1 (List.mem_toFinset.1 ht)
      exact Finset.mem_powerset.2 fun i hi => by simpa using hpart i (by simpa using hi)
    · refine List.mem_toFinset.2 (mem_cons_proper.2 fun i hi => ?_)
      have hmem : i ∈ u := by simpa using hi
      simpa using Finset.mem_powerset.1 hu hmem
    · exact Nat.eq_of_testBit_eq fun i => by simp
    · exact Finset.ext fun i => by simp
  rw [List.toFinset_card_of_nodup hnodup, Finset.card_powerset,
    List.toFinset_card_of_nodup Nat.bitIndices_nodup] at hcard
  exact hcard

/-! ### Ways to part a set -/

/-- Two sets part a third: neither is empty, they have no member in common, and together they are
the third. -/
structure Parts (s a b : Nat) : Prop where
  left_ne : a ≠ 0
  right_ne : b ≠ 0
  disjoint : a &&& b = 0
  union : a ||| b = s

namespace Parts

variable {s a b : Nat}

theorem symm (h : Parts s a b) : Parts s b a :=
  ⟨h.right_ne, h.left_ne, Nat.and_comm a b ▸ h.disjoint, Nat.or_comm a b ▸ h.union⟩

/-- The second part is what the first one leaves, and the first is not everything. -/
theorem iff_xor : Parts s a b ↔ IsPart a s ∧ a ≠ 0 ∧ a ≠ s ∧ b = s ^^^ a := by
  constructor
  · rintro ⟨ha, hb, hdisj, rfl⟩
    have hbit : ∀ i, (a.testBit i && b.testBit i) = false := fun i => by
      rw [← Nat.testBit_and, hdisj, Nat.zero_testBit]
    have hxor : b = (a ||| b) ^^^ a := by
      refine Nat.eq_of_testBit_eq fun i => ?_
      have := hbit i
      rw [Nat.testBit_xor, Nat.testBit_or]
      cases h : a.testBit i <;> simp_all
    refine ⟨fun i hi => ?_, ha, fun he => hb ?_, hxor⟩
    · rw [Nat.testBit_or, hi, Bool.true_or]
    · rw [hxor, ← he, Nat.xor_self]
  · rintro ⟨hpart, ha, hne, rfl⟩
    refine ⟨ha, fun h0 => hne ?_, ?_, ?_⟩
    · rw [← xor_xor_cancel s a, h0, Nat.xor_zero]
    · refine Nat.eq_of_testBit_eq fun i => ?_
      rw [Nat.testBit_and, Nat.testBit_xor, Nat.zero_testBit]
      cases h : a.testBit i with
      | false => rfl
      | true => rw [hpart i h]; rfl
    · refine Nat.eq_of_testBit_eq fun i => ?_
      rw [Nat.testBit_or, Nat.testBit_xor]
      cases h : a.testBit i with
      | false => simp
      | true => rw [hpart i h]; rfl

end Parts

namespace HasLowest

variable {s m : Nat} (h : HasLowest s m)
include h

/-- The splits are the ways to part the set with the lowest member in the first part. -/
theorem mem_splits_iff {a b : Nat} :
    (a, b) ∈ Search.splits s ↔ Parts s a b ∧ a.testBit m = true := by
  rw [h.mem_splits, Parts.iff_xor]
  constructor
  · rintro ⟨hpart, hm, hne, rfl⟩
    refine ⟨⟨hpart, fun h0 => ?_, hne, rfl⟩, hm⟩
    rw [h0, Nat.zero_testBit] at hm
    cases hm
  · rintro ⟨⟨hpart, -, hne, rfl⟩, hm⟩
    exact ⟨hpart, hm, hne, rfl⟩

/-- The lowest member is in one of the two parts only. -/
theorem not_mem_right {a b : Nat} (hp : Parts s a b) (hm : a.testBit m = true) :
    b.testBit m = false := by
  rw [(Parts.iff_xor.1 hp).2.2.2, Nat.testBit_xor, hm, h.mem]
  rfl

theorem splits_listsOnce :
    ListsOnce ((Search.splits s).map fun p => s(p.1, p.2)) fun z =>
      ∃ a b, z = s(a, b) ∧ Parts s a b := by
  constructor
  · refine List.pairwise_map.2 (h.pairwise_splits.imp_of_mem ?_)
    rintro ⟨a, b⟩ ⟨c, d⟩ hab hcd hlt he
    obtain ⟨-, hm⟩ := h.mem_splits_iff.1 hab
    obtain ⟨hcd, hm'⟩ := h.mem_splits_iff.1 hcd
    rcases Sym2.eq_iff.1 he with ⟨rfl, -⟩ | ⟨rfl, -⟩
    · exact absurd hlt (Nat.lt_irrefl _)
    · rw [h.not_mem_right hcd hm'] at hm
      cases hm
  · intro z
    rw [List.mem_map]
    constructor
    · rintro ⟨⟨a, b⟩, hab, rfl⟩
      exact ⟨a, b, rfl, (h.mem_splits_iff.1 hab).1⟩
    · rintro ⟨a, b, rfl, hp⟩
      have hbit : (a.testBit m || b.testBit m) = true := by
        rw [← Nat.testBit_or, hp.union, h.mem]
      rcases Bool.or_eq_true_iff.1 hbit with ha | hb
      · exact ⟨(a, b), h.mem_splits_iff.2 ⟨hp, ha⟩, rfl⟩
      · exact ⟨(b, a), h.mem_splits_iff.2 ⟨hp.symm, hb⟩, Sym2.eq_swap⟩

end HasLowest

theorem testBit_lowest_iff {s i : Nat} :
    (lowest s).testBit i = true ↔ s.testBit i = true ∧ ∀ j < i, s.testBit j = false := by
  by_cases h0 : s = 0
  · subst h0
    simp [lowest, dropLowest]
  · obtain ⟨m, h⟩ := exists_hasLowest h0
    rw [h.lowest_eq, mem_single]
    constructor
    · rintro rfl
      exact ⟨h.mem, h.below⟩
    · rintro ⟨hi, hbelow⟩
      exact (h.unique ⟨hi, hbelow⟩).symm

/-- In 64 bits the lowest member is what a set has in common with its negative. -/
theorem toNat_and_neg (w : UInt64) : (w &&& -w).toNat = lowest w.toNat := by
  refine Nat.eq_of_testBit_eq fun i => Bool.eq_iff_iff.2 ?_
  have hbit : ∀ j, w.toNat.testBit j = w.toBitVec.getLsbD j := fun j => BitVec.testBit_toNat ..
  have hneg : (w &&& -w).toNat.testBit i = (w.toBitVec &&& -w.toBitVec).getLsbD i :=
    BitVec.testBit_toNat ..
  rw [testBit_lowest_iff, hneg, BitVec.getLsbD_and, BitVec.getLsbD_neg]
  simp only [hbit]
  cases hi : w.toBitVec.getLsbD i with
  | false => simp
  | true => simp [BitVec.lt_of_getLsbD hi]

theorem dropLowest_eq_xor (s : Nat) : dropLowest s = s ^^^ lowest s :=
  (xor_xor_cancel s (dropLowest s)).symm

end TensorNet.Subset

namespace TensorNet.Search

open Subset

theorem splits_listsOnce (s : Nat) :
    ListsOnce ((splits s).map fun p => s(p.1, p.2)) fun z => ∃ a b, z = s(a, b) ∧ Parts s a b := by
  by_cases h0 : s = 0
  · subst h0
    refine ⟨List.nodup_nil, fun z => ⟨nofun, ?_⟩⟩
    rintro ⟨a, b, -, hp⟩
    exact absurd (Nat.or_eq_zero_iff.1 hp.union).1 hp.left_ne
  · obtain ⟨m, h⟩ := exists_hasLowest h0
    exact h.splits_listsOnce

/-- **What the search tries.** The sets of a size, collected one number after another; the parts of
a set other than the set; and the ways to part a set in two, found from the parts of what is left
without its lowest member. -/
structure TriesAll (n size s : Nat) : Prop where
  collected : collect n size 0 0 = ofSize n size
  sets : ListsOnce (ofSize n size) fun t => t < 2 ^ n ∧ t.bitIndices.length = size
  length_sets : (ofSize n size).length = n.choose size
  descending : (proper s).Pairwise (· > ·)
  parts : ListsOnce (proper s) fun t => t &&& s = t ∧ t ≠ s
  length_parts : (proper s).length + 1 = 2 ^ s.bitIndices.length
  parts_empty : proper 0 = []
  lowest_word : ∀ w : UInt64, w.toNat = s → (w &&& -w).toNat = lowest s
  lowest_iff : ∀ i, (lowest s).testBit i = true ↔
    s.testBit i = true ∧ ∀ j < i, s.testBit j = false
  splits_eq : splits s =
    (proper (s ^^^ lowest s)).map fun t => (lowest s ||| t, (s ^^^ lowest s) ^^^ t)
  pairs : ListsOnce ((splits s).map fun p => s(p.1, p.2)) fun z =>
    ∃ a b, z = s(a, b) ∧ Parts s a b

/-- **The search tries everything once.** -/
theorem triesAll (n size s : Nat) : TriesAll n size s where
  collected := by
    rw [collect_eq]
    exact (List.map_congr_left fun t _ => Nat.zero_or t).trans (List.map_id _)
  sets := ⟨nodup_ofSize n size, fun _ => mem_ofSize_iff_bits⟩
  length_sets := length_ofSizeFrom n size 0
  descending := pairwise_proper s
  parts := ⟨nodup_proper s, fun t => by rw [mem_proper, isPart_iff]⟩
  length_parts := length_proper s
  parts_empty := rfl
  lowest_word w hw := hw ▸ toNat_and_neg w
  lowest_iff _ := testBit_lowest_iff
  splits_eq := by rw [splits, dropLowest_eq_xor]
  pairs := splits_listsOnce s

example : proper 5 = [4, 1, 0] := by cbv

end TensorNet.Search
