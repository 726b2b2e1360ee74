import Mathlib.Algebra.Ring.Nat
import TensorNet.Tree.Optimal

/-!
# Sets of factors as numbers

The members of a set are its set bits, `Nat.bitIndices`. Here: what the operations of `Subset` do to
the bits, that `proper` runs through all proper subsets in descending order, that `ofSize` lists all
sets of a size, and that `splits` are exactly the ways to divide a set in two nonempty parts, the
one with the lowest member first.
-/

namespace TensorNet.Subset

/-! ### Bits -/

@[simp] theorem testBit_single (k i : Nat) : (single k).testBit i = decide (k = i) := by
  rw [single, Nat.one_shiftLeft, Nat.testBit_two_pow]

theorem mem_single {k i : Nat} : (single k).testBit i = true ↔ i = k := by
  rw [testBit_single, decide_eq_true_eq, eq_comm]

/-- A nonempty set is its lowest member and what lies above it. -/
theorem exists_lowest {s : Nat} (h : s ≠ 0) : ∃ m k, s = 2 ^ (m + 1) * k + 2 ^ m := by
  induction s using Nat.strongRecOn with
  | _ s ih =>
    rcases Nat.mod_two_eq_zero_or_one s with h0 | h1
    · obtain ⟨m, k, hk⟩ := ih (s / 2) (by omega) (by omega)
      refine ⟨m + 1, k, ?_⟩
      have h2 : s = 2 * (s / 2) := by omega
      have hp : 2 ^ (m + 1 + 1) * k = 2 * (2 ^ (m + 1) * k) := by
        rw [Nat.pow_succ', Nat.mul_assoc]
      have hq : 2 ^ (m + 1) = 2 * 2 ^ m := Nat.pow_succ'
      omega
    · refine ⟨0, s / 2, ?_⟩
      simp only [Nat.zero_add, Nat.pow_one, Nat.pow_zero]
      omega

/-- Taking the lowest member away clears its bit and no other. -/
theorem dropLowest_spec {s : Nat} (h : s ≠ 0) :
    ∃ m, s.testBit m = true ∧ (∀ i < m, s.testBit i = false) ∧
      ∀ i, (dropLowest s).testBit i = (s.testBit i && decide (i ≠ m)) := by
  obtain ⟨m, k, rfl⟩ := exists_lowest h
  have hlt : 2 ^ m < 2 ^ (m + 1) := Nat.pow_lt_pow_right (by decide) (by omega)
  have hpos : 0 < 2 ^ m := Nat.two_pow_pos m
  have hs : ∀ i, (2 ^ (m + 1) * k + 2 ^ m).testBit i =
      if i < m + 1 then decide (m = i) else k.testBit (i - (m + 1)) := by
    intro i
    rw [Nat.testBit_two_pow_mul_add _ hlt, Nat.testBit_two_pow]
  have hp : ∀ i, (2 ^ (m + 1) * k + 2 ^ m - 1).testBit i =
      if i < m + 1 then decide (i < m) else k.testBit (i - (m + 1)) := by
    intro i
    rw [Nat.add_sub_assoc hpos, Nat.testBit_two_pow_mul_add _ (by omega),
      Nat.testBit_two_pow_sub_one]
  refine ⟨m, by simp [hs], fun i hi => ?_, fun i => ?_⟩
  · rw [hs, if_pos (by omega), decide_eq_false (by omega)]
  · rw [dropLowest, Nat.testBit_and, hs, hp]
    by_cases hi : i < m + 1
    · by_cases hm : m = i
      · simp [hm]
      · simp [hi, hm]
    · have : i ≠ m := by omega
      simp [hi, this]

theorem testBit_lowest {s m : Nat} (hm : s.testBit m = true)
    (hd : ∀ i, (dropLowest s).testBit i = (s.testBit i && decide (i ≠ m))) (i : Nat) :
    (lowest s).testBit i = decide (i = m) := by
  rw [lowest, Nat.testBit_xor, hd]
  by_cases h : i = m
  · simp [h, hm]
  · simp [h]

/-- One set is a part of another. -/
def IsPart (t s : Nat) : Prop := ∀ i, t.testBit i = true → s.testBit i = true

theorem IsPart.le {t s : Nat} (h : IsPart t s) : t ≤ s := Nat.le_of_testBit h

theorem isPart_and (t s : Nat) : IsPart (t &&& s) s := by
  intro i h
  rw [Nat.testBit_and, Bool.and_eq_true] at h
  exact h.2

theorem testBit_of_ne_zero {s : Nat} (h : s ≠ 0) : ∃ i, s.testBit i = true := by
  obtain ⟨m, hm, -⟩ := dropLowest_spec h
  exact ⟨m, hm⟩

/-! ### Parts in descending order -/

/-- The largest part of `s` below a part `t` is `(t - 1) &&& s`. -/
theorem IsPart.le_pred_and {u t s : Nat} (hu : IsPart u s) (ht : IsPart t s) (h : u < t) :
    u ≤ (t - 1) &&& s := by
  obtain ⟨m, k, hk⟩ := exists_lowest (s := t) (by omega)
  have hlt : 2 ^ m < 2 ^ (m + 1) := Nat.pow_lt_pow_right (by decide) (by omega)
  have hpos : 0 < 2 ^ m := Nat.two_pow_pos m
  have hp : ∀ i, (t - 1).testBit i =
      if i < m + 1 then decide (i < m) else k.testBit (i - (m + 1)) := by
    intro i
    rw [hk, Nat.add_sub_assoc hpos, Nat.testBit_two_pow_mul_add _ (by omega),
      Nat.testBit_two_pow_sub_one]
  have htb : ∀ i, t.testBit i =
      if i < m + 1 then decide (m = i) else k.testBit (i - (m + 1)) := by
    intro i
    rw [hk, Nat.testBit_two_pow_mul_add _ hlt, Nat.testBit_two_pow]
  have hdiv : u = 2 ^ (m + 1) * (u / 2 ^ (m + 1)) + u % 2 ^ (m + 1) :=
    (Nat.div_add_mod u _).symm
  have hq : u / 2 ^ (m + 1) ≤ k := by
    refine Nat.le_of_not_lt fun hn => ?_
    have : 2 ^ (m + 1) * (k + 1) ≤ 2 ^ (m + 1) * (u / 2 ^ (m + 1)) :=
      Nat.mul_le_mul_left _ (by omega)
    rw [Nat.mul_add] at this
    omega
  rcases Nat.lt_or_eq_of_le hq with hq | hq
  · -- already the part above the lowest member of `t` is larger
    have h1 : 2 ^ (m + 1) * k ≤ (t - 1) &&& s := by
      refine Nat.le_of_testBit fun i hi => ?_
      rw [Nat.testBit_two_pow_mul, Bool.and_eq_true, decide_eq_true_eq] at hi
      have hni : ¬ i < m + 1 := by omega
      rw [Nat.testBit_and, hp, if_neg hni, hi.2, ht i (by rw [htb, if_neg hni, hi.2])]
      rfl
    have h2 : 2 ^ (m + 1) * (u / 2 ^ (m + 1) + 1) ≤ 2 ^ (m + 1) * k :=
      Nat.mul_le_mul_left _ hq
    have h3 : u % 2 ^ (m + 1) < 2 ^ (m + 1) := Nat.mod_lt _ (Nat.two_pow_pos _)
    rw [Nat.mul_add] at h2
    omega
  · -- the two agree above the lowest member of `t`, which `u` does not have
    have hr : u % 2 ^ (m + 1) < 2 ^ m := by rw [hq] at hdiv; omega
    refine Nat.le_of_testBit fun i hi => ?_
    rw [Nat.testBit_and, hu i hi, Bool.and_true, hp]
    rw [hdiv, hq, Nat.testBit_two_pow_mul_add _ (by omega)] at hi
    split at hi
    · next him =>
      rw [if_pos him, decide_eq_true_eq]
      refine Nat.lt_of_not_le fun hn => ?_
      rw [Nat.testBit_lt_two_pow (Nat.lt_of_lt_of_le hr
        (Nat.pow_le_pow_right (by decide) hn))] at hi
      cases hi
    · next him => rw [if_neg him, hi]

theorem mem_downFrom {s t u : Nat} (ht : IsPart t s) :
    u ∈ downFrom s t ↔ IsPart u s ∧ u ≤ t := by
  induction t using Nat.strongRecOn with
  | _ t ih =>
    unfold downFrom
    split
    · next h =>
      subst h
      rw [List.mem_singleton]
      refine ⟨?_, fun h => Nat.le_zero.1 h.2⟩
      rintro rfl
      exact ⟨ht, Nat.le_refl _⟩
    · next h =>
      have hlt : (t - 1) &&& s < t := Nat.lt_of_le_of_lt Nat.and_le_left (by omega)
      rw [List.mem_cons, ih _ hlt (isPart_and _ s)]
      constructor
      · rintro (rfl | ⟨hu, hle⟩)
        · exact ⟨ht, Nat.le_refl _⟩
        · exact ⟨hu, by omega⟩
      · rintro ⟨hu, hle⟩
        rcases Nat.lt_or_eq_of_le hle with hlt' | rfl
        · exact .inr ⟨hu, hu.le_pred_and ht hlt'⟩
        · exact .inl rfl

theorem pairwise_downFrom {s t : Nat} (ht : IsPart t s) :
    (downFrom s t).Pairwise fun u v => v < u := by
  induction t using Nat.strongRecOn with
  | _ t ih =>
    unfold downFrom
    split
    · exact List.pairwise_singleton _ _
    · next h =>
      have hlt : (t - 1) &&& s < t := Nat.lt_of_le_of_lt Nat.and_le_left (by omega)
      refine List.pairwise_cons.2 ⟨fun u hu => ?_, ih _ hlt (isPart_and _ s)⟩
      have := ((mem_downFrom (isPart_and _ s)).1 hu).2
      omega

/-- `proper` lists the parts of a set other than the set itself. -/
theorem mem_proper {s u : Nat} : u ∈ proper s ↔ IsPart u s ∧ u ≠ s := by
  unfold proper
  split
  · next h =>
    subst h
    refine ⟨nofun, fun hu => ?_⟩
    exact absurd (Nat.le_zero.1 hu.1.le) hu.2
  · next h =>
    rw [mem_downFrom (isPart_and _ s)]
    have hle : (s - 1) &&& s ≤ s - 1 := Nat.and_le_left
    constructor
    · rintro ⟨hu, hlt⟩
      exact ⟨hu, by omega⟩
    · rintro ⟨hu, hne⟩
      have := hu.le
      exact ⟨hu, hu.le_pred_and (fun _ hi => hi) (by omega)⟩

/-- They come in descending order. -/
theorem pairwise_proper (s : Nat) : (proper s).Pairwise fun u v => v < u := by
  unfold proper
  split
  · exact .nil
  · exact pairwise_downFrom (isPart_and _ s)

/-! ### Divisions in two -/

/-- A set whose lowest member is known: its lowest member is taken off by `dropLowest`. -/
structure HasLowest (s m : Nat) : Prop where
  mem : s.testBit m = true
  below : ∀ i < m, s.testBit i = false

theorem exists_hasLowest {s : Nat} (h : s ≠ 0) : ∃ m, HasLowest s m := by
  obtain ⟨m, hm, hb, -⟩ := dropLowest_spec h
  exact ⟨m, hm, hb⟩

namespace HasLowest

variable {s m : Nat} (h : HasLowest s m)
include h

theorem ne_zero : s ≠ 0 := by
  rintro rfl
  simpa using h.mem

theorem unique {k : Nat} (hk : HasLowest s k) : m = k := by
  rcases Nat.lt_trichotomy m k with hlt | rfl | hlt
  · have := hk.below m hlt
    rw [h.mem] at this
    cases this
  · rfl
  · have := h.below k hlt
    rw [hk.mem] at this
    cases this

theorem testBit_dropLowest (i : Nat) :
    (dropLowest s).testBit i = (s.testBit i && decide (i ≠ m)) := by
  obtain ⟨k, hk, hb, hd⟩ := dropLowest_spec h.ne_zero
  rw [h.unique ⟨hk, hb⟩, hd]

theorem lowest_eq : lowest s = single m := by
  refine Nat.eq_of_testBit_eq fun i => ?_
  rw [testBit_lowest h.mem h.testBit_dropLowest, testBit_single]
  exact decide_eq_decide.2 eq_comm

end HasLowest

/-- Bringing a new member into a set adds its power of two. -/
theorem two_pow_or {t m : Nat} (h : t.testBit m = false) : 2 ^ m ||| t = 2 ^ m + t := by
  have hr : t % 2 ^ (m + 1) < 2 ^ m := by
    rw [Nat.testBit_eq_decide_div_mod_eq, decide_eq_false_iff_not] at h
    have h0 : t / 2 ^ m % 2 = 0 := by omega
    rw [Nat.pow_succ, Nat.mod_mul, h0, Nat.mul_zero, Nat.add_zero]
    exact Nat.mod_lt _ (Nat.two_pow_pos m)
  have hs : 2 ^ m + t = 2 ^ (m + 1) * (t / 2 ^ (m + 1)) + (2 ^ m * 1 + t % 2 ^ (m + 1)) := by
    have := Nat.div_add_mod t (2 ^ (m + 1))
    omega
  have hlt : 2 ^ m * 1 + t % 2 ^ (m + 1) < 2 ^ (m + 1) := by
    rw [Nat.pow_succ'] at hr ⊢
    omega
  refine Nat.eq_of_testBit_eq fun i => ?_
  rw [hs, Nat.testBit_two_pow_mul_add _ hlt, Nat.two_pow_add_eq_or_of_lt hr, Nat.mul_one]
  conv => lhs; rw [← Nat.div_add_mod t (2 ^ (m + 1)), Nat.testBit_or,
    Nat.testBit_two_pow_mul_add _ (Nat.mod_lt _ (Nat.two_pow_pos _))]
  split
  · rw [Nat.testBit_or]
  · next hi =>
    rw [Nat.testBit_two_pow, decide_eq_false (by omega), Bool.false_or]

theorem xor_xor_cancel (x y : Nat) : x ^^^ (x ^^^ y) = y := by
  rw [← Nat.xor_assoc, Nat.xor_self, Nat.zero_xor]

/-- Taking a member out and bringing one in are both exclusive disjunctions. -/
theorem single_or {t m : Nat} (h : t.testBit m = false) : single m ||| t = single m ^^^ t := by
  refine Nat.eq_of_testBit_eq fun i => ?_
  rw [Nat.testBit_or, Nat.testBit_xor, testBit_single]
  by_cases hi : m = i
  · subst hi
    simp [h]
  · simp [hi]

namespace HasLowest

variable {s m : Nat} (h : HasLowest s m)
include h

theorem dropLowest_eq : dropLowest s = single m ^^^ s := by
  refine Nat.eq_of_testBit_eq fun i => ?_
  rw [h.testBit_dropLowest, Nat.testBit_xor, testBit_single]
  by_cases hi : m = i
  · subst hi
    simp [h.mem]
  · simp [hi, Ne.symm hi]

theorem not_mem_of_isPart {t : Nat} (ht : IsPart t (dropLowest s)) : t.testBit m = false := by
  refine Bool.eq_false_iff.2 fun hm => ?_
  have := ht m hm
  simp [h.testBit_dropLowest] at this

/-- **The splits of a set**: a part that has the lowest member and is not everything, and the
rest. -/
theorem mem_splits {l r : Nat} :
    (l, r) ∈ Search.splits s ↔ IsPart l s ∧ l.testBit m = true ∧ l ≠ s ∧ r = s ^^^ l := by
  simp only [Search.splits, List.mem_map, mem_proper, Prod.mk.injEq]
  constructor
  · rintro ⟨u, ⟨hu, hne⟩, rfl, rfl⟩
    have hum := h.not_mem_of_isPart hu
    rw [h.lowest_eq, single_or hum]
    rw [h.dropLowest_eq] at hne ⊢
    refine ⟨fun i hi => ?_, ?_, fun he => hne ?_, ?_⟩
    · rw [← single_or hum, Nat.testBit_or, Bool.or_eq_true, mem_single] at hi
      rcases hi with rfl | hi
      · exact h.mem
      · have := hu i hi
        rw [h.testBit_dropLowest, Bool.and_eq_true] at this
        exact this.1
    · rw [Nat.testBit_xor, testBit_single, hum]
      simp
    · rw [← he, xor_xor_cancel]
    · rw [Nat.xor_comm (single m) s, Nat.xor_assoc]
  · rintro ⟨hl, hlm, hne, rfl⟩
    have hb : ∀ i, (single m ^^^ l).testBit i = (l.testBit i && decide (i ≠ m)) := by
      intro i
      rw [Nat.testBit_xor, testBit_single]
      by_cases hi : m = i
      · subst hi
        simp [hlm]
      · simp [hi, Ne.symm hi]
    have hum : (single m ^^^ l).testBit m = false := by simp [hb]
    refine ⟨single m ^^^ l, ⟨fun i hi => ?_, fun he => hne ?_⟩, ?_, ?_⟩
    · rw [hb, Bool.and_eq_true] at hi
      rw [h.testBit_dropLowest, hl i hi.1, hi.2]
      rfl
    · rw [h.dropLowest_eq] at he
      rw [← xor_xor_cancel (single m) l, he, xor_xor_cancel]
    · rw [h.lowest_eq, single_or hum, xor_xor_cancel]
    · rw [h.dropLowest_eq, Nat.xor_comm (single m) s, Nat.xor_assoc, xor_xor_cancel]

/-- The left parts come in descending order. -/
theorem pairwise_splits : (Search.splits s).Pairwise fun a b => b.1 < a.1 := by
  rw [Search.splits, List.pairwise_map]
  refine (pairwise_proper _).imp_of_mem fun {u v} hu hv huv => ?_
  have hum := h.not_mem_of_isPart (mem_proper.1 hu).1
  have hvm := h.not_mem_of_isPart (mem_proper.1 hv).1
  rw [h.lowest_eq, single, Nat.one_shiftLeft, two_pow_or hum, two_pow_or hvm]
  omega

end HasLowest

/-! ### Sets of listed numbers -/

/-- The set of the listed numbers. -/
def ofFactors (fs : List Nat) : Nat := fs.foldr (fun f s => single f ||| s) 0

@[simp] theorem testBit_ofFactors (fs : List Nat) (i : Nat) :
    (ofFactors fs).testBit i = decide (i ∈ fs) := by
  induction fs with
  | nil => simp [ofFactors]
  | cons f fs ih =>
    show (single f ||| ofFactors fs).testBit i = _
    rw [Nat.testBit_or, testBit_single, ih, ← Bool.decide_or]
    exact decide_eq_decide.2 (by rw [List.mem_cons, eq_comm])

theorem ofFactors_eq_iff {fs gs : List Nat} :
    ofFactors fs = ofFactors gs ↔ ∀ i, i ∈ fs ↔ i ∈ gs := by
  constructor
  · intro h i
    have := congrArg (fun s => s.testBit i) h
    simpa using this
  · intro h
    refine Nat.eq_of_testBit_eq fun i => ?_
    simp [h]

theorem ofFactors_singleton (f : Nat) : ofFactors [f] = single f := by
  refine Nat.eq_of_testBit_eq fun i => ?_
  rw [testBit_ofFactors, testBit_single]
  exact decide_eq_decide.2 (by rw [List.mem_singleton, eq_comm])

/-- Of two lists without a common number the second is what the union has besides the first. -/
theorem ofFactors_xor_left {fs gs : List Nat} (hd : ∀ i ∈ fs, i ∉ gs) :
    ofFactors (fs ++ gs) ^^^ ofFactors fs = ofFactors gs := by
  refine Nat.eq_of_testBit_eq fun i => ?_
  rw [Nat.testBit_xor, testBit_ofFactors, testBit_ofFactors, testBit_ofFactors]
  by_cases hf : i ∈ fs
  · simp [hf, hd i hf]
  · simp [hf]

theorem ofFactors_range (n : Nat) : ofFactors (List.range n) = full n := by
  refine Nat.eq_of_testBit_eq fun i => ?_
  rw [testBit_ofFactors, full, Nat.one_shiftLeft, Nat.testBit_two_pow_sub_one]
  exact decide_eq_decide.2 List.mem_range

/-- A set of one number is recognised, and its member is read off. -/
theorem isSingleton_iff {s m : Nat} (h : HasLowest s m) :
    isSingleton s = true ↔ s = single m := by
  rw [isSingleton, Bool.and_eq_true, bne_iff_ne, beq_iff_eq, h.dropLowest_eq]
  constructor
  · rintro ⟨-, he⟩
    rw [← xor_xor_cancel (single m) s, he, Nat.xor_zero]
  · intro he
    exact ⟨h.ne_zero, by rw [he, Nat.xor_self]⟩

@[simp] theorem member_single (k : Nat) : member (single k) = k := by
  rw [member, single, Nat.one_shiftLeft, Nat.log2_two_pow]

/-- An ascending list of `k` of the `n` numbers from `start` on. -/
structure Picks (n k start : Nat) (fs : List Nat) : Prop where
  ascending : fs.Pairwise (· < ·)
  range : ∀ f ∈ fs, start ≤ f ∧ f < start + n
  length : fs.length = k

theorem picks_zero {n start : Nat} {fs : List Nat} : Picks n 0 start fs ↔ fs = [] := by
  constructor
  · intro h
    exact List.length_eq_zero_iff.1 h.length
  · rintro rfl
    exact ⟨.nil, nofun, rfl⟩

theorem not_picks_succ {k start : Nat} {fs : List Nat} : ¬ Picks 0 (k + 1) start fs := by
  intro h
  obtain ⟨f, fs, rfl⟩ := List.exists_cons_of_length_eq_add_one h.length
  have := h.range f List.mem_cons_self
  omega

/-- The first number is picked or it is not. -/
theorem picks_succ {n k start : Nat} {fs : List Nat} : Picks (n + 1) (k + 1) start fs ↔
    (∃ gs, Picks n k (start + 1) gs ∧ fs = start :: gs) ∨ Picks n (k + 1) (start + 1) fs := by
  constructor
  · rintro ⟨hp, hb, hl⟩
    obtain ⟨f, fs, rfl⟩ := List.exists_cons_of_length_eq_add_one hl
    obtain ⟨hf, hp'⟩ := List.pairwise_cons.1 hp
    have hfb := hb f List.mem_cons_self
    have hrest : ∀ g ∈ fs, start + 1 ≤ g ∧ g < start + 1 + n := by
      intro g hg
      have h1 := hf g hg
      have h2 := hb g (List.mem_cons_of_mem _ hg)
      omega
    rcases Nat.lt_or_eq_of_le hfb.1 with hlt | rfl
    · refine .inr ⟨hp, fun g hg => ?_, hl⟩
      rcases List.mem_cons.1 hg with rfl | hg
      · omega
      · exact hrest g hg
    · exact .inl ⟨fs, ⟨hp', hrest, Nat.succ.inj hl⟩, rfl⟩
  · rintro (⟨gs, ⟨hp, hb, hl⟩, rfl⟩ | ⟨hp, hb, hl⟩)
    · refine ⟨List.pairwise_cons.2 ⟨fun f hf => ?_, hp⟩, fun f hf => ?_, ?_⟩
      · have := hb f hf
        omega
      · rcases List.mem_cons.1 hf with rfl | hf
        · omega
        · have := hb f hf
          omega
      · rw [List.length_cons, hl]
    · refine ⟨hp, fun f hf => ?_, hl⟩
      have := hb f hf
      omega

theorem mem_ofSizeFrom {n k start s : Nat} :
    s ∈ ofSizeFrom n k start ↔ ∃ fs, Picks n k start fs ∧ s = ofFactors fs := by
  induction n, k, start using ofSizeFrom.induct generalizing s with
  | case1 n start => simp [ofSizeFrom, picks_zero, ofFactors]
  | case2 start k => simp [ofSizeFrom, not_picks_succ]
  | case3 n k start ih₁ ih₂ =>
    simp only [ofSizeFrom, List.mem_append, List.mem_map, ih₁, ih₂, picks_succ]
    constructor
    · rintro (⟨_, ⟨gs, hgs, rfl⟩, rfl⟩ | ⟨fs, hfs, rfl⟩)
      · exact ⟨start :: gs, .inl ⟨gs, hgs, rfl⟩, rfl⟩
      · exact ⟨fs, .inr hfs, rfl⟩
    · rintro ⟨_, ⟨gs, hgs, rfl⟩ | hfs, rfl⟩
      · exact .inl ⟨_, ⟨gs, hgs, rfl⟩, rfl⟩
      · exact .inr ⟨_, hfs, rfl⟩

/-- No set is listed twice: those with the first number are not those without it. -/
theorem nodup_ofSizeFrom (n k start : Nat) : (ofSizeFrom n k start).Nodup := by
  induction n, k, start using ofSizeFrom.induct with
  | case1 n start => simp [ofSizeFrom]
  | case2 start k => simp [ofSizeFrom]
  | case3 n k start ih₁ ih₂ =>
    have hbit : ∀ {m s}, s ∈ ofSizeFrom n m (start + 1) → s.testBit start = false := by
      intro m s hs
      obtain ⟨fs, hfs, rfl⟩ := mem_ofSizeFrom.1 hs
      rw [testBit_ofFactors]
      refine decide_eq_false fun hmem => ?_
      have := (hfs.range start hmem).1
      omega
    rw [ofSizeFrom]
    refine List.nodup_append.2 ⟨?_, ih₂, fun s hs t ht he => ?_⟩
    · refine List.pairwise_map.2 (ih₁.imp_of_mem fun {s t} hs ht hne he => hne ?_)
      rw [single_or (hbit hs), single_or (hbit ht)] at he
      rw [← xor_xor_cancel (single start) s, he, xor_xor_cancel]
    · obtain ⟨s, -, rfl⟩ := List.mem_map.1 hs
      have h := hbit ht
      rw [← he, Nat.testBit_or, mem_single.2 rfl] at h
      cases h

theorem nodup_ofSize (n k : Nat) : (ofSize n k).Nodup := nodup_ofSizeFrom n k 0

/-- `ofSize` lists the sets of `k` different numbers below `n`. -/
theorem mem_ofSize {n k s : Nat} :
    s ∈ ofSize n k ↔ ∃ fs : List Nat, fs.Pairwise (· < ·) ∧ (∀ f ∈ fs, f < n) ∧ fs.length = k ∧
      s = ofFactors fs := by
  rw [ofSize, mem_ofSizeFrom]
  constructor
  · rintro ⟨fs, ⟨hp, hb, hl⟩, rfl⟩
    exact ⟨fs, hp, fun f hf => by simpa using hb f hf, hl, rfl⟩
  · rintro ⟨fs, hp, hb, hl, rfl⟩
    exact ⟨fs, ⟨hp, fun f hf => by simpa using hb f hf, hl⟩, rfl⟩

end TensorNet.Subset
