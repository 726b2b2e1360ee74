import Mathlib.Data.Finset.Card
import TensorNet.Proofs.LabelSet
import TensorNet.Proofs.Tree.Masks

/-!
# Sets of label ids are finite sets

A set is made from listed numbers by insertions, unions, intersections and symmetric differences
(`Expr`). Main statement: its value represents the finite set that the same operations make of the
same numbers, and two values are equal exactly when these finite sets are.

What carries the second half is that no operation leaves a zero word at the end (`Trimmed`). Words
with the same bits are equal, and of two trimmed lists of words neither can have more words than
the other without having a member more.

The members of a word are walked by clearing the lowest set bit until none is left (`peel`), and
counted by its population count. Both agree with the list of its set bits.
-/

namespace TensorNet.LabelSet

/-! ### Trimmed sets -/

/-- The last word is not zero. -/
def Trimmed (s : LabelSet) : Prop := s.words.getLast? ≠ some 0

theorem getLast?_cons_ne {w : UInt64} {ws : List UInt64} (hw : ws = [] → w ≠ 0)
    (hws : ws.getLast? ≠ some 0) : (w :: ws).getLast? ≠ some 0 := by
  cases ws with
  | nil => simpa using hw rfl
  | cons v vs => rwa [List.getLast?_cons_cons]

theorem getLast?_tail_ne {w : UInt64} {ws : List UInt64} (h : (w :: ws).getLast? ≠ some 0) :
    ws.getLast? ≠ some 0 := by
  cases ws with
  | nil => nofun
  | cons v vs => rwa [List.getLast?_cons_cons] at h

theorem getLast?_trim (ws : List UInt64) : (trim ws).getLast? ≠ some 0 := by
  induction ws with
  | nil => nofun
  | cons w ws ih =>
    unfold trim
    split
    · split
      · nofun
      · next hw => exact getLast?_cons_ne (fun _ => hw) nofun
    · next v vs h =>
      rw [h] at ih
      exact getLast?_cons_ne nofun ih

theorem trimmed_combine (f : UInt64 → UInt64 → UInt64) (s t : LabelSet) :
    (combine f s t).Trimmed :=
  getLast?_trim _

/-- A word with a set bit is not zero. -/
theorem ne_zero_of_bit {w : UInt64} {k : Nat} (h : bit w k = true) : w ≠ 0 := by
  rintro rfl
  rw [bit_zero] at h
  cases h

theorem insertAt_ne_nil (k n : Nat) (ws : List UInt64) : insertAt k n ws ≠ [] := by
  cases n <;> cases ws <;> nofun

theorem getLast?_insertAt {k : Nat} (hk : k < 64) (n : Nat) {ws : List UInt64}
    (h : ws.getLast? ≠ some 0) : (insertAt k n ws).getLast? ≠ some 0 := by
  have hunit : bit (unitWord k) k = true := by simp [bit_unitWord hk]
  induction n generalizing ws with
  | zero =>
    cases ws with
    | nil => exact getLast?_cons_ne (fun _ => ne_zero_of_bit hunit) nofun
    | cons w ws =>
      have hor : bit (w ||| unitWord k) k = true := by simp [hunit]
      exact getLast?_cons_ne (fun _ => ne_zero_of_bit hor) (getLast?_tail_ne h)
  | succ n ih =>
    -- more words follow, so it does not matter which word comes first
    cases ws with
    | nil => exact getLast?_cons_ne (fun he => absurd he (insertAt_ne_nil k n [])) (ih nofun)
    | cons w ws =>
      exact getLast?_cons_ne (fun he => absurd he (insertAt_ne_nil k n ws))
        (ih (getLast?_tail_ne h))

theorem trimmed_empty : Trimmed ∅ := nofun

theorem Trimmed.insert {s : LabelSet} (h : s.Trimmed) (i : Nat) : (s.insert i).Trimmed :=
  getLast?_insertAt (Nat.mod_lt i (by decide)) _ h

theorem trimmed_ofList (ids : List Nat) : (ofList ids).Trimmed := by
  have fold : ∀ (ids : List Nat) (s : LabelSet), s.Trimmed →
      (ids.foldl (fun s i => s.insert i) s).Trimmed := by
    intro ids
    induction ids with
    | nil =>
      intro s hs
      exact hs
    | cons i ids ih =>
      intro s hs
      exact ih _ (hs.insert i)
  exact fold ids ∅ trimmed_empty

/-! ### Equality -/

theorem eq_of_bit {v w : UInt64} (h : ∀ k < 64, bit v k = bit w k) : v = w := by
  refine UInt64.toNat_inj.1 (Nat.eq_of_testBit_eq fun k => ?_)
  by_cases hk : k < 64
  · exact h k hk
  · have hpow : 2 ^ 64 ≤ 2 ^ k := Nat.pow_le_pow_right (by decide) (by omega)
    rw [Nat.testBit_lt_two_pow (Nat.lt_of_lt_of_le v.toNat_lt hpow),
      Nat.testBit_lt_two_pow (Nat.lt_of_lt_of_le w.toNat_lt hpow)]

/-- A trimmed list of zero words is empty. -/
theorem eq_nil_of_getD {ws : List UInt64} (hws : ws.getLast? ≠ some 0)
    (h : ∀ n, ws.getD n 0 = 0) : ws = [] := by
  by_contra hne
  have hlast := h (ws.length - 1)
  rw [List.getD_eq_getElem?_getD, ← List.getLast?_eq_getElem?,
    List.getLast?_eq_some_getLast hne, Option.getD_some] at hlast
  exact hws (by rw [List.getLast?_eq_some_getLast hne, hlast])

theorem eq_of_getD {vs ws : List UInt64} (hvs : vs.getLast? ≠ some 0)
    (hws : ws.getLast? ≠ some 0) (h : ∀ n, vs.getD n 0 = ws.getD n 0) : vs = ws := by
  induction vs generalizing ws with
  | nil => exact (eq_nil_of_getD hws fun n => (h n).symm).symm
  | cons v vs ih =>
    cases ws with
    | nil => exact eq_nil_of_getD hvs h
    | cons w ws =>
      have hhead : v = w := h 0
      have htail : vs = ws :=
        ih (getLast?_tail_ne hvs) (getLast?_tail_ne hws) fun n => h (n + 1)
      rw [hhead, htail]

/-- **Trimmed sets with the same members are equal.** -/
theorem Trimmed.ext {s t : LabelSet} (hs : s.Trimmed) (ht : t.Trimmed)
    (h : ∀ i, s.contains i = t.contains i) : s = t := by
  obtain ⟨vs⟩ := s
  obtain ⟨ws⟩ := t
  refine congrArg LabelSet.mk (eq_of_getD hs ht fun n => eq_of_bit fun k hk => ?_)
  have hi := h (64 * n + k)
  have hdiv : (64 * n + k) / 64 = n := by omega
  have hmod : (64 * n + k) % 64 = k := by omega
  simpa only [contains, bitAt, hdiv, hmod] using hi

/-! ### Walking and counting the bits of a word -/

/-- A word without its lowest set bit. -/
def clearLowest (w : UInt64) : UInt64 := w &&& (w - 1)

theorem toNat_pred {w : UInt64} (h : w ≠ 0) : (w - 1).toNat = w.toNat - 1 := by
  refine UInt64.toNat_sub_of_le _ _ (UInt64.le_iff_toNat_le.2 ?_)
  have hpos : w.toNat ≠ 0 := fun h0 => h (UInt64.toNat_inj.1 h0)
  show 1 ≤ w.toNat
  omega

theorem clearLowest_lt {w : UInt64} (h : w ≠ 0) : (clearLowest w).toNat < w.toNat := by
  have hpos : w.toNat ≠ 0 := fun h0 => h (UInt64.toNat_inj.1 h0)
  have hle : w.toNat &&& (w.toNat - 1) ≤ w.toNat - 1 := Nat.and_le_right
  rw [clearLowest, UInt64.toNat_and, toNat_pred h]
  omega

/-- The set bits of a word, ascending: the number of zeros below the lowest one, which is cleared
before the next is looked for. -/
def peel (w : UInt64) : List Nat :=
  if _h : w = 0 then [] else w.toBitVec.ctz.toNat :: peel (clearLowest w)
termination_by w.toNat
decreasing_by exact clearLowest_lt _h

theorem bit_eq_getLsbD (w : UInt64) (k : Nat) : bit w k = w.toBitVec.getLsbD k := by
  rw [← BitVec.testBit_toNat]
  rfl

/-- The lowest set bit: it is set, and none is set below it. -/
theorem bit_ctz {w : UInt64} (h : w ≠ 0) :
    bit w w.toBitVec.ctz.toNat = true ∧ ∀ j < w.toBitVec.ctz.toNat, bit w j = false := by
  have hne : w.toBitVec ≠ 0#64 := fun h0 => h (UInt64.toBitVec_inj.1 h0)
  constructor
  · rw [bit_eq_getLsbD]
    exact BitVec.getLsbD_true_ctz_of_ne_zero hne
  · intro j hj
    rw [bit_eq_getLsbD]
    exact BitVec.getLsbD_false_of_lt_ctz hj

theorem bit_clearLowest {w : UInt64} (h : w ≠ 0) (j : Nat) :
    bit (clearLowest w) j = (bit w j && decide (j ≠ w.toBitVec.ctz.toNat)) := by
  obtain ⟨hm, hb⟩ := bit_ctz h
  have hlow : Subset.HasLowest w.toNat w.toBitVec.ctz.toNat := ⟨hm, hb⟩
  rw [bit, clearLowest, UInt64.toNat_and, toNat_pred h]
  exact hlow.testBit_dropLowest j

theorem mem_peel {w : UInt64} {k : Nat} : k ∈ peel w ↔ bit w k = true := by
  induction w using peel.induct with
  | case1 => simp [peel]
  | case2 w h ih =>
    rw [peel, dif_neg h, List.mem_cons, ih, bit_clearLowest h, Bool.and_eq_true,
      decide_eq_true_eq]
    by_cases hk : k = w.toBitVec.ctz.toNat
    · simp [hk, (bit_ctz h).1]
    · simp [hk]

theorem pairwise_peel (w : UInt64) : (peel w).Pairwise (· < ·) := by
  induction w using peel.induct with
  | case1 => simp [peel]
  | case2 w h ih =>
    rw [peel, dif_neg h]
    refine List.pairwise_cons.2 ⟨fun k hk => ?_, ih⟩
    rw [mem_peel, bit_clearLowest h, Bool.and_eq_true, decide_eq_true_eq] at hk
    have hle : ¬ k < w.toBitVec.ctz.toNat := by
      intro hlt
      rw [(bit_ctz h).2 k hlt] at hk
      cases hk.1
    omega

/-- **Clearing the lowest bit again and again lists the set bits.** -/
theorem peel_eq (w : UInt64) : peel w = bitsOf w := by
  have hbits : (bitsOf w).Pairwise (· < ·) := List.pairwise_lt_range.filter _
  refine List.Perm.eq_of_pairwise (fun a b _ _ h1 h2 => absurd h1 (Nat.lt_asymm h2))
    (pairwise_peel w) hbits ?_
  refine (List.perm_ext_iff_of_nodup ((pairwise_peel w).imp fun h => Nat.ne_of_lt h)
    (hbits.imp fun h => Nat.ne_of_lt h)).2 fun k => ?_
  rw [mem_peel, mem_bitsOf]
  refine ⟨fun hk => ⟨?_, hk⟩, fun hk => hk.2⟩
  rw [bit_eq_getLsbD] at hk
  exact BitVec.lt_of_getLsbD hk

/-- The members word by word, each word walked by clearing its lowest set bit. -/
def walkFrom : Nat → List UInt64 → List Nat
  | _, [] => []
  | k, w :: ws => (peel w).map (64 * k + ·) ++ walkFrom (k + 1) ws

theorem walkFrom_eq (k : Nat) (ws : List UInt64) : walkFrom k ws = membersFrom k ws := by
  induction ws generalizing k with
  | nil => rfl
  | cons w ws ih => rw [walkFrom, membersFrom, peel_eq, ih]

/-- The population count of a word is the number of its set bits. -/
theorem length_bitsOf (w : UInt64) : (bitsOf w).length = w.toBitVec.cpop.toNat := by
  have count : ∀ n acc, w.toBitVec.cpopNatRec n acc =
      acc + ((List.range n).filter (bit w)).length := by
    intro n
    induction n with
    | zero =>
      intro acc
      rfl
    | succ n ih =>
      intro acc
      rw [BitVec.cpopNatRec, ih, List.range_succ, List.filter_append, List.length_append,
        ← bit_eq_getLsbD]
      cases hb : bit w n with
      | true => simp [hb]; omega
      | false => simp [hb]
  rw [BitVec.toNat_cpop, count, Nat.zero_add, bitsOf]

/-! ### Size -/

theorem size_eq_length (s : LabelSet) : s.size = s.toList.length := by
  have sum : ∀ (ws : List UInt64) (k : Nat),
      ws.foldr (fun w n => (bitsOf w).length + n) 0 = (membersFrom k ws).length := by
    intro ws
    induction ws with
    | nil =>
      intro k
      rfl
    | cons w ws ih =>
      intro k
      rw [List.foldr_cons, ih (k + 1), membersFrom, List.length_append, List.length_map]
  exact sum s.words 0

theorem isEmpty_iff (s : LabelSet) : s.isEmpty = true ↔ ∀ i, s.contains i = false := by
  constructor
  · intro h i
    have hget : s.words.getD (i / 64) 0 = 0 := by
      rw [List.getD_eq_getElem?_getD]
      cases hw : s.words[i / 64]? with
      | none => rfl
      | some w => simpa using List.all_eq_true.1 h w (List.mem_of_getElem? hw)
    rw [contains, bitAt, hget, bit_zero]
  · intro h
    refine List.all_eq_true.2 fun w hw => ?_
    obtain ⟨n, hn⟩ := List.mem_iff_getElem?.1 hw
    refine beq_iff_eq.2 (eq_of_bit fun k hk => ?_)
    have hi := h (64 * n + k)
    have hdiv : (64 * n + k) / 64 = n := by omega
    have hmod : (64 * n + k) % 64 = k := by omega
    rw [contains, bitAt, hdiv, hmod, List.getD_eq_getElem?_getD, hn] at hi
    rw [bit_zero]
    exact hi

/-! ### Sets that the operations make -/

/-- A way to make a set. -/
inductive Expr
  | empty
  | ofList (ids : List Nat)
  | insert (i : Nat) (e : Expr)
  | union (d e : Expr)
  | inter (d e : Expr)
  | symmDiff (d e : Expr)

namespace Expr

/-- The set that is made. -/
def value : Expr → LabelSet
  | empty => ∅
  | ofList ids => .ofList ids
  | insert i e => e.value.insert i
  | union d e => d.value.union e.value
  | inter d e => d.value.inter e.value
  | symmDiff d e => d.value.symmDiff e.value

/-- The finite set that the same operations make. -/
def members : Expr → Finset Nat
  | empty => ∅
  | ofList ids => ids.toFinset
  | insert i e => Insert.insert i e.members
  | union d e => d.members ∪ e.members
  | inter d e => d.members ∩ e.members
  | symmDiff d e => (d.members \ e.members) ∪ (e.members \ d.members)

theorem trimmed (e : Expr) : e.value.Trimmed := by
  induction e with
  | empty => exact trimmed_empty
  | ofList ids => exact trimmed_ofList ids
  | insert i e ih => exact ih.insert i
  | union d e _ _ => exact trimmed_combine _ _ _
  | inter d e _ _ => exact trimmed_combine _ _ _
  | symmDiff d e _ _ => exact trimmed_combine _ _ _

theorem contains_value (e : Expr) (i : Nat) : e.value.contains i = decide (i ∈ e.members) := by
  induction e with
  | empty => simp [value, members]
  | ofList ids => simp [value, members]
  | insert j e ih => simp [value, members, ih, eq_comm (a := i), Bool.or_comm]
  | union d e ihd ihe => simp [value, members, ihd, ihe]
  | inter d e ihd ihe => simp [value, members, ihd, ihe]
  | symmDiff d e ihd ihe =>
    simp only [value, members, contains_symmDiff, ihd, ihe, Finset.mem_union,
      Finset.mem_sdiff]
    by_cases hd : i ∈ d.members <;> by_cases he : i ∈ e.members <;> simp [hd, he]

end Expr

/-- **A set represents a finite set**: it is trimmed, it has these members and lists them once each
in increasing order, walking its words finds the same list, and the list makes the set again. -/
structure Represents (s : LabelSet) (m : Finset Nat) : Prop where
  trimmed : s.words.getLast? ≠ some 0
  contains_iff : ∀ i, s.contains i = true ↔ i ∈ m
  mem_toList_iff : ∀ i, i ∈ s.toList ↔ i ∈ m
  ascending : s.toList.Pairwise (· < ·)
  walk_eq : walkFrom 0 s.words = s.toList
  size_eq : s.size = m.card
  size_eq_count : s.size = (s.words.map fun w => w.toBitVec.cpop.toNat).sum
  isEmpty_iff : s.isEmpty = true ↔ m = ∅
  ofList_toList : ofList s.toList = s

theorem Expr.represents (e : Expr) : e.value.Represents e.members := by
  have hcontains : ∀ i, e.value.contains i = true ↔ i ∈ e.members := fun i => by
    rw [e.contains_value, decide_eq_true_eq]
  have hlist : ∀ i, i ∈ e.value.toList ↔ i ∈ e.members := fun i => mem_toList.trans (hcontains i)
  refine ⟨e.trimmed, hcontains, hlist, pairwise_toList _, walkFrom_eq 0 _, ?_, ?_, ?_, ?_⟩
  · have hset : e.value.toList.toFinset = e.members := Finset.ext fun i => by
      rw [List.mem_toFinset, hlist]
    rw [size_eq_length, ← List.toFinset_card_of_nodup (nodup_toList _), hset]
  · rw [List.sum_eq_foldr, List.foldr_map, size]
    simp only [length_bitsOf]
  · rw [isEmpty_iff, Finset.eq_empty_iff_forall_notMem]
    exact forall_congr' fun i => by rw [← hcontains, Bool.not_eq_true]
  · refine (trimmed_ofList _).ext e.trimmed fun i => ?_
    rw [contains_ofList, e.contains_value]
    exact decide_eq_decide.2 (hlist i)

/-- What of a set goes into a hash: the number of its words, and the words. -/
def hashed (s : LabelSet) : List UInt64 := .ofNat s.words.length :: s.words

theorem hashed_inj {s t : LabelSet} : s.hashed = t.hashed ↔ s = t := by
  constructor
  · intro h
    obtain ⟨ws⟩ := s
    obtain ⟨vs⟩ := t
    exact congrArg LabelSet.mk (List.cons.inj h).2
  · rintro rfl
    rfl

/-- **Sets of label ids are finite sets.** However a set is made, it represents the finite set that
the same operations make, and two sets are equal, and the same goes into their hashes, exactly when
these have the same members. -/
theorem value_eq_iff_members_eq (d e : Expr) :
    d.value.Represents d.members ∧ (d.value = e.value ↔ d.members = e.members) ∧
      (d.value.hashed = e.value.hashed ↔ d.members = e.members) := by
  have heq : d.value = e.value ↔ d.members = e.members := by
    constructor
    · intro h
      refine Finset.ext fun i => ?_
      rw [← d.represents.contains_iff, h, e.represents.contains_iff]
    · intro h
      refine d.trimmed.ext e.trimmed fun i => ?_
      rw [d.contains_value, e.contains_value, h]
  exact ⟨d.represents, heq, hashed_inj.trans heq⟩

end TensorNet.LabelSet
