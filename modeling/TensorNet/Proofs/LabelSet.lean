import TensorNet.LabelSet

/-!
# The members of a set of label ids

`toList` lists the members in increasing order, each once. So the list of members, and all that is
computed from it, depends on membership alone.
-/

namespace TensorNet.LabelSet

/-! ### Listing the members -/

theorem mem_bitsOf {w : UInt64} {k : Nat} : k ∈ bitsOf w ↔ k < 64 ∧ bit w k = true := by
  rw [bitsOf, List.mem_filter, List.mem_range]

theorem bitAt_cons_lt (w : UInt64) (ws : List UInt64) {i : Nat} (h : i < 64) :
    bitAt (w :: ws) i = bit w i := by
  simp only [bitAt, Nat.div_eq_of_lt h, List.getD_cons_zero, Nat.mod_eq_of_lt h]

theorem bitAt_cons_add (w : UInt64) (ws : List UInt64) (i : Nat) :
    bitAt (w :: ws) (64 + i) = bitAt ws i := by
  have h1 : (64 + i) / 64 = i / 64 + 1 := by omega
  have h2 : (64 + i) % 64 = i % 64 := by omega
  simp only [bitAt, h1, h2, List.getD_cons_succ]

theorem mem_membersFrom {k : Nat} {ws : List UInt64} {i : Nat} :
    i ∈ membersFrom k ws ↔ ∃ j, i = 64 * k + j ∧ bitAt ws j = true := by
  induction ws generalizing k with
  | nil => simp [membersFrom, bitAt]
  | cons w ws ih =>
    simp only [membersFrom, List.mem_append, List.mem_map, mem_bitsOf, ih]
    constructor
    · rintro (⟨j, ⟨hj, hb⟩, rfl⟩ | ⟨j, rfl, hb⟩)
      · exact ⟨j, rfl, by rw [bitAt_cons_lt w ws hj, hb]⟩
      · exact ⟨64 + j, by omega, by rw [bitAt_cons_add, hb]⟩
    · rintro ⟨j, rfl, hb⟩
      by_cases hj : j < 64
      · exact .inl ⟨j, ⟨hj, by rw [← bitAt_cons_lt w ws hj, hb]⟩, rfl⟩
      · have e : j = 64 + (j - 64) := by omega
        rw [e, bitAt_cons_add] at hb
        exact .inr ⟨j - 64, by omega, hb⟩

/-- `toList` lists exactly the members. -/
theorem mem_toList {s : LabelSet} {i : Nat} : i ∈ s.toList ↔ s.contains i = true := by
  rw [toList, mem_membersFrom]
  constructor
  · rintro ⟨j, rfl, hb⟩
    rwa [Nat.mul_zero, Nat.zero_add]
  · intro h
    exact ⟨i, by omega, h⟩

theorem pairwise_membersFrom (k : Nat) (ws : List UInt64) :
    (membersFrom k ws).Pairwise (· < ·) := by
  induction ws generalizing k with
  | nil => exact .nil
  | cons w ws ih =>
    refine List.pairwise_append.2 ⟨?_, ih (k + 1), ?_⟩
    · rw [List.pairwise_map]
      exact (List.pairwise_lt_range.filter _).imp fun h => Nat.add_lt_add_left h _
    · intro a ha b hb
      obtain ⟨j, hj, rfl⟩ := List.mem_map.1 ha
      obtain ⟨m, rfl, -⟩ := mem_membersFrom.1 hb
      have := (mem_bitsOf.1 hj).1
      omega

/-- The members are listed in increasing order. -/
theorem pairwise_toList (s : LabelSet) : s.toList.Pairwise (· < ·) := pairwise_membersFrom 0 _

theorem nodup_toList (s : LabelSet) : s.toList.Nodup :=
  (pairwise_toList s).imp fun h => Nat.ne_of_lt h

/-- Sets with the same members have the same list of members. -/
theorem toList_congr {s t : LabelSet} (h : ∀ i, s.contains i = t.contains i) :
    s.toList = t.toList := by
  refine List.Perm.eq_of_pairwise (fun a b _ _ h1 h2 => ?_) (pairwise_toList s)
    (pairwise_toList t) ?_
  · exact absurd h1 (Nat.lt_asymm h2)
  · refine (List.perm_ext_iff_of_nodup (nodup_toList s) (nodup_toList t)).2 fun i => ?_
    rw [mem_toList, mem_toList, h]

/-! ### Sets from lists -/

@[simp] theorem contains_empty (i : Nat) : (∅ : LabelSet).contains i = false := by
  show bitAt [] i = false
  simp [bitAt]

theorem contains_foldl_insert (ids : List Nat) (s : LabelSet) (i : Nat) :
    (ids.foldl (fun s j => s.insert j) s).contains i = (s.contains i || decide (i ∈ ids)) := by
  induction ids generalizing s with
  | nil => simp
  | cons j js ih =>
    have h : decide (i ∈ j :: js) = (decide (j = i) || decide (i ∈ js)) := by
      simp [eq_comm (a := i)]
    rw [List.foldl_cons, ih, contains_insert, h, Bool.or_assoc]

@[simp] theorem contains_ofList (ids : List Nat) (i : Nat) :
    (ofList ids).contains i = decide (i ∈ ids) := by
  rw [ofList, contains_foldl_insert, contains_empty, Bool.false_or]

end TensorNet.LabelSet
