/-!
# Association lists

What is found in a list of pairs when the pairs of one key were taken out.
-/

namespace TensorNet

variable {ι τ : Type} [DecidableEq ι]

theorem lookup_filter_ne (i j : ι) (l : List (ι × τ)) :
    (l.filter fun e => e.1 != i).lookup j = if j = i then none else l.lookup j := by
  induction l with
  | nil => simp
  | cons e l ih =>
    rw [List.filter_cons]
    by_cases he : e.1 = i
    · rw [if_neg (by simpa using he), ih, List.lookup_cons]
      by_cases hj : j = i
      · rw [if_pos hj, if_pos hj]
      · have hb : (j == e.1) = false := by simpa [he] using hj
        simp only [hj, if_false, hb]
    · rw [if_pos (by simpa using he), List.lookup_cons, ih, List.lookup_cons]
      by_cases hj : j = i
      · subst hj
        have hb : (j == e.1) = false := by simpa using Ne.symm he
        simp only [hb, if_true]
      · simp only [hj, if_false]

theorem mem_of_lookup {l : List (ι × τ)} {i : ι} {a : τ} (h : l.lookup i = some a) :
    (i, a) ∈ l := by
  obtain ⟨l₁, l₂, rfl, -⟩ := List.lookup_eq_some_iff.1 h
  exact List.mem_append_right _ List.mem_cons_self

/-- When no key stands twice, every pair is found under its key. -/
theorem lookup_eq_some_iff {l : List (ι × τ)} (hn : (l.map (·.1)).Nodup) {i : ι} {a : τ} :
    l.lookup i = some a ↔ (i, a) ∈ l := by
  refine ⟨mem_of_lookup, fun h => ?_⟩
  induction l with
  | nil => cases h
  | cons e l ih =>
    rw [List.map_cons, List.nodup_cons] at hn
    rcases List.mem_cons.1 h with rfl | h
    · exact List.lookup_cons_self
    · have hne : i ≠ e.1 := fun he => hn.1 (he ▸ List.mem_map_of_mem h)
      have hb : (i == e.1) = false := by simpa using hne
      rw [List.lookup_cons, hb]
      exact ih hn.2 h

/-- A pair that is found and the pairs of other keys are all pairs. -/
theorem perm_cons_filter_ne {l : List (ι × τ)} (hn : (l.map (·.1)).Nodup) {i : ι} {a : τ}
    (h : l.lookup i = some a) : l.Perm ((i, a) :: l.filter fun e => e.1 != i) := by
  induction l with
  | nil => cases h
  | cons e l ih =>
    rw [List.map_cons, List.nodup_cons] at hn
    rcases List.mem_cons.1 (mem_of_lookup h) with rfl | hm
    · have hrest : (l.filter fun e => e.1 != i) = l := by
        refine List.filter_eq_self.2 fun e he => bne_iff_ne.2 ?_
        rintro rfl
        exact hn.1 (List.mem_map.2 ⟨e, he, rfl⟩)
      rw [List.filter_cons_of_neg (by simp), hrest]
    · have hne : e.1 ≠ i := fun he => hn.1 (he ▸ List.mem_map_of_mem hm)
      rw [List.filter_cons_of_pos (p := fun e : ι × τ => e.1 != i) (bne_iff_ne.2 hne)]
      exact ((ih hn.2 ((lookup_eq_some_iff hn.2).2 hm)).cons e).trans (.swap ..)

end TensorNet
