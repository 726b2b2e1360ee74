import TensorNet.Network.Build
import TensorNet.Proofs.Outcome

/-!
# Built networks

What a network that passed the checks looks like: the numbered labels are the distinct labels of
the factors, the occurrences of a label are all places where it stands, each label stands once or
twice, and the output lists those that stand once, each of them once.
-/

namespace TensorNet

/-! ### Positions -/

theorem getElem?_of_idxOf? {α : Type} [DecidableEq α] {l : List α} {a : α} {i : Nat}
    (h : l.idxOf? a = some i) : l[i]? = some a := by
  obtain ⟨hi, he, -⟩ := List.idxOf?_eq_some_iff.1 h
  rw [List.getElem?_eq_getElem hi, he]

/-- In a list without repetitions an element stands at one position. -/
theorem idxOf?_eq_some_iff_getElem? {α : Type} [DecidableEq α] {l : List α} (hl : l.Nodup) {a : α}
    {i : Nat} : l.idxOf? a = some i ↔ l[i]? = some a := by
  refine ⟨getElem?_of_idxOf?, fun h => ?_⟩
  obtain ⟨hi, rfl⟩ := List.getElem?_eq_some_iff.1 h
  obtain ⟨j, hj⟩ := Option.isSome_iff_exists.1 (List.isSome_idxOf?.2 (List.getElem_mem hi))
  obtain ⟨hj', he⟩ := List.getElem?_eq_some_iff.1 (getElem?_of_idxOf? hj)
  rw [hj, (List.getElem_inj hl).1 he]

/-- The first place comes before the second, in factor order and then axis order. -/
def Occurrence.Before (p q : Occurrence) : Prop :=
  p.factor < q.factor ∨ p.factor = q.factor ∧ p.axis < q.axis

theorem Occurrence.Before.ne {p q : Occurrence} (h : p.Before q) : p ≠ q := by
  rintro rfl
  rcases h with h | ⟨-, h⟩
  · omega
  · omega

namespace Network

/-! ### Readings -/

/-- The places where a label is read. -/
def places (rs : List (Label × Occurrence)) (l : Label) : List Occurrence :=
  (rs.filter fun r => decide (r.1 = l)).map (·.2)

theorem places_append (rs : List (Label × Occurrence)) (r : Label × Occurrence) (l : Label) :
    places (rs ++ [r]) l = if r.1 = l then places rs l ++ [r.2] else places rs l := by
  by_cases h : r.1 = l <;> simp [places, h]

theorem places_eq_nil {rs : List (Label × Occurrence)} {l : Label} :
    places rs l = [] ↔ l ∉ rs.map (·.1) := by
  simp only [places, List.map_eq_nil_iff, List.filter_eq_nil_iff, decide_eq_true_eq, List.mem_map]
  exact ⟨fun h ⟨r, hr, he⟩ => h r hr he, fun h r hr he => h ⟨r, hr, he⟩⟩

theorem mem_places {rs : List (Label × Occurrence)} {l : Label} {o : Occurrence} :
    o ∈ places rs l ↔ (l, o) ∈ rs := by
  simp only [places, List.mem_map, List.mem_filter, decide_eq_true_eq]
  constructor
  · rintro ⟨⟨l', o'⟩, ⟨h, rfl⟩, rfl⟩
    exact h
  · intro h
    exact ⟨(l, o), ⟨h, rfl⟩, rfl⟩

namespace Table

theorem mem_readings {fs : List Factor} {l : Label} {o : Occurrence} :
    (l, o) ∈ readings fs ↔ ∃ f, fs[o.factor]? = some f ∧ f.labels[o.axis]? = some l := by
  simp only [readings, List.mem_flatten, List.mem_mapIdx]
  constructor
  · rintro ⟨_, ⟨i, hi, rfl⟩, h⟩
    obtain ⟨k, hk, he⟩ := List.mem_mapIdx.1 h
    cases he
    exact ⟨fs[i], List.getElem?_eq_getElem hi, List.getElem?_eq_getElem hk⟩
  · rintro ⟨f, hf, hl⟩
    obtain ⟨hi, rfl⟩ := List.getElem?_eq_some_iff.1 hf
    obtain ⟨hk, rfl⟩ := List.getElem?_eq_some_iff.1 hl
    exact ⟨_, ⟨o.factor, hi, rfl⟩, List.mem_mapIdx.2 ⟨o.axis, hk, rfl⟩⟩

/-- The places are read in factor order and then axis order. -/
theorem ordered_readings (fs : List Factor) :
    (readings fs).Pairwise fun r s => r.2.Before s.2 := by
  refine List.pairwise_flatten.2 ⟨fun l hl => ?_, ?_⟩
  · obtain ⟨i, hi, rfl⟩ := List.mem_mapIdx.1 hl
    refine List.pairwise_iff_getElem.2 fun j k hj hk hjk => ?_
    rw [List.getElem_mapIdx, List.getElem_mapIdx]
    exact .inr ⟨rfl, hjk⟩
  · refine List.pairwise_iff_getElem.2 fun i j hi hj hij x hx y hy => ?_
    rw [List.getElem_mapIdx] at hx hy
    obtain ⟨k, hk, rfl⟩ := List.mem_mapIdx.1 hx
    obtain ⟨m, hm, rfl⟩ := List.mem_mapIdx.1 hy
    exact .inl hij

theorem ordered_places (fs : List Factor) (l : Label) :
    (places (readings fs) l).Pairwise Occurrence.Before := by
  rw [places, List.pairwise_map]
  exact (ordered_readings fs).filter _

/-- No place is read twice. -/
theorem nodup_places (fs : List Factor) (l : Label) : (places (readings fs) l).Nodup :=
  (ordered_places fs l).imp fun h => h.ne

/-! ### The table -/

/-- A table holds the given readings: its labels are those read, each once, and each of them has
the places where it was read. -/
structure Holds (t : Table) (rs : List (Label × Occurrence)) : Prop where
  nodup : t.labels.Nodup
  mem : ∀ l, l ∈ t.labels ↔ l ∈ rs.map (·.1)
  length : t.occurrences.length = t.labels.length
  occurrences : ∀ (id : Nat) (l : Label), t.labels[id]? = some l →
    t.occurrences[id]? = some (places rs l)

theorem holds_empty : Holds {} [] := ⟨.nil, by simp, rfl, by simp⟩

theorem Holds.record {t : Table} {rs : List (Label × Occurrence)} (h : t.Holds rs)
    (r : Label × Occurrence) : (t.record r.1 r.2).Holds (rs ++ [r]) := by
  unfold Table.record
  split
  · next id hid =>
    have hl := getElem?_of_idxOf? hid
    refine ⟨h.nodup, fun l => ?_, by simp [h.length], fun i l hi => ?_⟩
    · simp only [List.map_append, List.map_cons, List.map_nil, List.mem_append,
        List.mem_singleton, h.mem]
      refine ⟨.inl, ?_⟩
      rintro (hm | rfl)
      · exact hm
      · exact (h.mem _).1 (List.mem_of_getElem? hl)
    · have hp := h.occurrences i l hi
      rw [List.getElem?_modify, hp, places_append]
      have hiff : id = i ↔ r.1 = l := by
        constructor
        · rintro rfl
          exact Option.some.inj (hl.symm.trans hi)
        · rintro rfl
          exact Option.some.inj (hid.symm.trans ((idxOf?_eq_some_iff_getElem? h.nodup).2 hi))
      by_cases hr : r.1 = l <;> simp [hiff, hr]
  · next hid =>
    have hnew : r.1 ∉ t.labels := List.idxOf?_eq_none_iff.1 hid
    refine ⟨?_, fun l => ?_, by simp [h.length], fun i l hi => ?_⟩
    · refine List.nodup_append.2 ⟨h.nodup, by simp, fun a ha b hb => ?_⟩
      rintro rfl
      exact hnew (List.mem_singleton.1 hb ▸ ha)
    · simp [h.mem]
    · rw [List.getElem?_append] at hi
      rw [List.getElem?_append, h.length]
      by_cases hlt : i < t.labels.length
      · rw [if_pos hlt] at hi ⊢
        have hne : r.1 ≠ l := fun e => hnew (e ▸ List.mem_of_getElem? hi)
        rw [h.occurrences i l hi, places_append, if_neg hne]
      · rw [if_neg hlt] at hi ⊢
        obtain ⟨hi0, rfl⟩ := List.getElem?_eq_some_iff.1 hi
        have h0 : i - t.labels.length = 0 := by simpa using hi0
        have hnil : Network.places rs r.1 = [] :=
          places_eq_nil.2 fun hm => hnew ((h.mem r.1).2 hm)
        simp [h0, places_append, hnil]

/-- What every reading keeps holds of the table of all readings. -/
theorem ofFactors_inv (P : Table → List (Label × Occurrence) → Prop) (start : P {} [])
    (step : ∀ t rs r, P t rs → P (t.record r.1 r.2) (rs ++ [r])) (fs : List Factor) :
    P (ofFactors fs) (readings fs) := by
  have fold : ∀ (rs qs : List (Label × Occurrence)) (t : Table), P t qs →
      P (rs.foldl (fun t r => t.record r.1 r.2) t) (qs ++ rs) := by
    intro rs
    induction rs with
    | nil =>
      intro qs t h
      simpa using h
    | cons r rs ih =>
      intro qs t h
      have := ih (qs ++ [r]) _ (step t qs r h)
      rwa [List.append_assoc, List.singleton_append] at this
  exact fold _ [] _ start

theorem holds_ofFactors (fs : List Factor) : (ofFactors fs).Holds (readings fs) :=
  ofFactors_inv Holds holds_empty (fun _ _ r h => h.record r) fs

/-! ### The rules -/

variable {t : Table} {rs : List (Label × Occurrence)}

theorem Holds.mem_entries (h : t.Holds rs) {e : Label × List Occurrence} :
    e ∈ t.entries ↔ e.1 ∈ t.labels ∧ e.2 = Network.places rs e.1 := by
  rw [entries, List.mem_iff_getElem?]
  constructor
  · rintro ⟨i, hi⟩
    obtain ⟨hl, ho⟩ := List.getElem?_zip_eq_some.1 hi
    refine ⟨List.mem_of_getElem? hl, ?_⟩
    exact Option.some.inj (ho.symm.trans (h.occurrences i e.1 hl))
  · rintro ⟨hl, ho⟩
    obtain ⟨i, hi⟩ := List.mem_iff_getElem?.1 hl
    exact ⟨i, List.getElem?_zip_eq_some.2 ⟨hi, ho ▸ h.occurrences i e.1 hi⟩⟩

theorem Holds.count_eq (h : t.Holds rs) (l : Label) : t.count l = (Network.places rs l).length := by
  unfold count
  split
  · next id hid => rw [List.getD_eq_getElem?_getD, h.occurrences id l (getElem?_of_idxOf? hid)]; rfl
  · next hid =>
    have : l ∉ rs.map (·.1) := fun hm => List.idxOf?_eq_none_iff.1 hid ((h.mem l).2 hm)
    rw [places_eq_nil.2 this]
    rfl

theorem Holds.mem_free (h : t.Holds rs) {l : Label} :
    l ∈ t.free ↔ (Network.places rs l).length = 1 := by
  simp only [free, List.mem_map, List.mem_filter, h.mem_entries, beq_iff_eq]
  constructor
  · rintro ⟨e, ⟨⟨-, he⟩, h1⟩, rfl⟩
    rw [← he, h1]
  · intro h1
    have hl : l ∈ t.labels := by
      refine (h.mem l).2 (Decidable.byContradiction fun hm => ?_)
      rw [places_eq_nil.2 hm] at h1
      cases h1
    exact ⟨(l, Network.places rs l), ⟨⟨hl, rfl⟩, h1⟩, rfl⟩

theorem Holds.nodup_free (h : t.Holds rs) : t.free.Nodup := by
  have : (t.entries.map (·.1)).Nodup := by
    rw [entries, List.map_fst_zip (Nat.le_of_eq h.length.symm)]
    exact h.nodup
  exact this.sublist (List.filter_sublist.map _)

theorem Holds.length_le_two (h : t.Holds rs) (hc : t.checkCounts = .ok ()) (l : Label) :
    (Network.places rs l).length ≤ 2 := by
  by_cases hl : l ∈ t.labels
  · unfold checkCounts at hc
    split at hc
    · cases hc
    · next hn =>
      have := List.find?_eq_none.1 hn (l, Network.places rs l) (h.mem_entries.2 ⟨hl, rfl⟩)
      simpa using this
  · rw [places_eq_nil.2 fun hm => hl ((h.mem l).2 hm)]
    exact Nat.zero_le 2

theorem nodup_of_checkOutput {seen out : List Label} (h : t.checkOutput seen out = .ok ()) :
    out.Nodup ∧ (∀ l ∈ out, l ∉ seen ∧ t.count l ≠ 0 ∧ t.count l ≠ 2) := by
  induction out generalizing seen with
  | nil => simp
  | cons l rest ih =>
    unfold checkOutput at h
    split at h
    · cases h
    · next hs =>
      split at h
      · cases h
      · next h0 =>
        split at h
        · cases h
        · next h2 =>
          obtain ⟨hn, hr⟩ := ih h
          refine ⟨List.nodup_cons.2 ⟨fun hm => (hr l hm).1 List.mem_cons_self, hn⟩, ?_⟩
          intro k hk
          rcases List.mem_cons.1 hk with rfl | hk
          · exact ⟨hs, h0, h2⟩
          · obtain ⟨h3, h4⟩ := hr k hk
            exact ⟨fun hm => h3 (List.mem_cons_of_mem _ hm), h4⟩

theorem mem_of_checkFree {out : List Label} (h : t.checkFree out = .ok ()) {l : Label}
    (hl : l ∈ t.free) : l ∈ out := by
  unfold checkFree at h
  split at h
  · cases h
  · next hn => simpa using List.find?_eq_none.1 hn l hl

/-- The output that is chosen lists the labels that stand once, each of them once. -/
theorem Holds.output (h : t.Holds rs) (hc : t.checkCounts = .ok ()) {given : Option (List Label)}
    {out : List Label} (ho : t.chooseOutput given = .ok out) :
    out.Nodup ∧ ∀ l, l ∈ out ↔ (Network.places rs l).length = 1 := by
  cases given with
  | none =>
    simp only [chooseOutput, Except.ok.injEq] at ho
    have hp : out.Perm t.free := by
      rw [← ho, defaultOutput]
      split
      · exact List.mergeSort_perm _ _
      · exact .refl _
    exact ⟨hp.nodup_iff.2 h.nodup_free, fun l => hp.mem_iff.trans h.mem_free⟩
  | some out' =>
    unfold chooseOutput at ho
    obtain ⟨_, h1, ho⟩ := bind_eq_ok.1 ho
    obtain ⟨_, h2, ho⟩ := bind_eq_ok.1 ho
    cases ho
    obtain ⟨hn, hm⟩ := nodup_of_checkOutput h1
    refine ⟨hn, fun l => ⟨fun hl => ?_, fun hl => mem_of_checkFree h2 (h.mem_free.2 hl)⟩⟩
    obtain ⟨-, h3, h4⟩ := hm l hl
    have := h.length_le_two hc l
    rw [h.count_eq] at h3 h4
    omega

end Table

/-! ### What a built network is like -/

/-- The places of a label in the factors of a network, in factor order and then axis order. -/
def placesOf (net : Network) (l : Label) : List Occurrence :=
  places (Table.readings net.factors) l

/-- **The form of a network that passed the checks.** -/
structure Lawful (net : Network) : Prop where
  pos : 0 < net.numFactors
  nodup_labels : net.labels.Nodup
  mem_labels : ∀ l, l ∈ net.labels ↔ net.placesOf l ≠ []
  length_occurrences : net.occurrences.length = net.labels.length
  occurrences : ∀ (id : Nat) (l : Label), net.labels[id]? = some l →
    net.occurrences[id]? = some (net.placesOf l)
  atMostTwo : ∀ l, (net.placesOf l).length ≤ 2
  nodup_output : net.output.Nodup
  mem_output : ∀ l, l ∈ net.output ↔ (net.placesOf l).length = 1

/-- **What a built network is made of**: the labels and places of the table of its factors. -/
theorem build_eq_ok {factors : List Factor} {output : Option (List Label)} {net : Network} :
    build factors output = .ok net ↔ factors ≠ [] ∧ (Table.ofFactors factors).checkCounts = .ok () ∧
      ∃ out, (Table.ofFactors factors).chooseOutput output = .ok out ∧
        ⟨factors, out, (Table.ofFactors factors).labels, (Table.ofFactors factors).occurrences,
          (Table.ofFactors factors).signed⟩ = net := by
  unfold build
  constructor
  · intro h
    split at h
    · cases h
    · next hne =>
      obtain ⟨_, hc, h⟩ := bind_eq_ok.1 h
      obtain ⟨out, ho, h⟩ := bind_eq_ok.1 h
      exact ⟨fun he => hne (List.isEmpty_iff.2 he), hc, out, ho, Except.ok.inj h⟩
  · rintro ⟨hne, hc, out, ho, rfl⟩
    rw [if_neg (mt List.isEmpty_iff.1 hne)]
    simp only [hc, ho, ok_bind, pure_eq_ok]

theorem lawful_of_build {factors : List Factor} {output : Option (List Label)} {net : Network}
    (h : build factors output = .ok net) : net.Lawful ∧ net.factors = factors := by
  obtain ⟨hne, hc, out, ho, rfl⟩ := build_eq_ok.1 h
  have ht := Table.holds_ofFactors factors
  obtain ⟨hn, hm⟩ := ht.output hc ho
  refine ⟨⟨List.length_pos_iff.2 hne, ht.nodup, fun l => ?_, ht.length, ht.occurrences,
    ht.length_le_two hc, hn, hm⟩, rfl⟩
  rw [ht.mem, ne_eq, placesOf, places_eq_nil, Decidable.not_not]

theorem readings_conjugated (factors : List Factor) :
    Table.readings (factors.map fun f => { f with conj := !f.conj }) =
      Table.readings factors := by
  simp only [Table.readings, List.mapIdx_eq_zipIdx_map, List.zipIdx_map, List.map_map]
  rfl

/-- **Conjugating a network** gives what is built from its factors conjugated. -/
theorem build_conjugated {factors : List Factor} {output : Option (List Label)} {net : Network}
    (h : build factors output = .ok net) :
    build (factors.map fun f => { f with conj := !f.conj }) output = .ok net.conjugated := by
  have htable : Table.ofFactors (factors.map fun f => { f with conj := !f.conj }) =
      Table.ofFactors factors := by
    rw [Table.ofFactors, Table.ofFactors, readings_conjugated]
  obtain ⟨hne, hc, out, ho, rfl⟩ := build_eq_ok.1 h
  refine build_eq_ok.2 ⟨by simpa using hne, ?_, out, ?_, ?_⟩
  · rw [htable, hc]
  · rw [htable, ho]
  · rw [htable]
    rfl

theorem placesOf_conjugated (net : Network) (l : Label) :
    net.conjugated.placesOf l = net.placesOf l := by
  rw [placesOf, conjugated, readings_conjugated, placesOf]

theorem Lawful.conjugated {net : Network} (h : net.Lawful) : net.conjugated.Lawful where
  pos := by
    rw [numFactors, Network.conjugated, List.length_map]
    exact h.pos
  nodup_labels := h.nodup_labels
  mem_labels l := by
    rw [placesOf_conjugated]
    exact h.mem_labels l
  length_occurrences := h.length_occurrences
  occurrences id l hl := by
    rw [placesOf_conjugated]
    exact h.occurrences id l hl
  atMostTwo l := by
    rw [placesOf_conjugated]
    exact h.atMostTwo l
  nodup_output := h.nodup_output
  mem_output l := by
    rw [placesOf_conjugated]
    exact h.mem_output l

/-- A product of three matrices. -/
def chain : Network where
  factors := [{ labels := [.int (-1), .int 1] }, { labels := [.int 1, .int 2] },
    { labels := [.int 2, .int (-2)] }]
  output := [.int (-1), .int (-2)]
  labels := [.int (-1), .int 1, .int 2, .int (-2)]
  occurrences := [[⟨0, 0⟩], [⟨0, 1⟩, ⟨1, 0⟩], [⟨1, 1⟩, ⟨2, 0⟩], [⟨2, 1⟩]]
  signed := true

theorem build_chain : build chain.factors (some chain.output) = .ok chain := by rfl

/-- Two factors, of which the first enters conjugated and is summed over two of its own axes. -/
def looped : Network where
  factors := [{ labels := [.int 1, .int 1, .int 2], conj := true },
    { labels := [.int 2, .int (-1)] }]
  output := [.int (-1)]
  labels := [.int 1, .int 2, .int (-1)]
  occurrences := [[⟨0, 0⟩, ⟨0, 1⟩], [⟨0, 2⟩, ⟨1, 0⟩], [⟨1, 1⟩]]
  signed := true

theorem build_looped : build looped.factors (some looped.output) = .ok looped := by rfl

/-- Two products of two matrices. -/
def pairs : Network where
  factors := [{ labels := [.int (-1), .int 1] }, { labels := [.int (-2), .int 2] },
    { labels := [.int 1, .int (-3)] }, { labels := [.int 2, .int (-4)] }]
  output := [.int (-1), .int (-2), .int (-3), .int (-4)]
  labels := [.int (-1), .int 1, .int (-2), .int 2, .int (-3), .int (-4)]
  occurrences := [[⟨0, 0⟩], [⟨0, 1⟩, ⟨2, 0⟩], [⟨1, 0⟩], [⟨1, 1⟩, ⟨3, 0⟩], [⟨2, 1⟩], [⟨3, 1⟩]]
  signed := true

theorem build_pairs : build pairs.factors (some pairs.output) = .ok pairs := by rfl

end Network
end TensorNet
