import Mathlib
import TensorNet.Proofs.Network.Open
import TensorNet.Proofs.Network.Rules

/-!
# The tables of a network

What the tables of a built network have to do with the labels on its axes (`Tabulated`), and which
output is taken when none is given (`DefaultOutput`).

The table grows by one reading at a time. Its labels are in the order of their first readings: a
label that is read again changes nothing, and a new one comes after all that were read before. The
places of a label are in the order of the readings, and this is the order of the factors and their
axes.

A conjugated network is what is built from the conjugated factors, so all of this holds of it too.
-/

namespace TensorNet.Network

/-- **The numbers of the labels and the places of each are exact.** -/
structure Tabulated (net : Network) : Prop where
  /-- Numbers and labels belong to each other. -/
  idOf_label : ∀ id < net.numLabels, net.idOf? (net.label id) = some id
  label_idOf : ∀ l id, net.idOf? l = some id → id < net.numLabels ∧ net.label id = l
  exists_idOf : ∀ l, (∃ id, net.idOf? l = some id) ↔ l ∈ labelsOn net.factors
  /-- Labels are numbered in the order in which they first appear. -/
  firstSeen : ∀ i < net.numLabels, ∀ j < net.numLabels,
    i < j ↔ (labelsOn net.factors).idxOf (net.label i) < (labelsOn net.factors).idxOf (net.label j)
  /-- The places of a label are all axes that carry it, in order. -/
  mem_occurrences : ∀ id < net.numLabels, ∀ o : Occurrence, o ∈ net.occurrencesOf id ↔
    ∃ f, net.factors[o.factor]? = some f ∧ f.labels[o.axis]? = some (net.label id)
  ordered : ∀ id < net.numLabels, (net.occurrencesOf id).Pairwise Occurrence.Before
  /-- The labels are nonzero integers, negative exactly when they stand once. -/
  signed_iff : net.signed = true ↔ ∀ l ∈ labelsOn net.factors,
    ∃ v : Int64, l = .int v ∧ v ≠ 0 ∧ (v < 0 ↔ timesOn net.factors l = 1)

/-- **The output that is taken when none is given.** -/
structure DefaultOutput (net : Network) : Prop where
  nodup : net.output.Nodup
  mem : ∀ l, l ∈ net.output ↔ timesOn net.factors l = 1
  /-- Under the sign convention the labels are in increasing order of their absolute values. -/
  byMagnitude : net.signed = true → net.output.Pairwise fun a b =>
    ∃ v w : Int64, a = .int v ∧ b = .int w ∧ v.toInt.natAbs < w.toInt.natAbs
  /-- Otherwise they are in the order in which they first appear. -/
  byAppearance : net.signed = false → net.output.Pairwise fun a b =>
    (labelsOn net.factors).idxOf a < (labelsOn net.factors).idxOf b

/-! ### The order of the labels -/

namespace Table

/-- The labels are in the order in which they were first read. -/
def InOrder (t : Table) (ls : List Label) : Prop :=
  t.labels.Pairwise fun a b => ls.idxOf a < ls.idxOf b

theorem InOrder.record {t : Table} {rs : List (Label × Occurrence)} (h : t.Holds rs)
    (ho : t.InOrder (rs.map (·.1))) (r : Label × Occurrence) :
    (t.record r.1 r.2).InOrder ((rs ++ [r]).map (·.1)) := by
  have hmem : ∀ l ∈ t.labels, l ∈ rs.map (·.1) := fun l hl => (h.mem l).1 hl
  -- what was read before keeps its first place
  have hold : t.labels.Pairwise fun a b =>
      ((rs ++ [r]).map (·.1)).idxOf a < ((rs ++ [r]).map (·.1)).idxOf b := by
    refine List.Pairwise.imp_of_mem (fun {a b} ha hb hab => ?_) ho
    rw [List.map_append, List.idxOf_append_of_mem (hmem a ha),
      List.idxOf_append_of_mem (hmem b hb)]
    exact hab
  unfold InOrder Table.record
  split
  · exact hold
  · next hnew =>
    have hr : r.1 ∉ rs.map (·.1) := fun hm => List.idxOf?_eq_none_iff.1 hnew ((h.mem r.1).2 hm)
    refine List.pairwise_append.2 ⟨hold, List.pairwise_singleton _ _, fun a ha b hb => ?_⟩
    obtain rfl := List.mem_singleton.1 hb
    have hlt := List.idxOf_lt_length_iff.2 (hmem a ha)
    rw [List.map_append, List.idxOf_append_of_mem (hmem a ha), List.idxOf_append_of_notMem hr]
    omega

theorem inOrder_ofFactors (factors : List Factor) :
    (ofFactors factors).InOrder (labelsOn factors) := by
  rw [← map_fst_readings]
  exact (ofFactors_inv (fun t rs => t.Holds rs ∧ t.InOrder (rs.map (·.1)))
    ⟨holds_empty, List.Pairwise.nil⟩ (fun _ _ r h => ⟨h.1.record r, h.2.record h.1 r⟩)
    factors).2

/-! ### The sign convention -/

theorem followsSign_iff {l : Label} {os : List Occurrence} (h : os.length = 1 ∨ os.length = 2) :
    followsSign (l, os) = true ↔
      ∃ v : Int64, l = .int v ∧ v ≠ 0 ∧ (v < 0 ↔ os.length = 1) := by
  cases l with
  | name s => simp [followsSign, Label.asInt]
  | int v =>
    have h0 : v ≠ 0 ↔ v.toInt ≠ 0 := by
      rw [ne_eq, ← Int64.toInt_inj]
      rfl
    have hlt : v < 0 ↔ v.toInt < 0 := Int64.lt_iff_toInt_lt
    simp only [followsSign, Label.asInt, Label.int.injEq, exists_eq_left', h0, hlt]
    split
    · simp
      omega
    · split
      · simp
        omega
      · simp
        omega

variable {t : Table} {factors : List Factor}

theorem Holds.mem_labels_iff (h : t.Of factors) {l : Label} :
    l ∈ t.labels ↔ l ∈ labelsOn factors := by
  rw [h.mem, map_fst_readings]

theorem Holds.signed_iff (h : t.Of factors) (hle : ∀ l, timesOn factors l ≤ 2) :
    t.signed = true ↔ ∀ l ∈ labelsOn factors,
      ∃ v : Int64, l = .int v ∧ v ≠ 0 ∧ (v < 0 ↔ timesOn factors l = 1) := by
  have hone : ∀ l ∈ labelsOn factors, followsSign (l, places (readings factors) l) = true ↔
      ∃ v : Int64, l = .int v ∧ v ≠ 0 ∧ (v < 0 ↔ timesOn factors l = 1) := by
    intro l hl
    have h1 : 0 < timesOn factors l := List.count_pos_iff.2 hl
    have h2 := hle l
    rw [← length_places_readings] at h1 h2 ⊢
    exact followsSign_iff (by omega)
  rw [signed, List.all_eq_true]
  constructor
  · intro hall l hl
    exact (hone l hl).1 (hall _ (h.mem_entries.2 ⟨h.mem_labels_iff.2 hl, rfl⟩))
  · rintro hall ⟨l, os⟩ he
    obtain ⟨hl, ho⟩ := h.mem_entries.1 he
    have hread : l ∈ labelsOn factors := h.mem_labels_iff.1 hl
    obtain rfl : os = places (readings factors) l := ho
    exact (hone l hread).2 (hall l hread)

/-! ### The default output -/

theorem Holds.pairwise_free (h : t.Holds rs) {R : Label → Label → Prop}
    (hR : t.labels.Pairwise R) : t.free.Pairwise R := by
  have hlabels : t.entries.map (·.1) = t.labels :=
    List.map_fst_zip (Nat.le_of_eq h.length.symm)
  rw [← hlabels] at hR
  exact hR.sublist (List.filter_sublist.map _)

/-- **Sorting by the absolute value** is strict, as free labels are negative and all different. -/
theorem Holds.pairwise_defaultOutput (h : t.Of factors) (hle : ∀ l, timesOn factors l ≤ 2)
    (hs : t.signed = true) : t.defaultOutput.Pairwise fun a b =>
      ∃ v w : Int64, a = .int v ∧ b = .int w ∧ v.toInt.natAbs < w.toInt.natAbs := by
  have hsign := (h.signed_iff hle).1 hs
  have hfree : ∀ l ∈ t.free, ∃ v : Int64, l = .int v ∧ v.toInt < 0 := by
    intro l hl
    have h1 : timesOn factors l = 1 := by
      rw [← length_places_readings]
      exact h.mem_free.1 hl
    obtain ⟨v, rfl, -, hv⟩ := hsign l (List.count_pos_iff.1 (by rw [← timesOn]; omega))
    exact ⟨v, rfl, Int64.lt_iff_toInt_lt.1 (hv.2 h1)⟩
  rw [defaultOutput, if_pos hs]
  have hperm := List.mergeSort_perm t.free
    fun a b => decide ((a.asInt.getD 0).natAbs ≤ (b.asInt.getD 0).natAbs)
  have hsorted := @List.pairwise_mergeSort Label
    (fun a b => decide ((a.asInt.getD 0).natAbs ≤ (b.asInt.getD 0).natAbs))
    (by intro a b c h1 h2; simp at *; omega) (by intro a b; simp; omega) t.free
  refine List.Pairwise.imp_of_mem (fun {a b} ha hb hab => ?_)
    (hsorted.and (hperm.nodup_iff.2 h.nodup_free))
  obtain ⟨v, rfl, hv⟩ := hfree a (hperm.mem_iff.1 ha)
  obtain ⟨w, rfl, hw⟩ := hfree b (hperm.mem_iff.1 hb)
  obtain ⟨hvw, hne⟩ := hab
  refine ⟨v, w, rfl, rfl, ?_⟩
  have hne : v.toInt ≠ w.toInt := fun he => hne (congrArg Label.int (Int64.toInt_inj.1 he))
  have hvw : v.toInt.natAbs ≤ w.toInt.natAbs := of_decide_eq_true hvw
  omega

end Table

/-! ### Built networks -/

variable {factors : List Factor} {output : Option (List Label)} {net : Network}

theorem tabulated_of_build (h : build factors output = .ok net) : net.Tabulated := by
  have hadm := Admissible.of_build h
  have ht := Table.holds_ofFactors factors
  obtain ⟨hnet, hfactors⟩ := lawful_of_build h
  obtain ⟨-, -, out, -, hout⟩ := build_eq_ok.1 h
  have hlabels : net.labels = (Table.ofFactors factors).labels := by rw [← hout]
  have hplaces : ∀ id < net.numLabels, net.occurrencesOf id = net.placesOf (net.label id) :=
    fun id hid => hnet.occurrencesOf_eq hid
  refine ⟨fun id hid => ?_, fun l id hid => ?_, fun l => ?_, fun i hi j hj => ?_,
    fun id hid o => ?_, fun id hid => ?_, ?_⟩
  · exact hnet.idOf?_eq_some.2 ⟨hid, rfl⟩
  · exact hnet.idOf?_eq_some.1 hid
  · rw [hfactors, ← ht.mem_labels_iff, ← hlabels, idOf?, ← Option.isSome_iff_exists,
      List.isSome_idxOf?]
  · have hsorted := List.pairwise_iff_getElem.1 (Table.inOrder_ofFactors factors)
    rw [← hlabels] at hsorted
    have hlt : ∀ a b (ha : a < net.numLabels) (hb : b < net.numLabels), a < b →
        (labelsOn factors).idxOf (net.label a) < (labelsOn factors).idxOf (net.label b) := by
      intro a b ha hb hab
      have hlt := hsorted a b ha hb hab
      rwa [(List.getElem_eq_iff ha).2 (getElem?_labels ha),
        (List.getElem_eq_iff hb).2 (getElem?_labels hb)] at hlt
    rw [hfactors]
    refine ⟨hlt i j hi hj, fun hij => ?_⟩
    rcases Nat.lt_trichotomy i j with h1 | rfl | h1
    · exact h1
    · omega
    · have := hlt j i hj hi h1
      omega
  · rw [hplaces id hid, mem_placesOf]
  · rw [hplaces id hid]
    exact Table.ordered_places _ _
  · rw [hfactors, ← ht.signed_iff hadm.atMostTwice, ← hout]

theorem defaultOutput_of_build (h : build factors none = .ok net) : net.DefaultOutput := by
  have hadm := Admissible.of_build h
  have ht := Table.holds_ofFactors factors
  obtain ⟨hnet, hfactors⟩ := lawful_of_build h
  obtain ⟨-, -, out, ho, hout⟩ := build_eq_ok.1 h
  rw [Table.chooseOutput, Except.ok.injEq] at ho
  refine ⟨hnet.nodup_output, fun l => ?_, fun hs => ?_, fun hs => ?_⟩
  · rw [hnet.mem_output, length_placesOf]
  · rw [← hout] at hs ⊢
    rw [← ho]
    exact ht.pairwise_defaultOutput hadm.atMostTwice hs
  · rw [hfactors]
    rw [← hout] at hs ⊢
    rw [← ho, Table.defaultOutput, if_neg (by simpa using hs)]
    exact ht.pairwise_free (Table.inOrder_ofFactors factors)

/-! ### Conjugation -/

/-- The second network is the first one with every factor conjugated. -/
structure ConjugateOf (net conj : Network) : Prop where
  idOf : ∀ l, conj.idOf? l = net.idOf? l
  label : ∀ id, conj.label id = net.label id
  occurrences : ∀ id, conj.occurrencesOf id = net.occurrencesOf id
  output : conj.output = net.output
  signed : conj.signed = net.signed
  numFactors : conj.numFactors = net.numFactors
  labels : ∀ i < net.numFactors, (conj.factor i).labels = (net.factor i).labels
  flipped : ∀ i < net.numFactors, (conj.factor i).conj = !(net.factor i).conj

theorem factor_conjugated (net : Network) {i : Nat} (hi : i < net.numFactors) :
    net.conjugated.factor i = { net.factor i with conj := !(net.factor i).conj } := by
  have hget : net.conjugated.factors[i]? =
      some { net.factor i with conj := !(net.factor i).conj } := by
    rw [conjugated, List.getElem?_map, getElem?_factors hi]
    rfl
  exact (factor_eq_of_getElem? hget).2

theorem conjugateOf_conjugated (net : Network) : ConjugateOf net net.conjugated := by
  refine ⟨fun l => rfl, fun id => rfl, fun id => rfl, rfl, rfl, ?_, fun i hi => ?_, fun i hi => ?_⟩
  · simp [numFactors, conjugated]
  · rw [net.factor_conjugated hi]
  · rw [net.factor_conjugated hi]

/-- Conjugating twice changes nothing. -/
theorem conjugated_conjugated (net : Network) : net.conjugated.conjugated = net := by
  simp [conjugated, Function.comp_def]

/-- **The tables of a built network are exact**, and those of its conjugate. -/
theorem tables_of_build (h : build factors output = .ok net) :
    net.factors = factors ∧ net.Tabulated ∧ (output = none → net.DefaultOutput) ∧
    net.conjugated.Tabulated ∧ (output = none → net.conjugated.DefaultOutput) ∧
    ConjugateOf net net.conjugated ∧ net.conjugated.conjugated = net := by
  refine ⟨(lawful_of_build h).2, tabulated_of_build h, ?_,
    tabulated_of_build (build_conjugated h), ?_, conjugateOf_conjugated net,
    net.conjugated_conjugated⟩
  · rintro rfl
    exact defaultOutput_of_build h
  · rintro rfl
    exact defaultOutput_of_build (build_conjugated h)

/-- A product of two matrices in which a free label has the largest absolute value of all. -/
def extreme : Network where
  factors := [{ labels := [.int Int64.minValue, .int 1] }, { labels := [.int 1, .int (-1)] }]
  output := [.int (-1), .int Int64.minValue]
  labels := [.int Int64.minValue, .int 1, .int (-1)]
  occurrences := [[⟨0, 0⟩], [⟨0, 1⟩, ⟨1, 0⟩], [⟨1, 1⟩]]
  signed := true

theorem tables_of_build_extreme : build extreme.factors none = .ok extreme ∧
    extreme.Tabulated ∧ extreme.DefaultOutput ∧ extreme.conjugated.Tabulated := by
  have hnet : build extreme.factors none = .ok extreme := by cbv
  obtain ⟨-, htables, hdefault, hconj, -⟩ := tables_of_build hnet
  exact ⟨hnet, htables, hdefault rfl, hconj⟩

end TensorNet.Network
