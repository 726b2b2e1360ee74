import TensorNet.Proofs.LabelSet
import TensorNet.Proofs.Network.Occurrences

/-!
# Open labels

A label is open in a set of factors when exactly one of its places is in it. For two sets without a
common factor the open labels of the union are those open in exactly one of them, since no label
stands more than twice.
-/

namespace TensorNet.Network

variable (net : Network)

/-- How many places of a label are in the listed factors. -/
def timesIn (fs : List Nat) (l : Label) : Nat :=
  (net.placesOf l).countP fun o => decide (o.factor ∈ fs)

/-- The labels with exactly one place in the listed factors. -/
def openIn (fs : List Nat) : LabelSet :=
  LabelSet.ofList ((List.range net.numLabels).filter fun id => net.timesIn fs (net.label id) == 1)

variable {net}

/-! ### Numbers of labels -/

theorem getElem?_labels {id : Nat} (h : id < net.numLabels) :
    net.labels[id]? = some (net.label id) := by
  rw [label, List.getD_eq_getElem?_getD, List.getElem?_eq_getElem h, Option.getD_some]

theorem label_eq_of_getElem? {id : Nat} {l : Label} (h : net.labels[id]? = some l) :
    id < net.numLabels ∧ net.label id = l := by
  obtain ⟨hlt, rfl⟩ := List.getElem?_eq_some_iff.1 h
  exact ⟨hlt, by rw [label, List.getD_eq_getElem?_getD, h, Option.getD_some]⟩

theorem mem_placesOf {l : Label} {o : Occurrence} :
    o ∈ net.placesOf l ↔ ∃ f, net.factors[o.factor]? = some f ∧ f.labels[o.axis]? = some l := by
  rw [placesOf, mem_places, Table.mem_readings]

theorem nodup_placesOf (l : Label) : (net.placesOf l).Nodup := Table.nodup_places net.factors l

theorem getElem?_factors {i : Nat} (h : i < net.numFactors) :
    net.factors[i]? = some (net.factor i) := by
  rw [factor, List.getD_eq_getElem?_getD, List.getElem?_eq_getElem h, Option.getD_some]

theorem getD_map_factors {α : Type} {f : Factor → List α} {i : Nat} (h : i < net.numFactors) :
    (net.factors.map f).getD i [] = f (net.factor i) := by
  rw [List.getD_eq_getElem?_getD, List.getElem?_map, getElem?_factors h]
  rfl

theorem factor_eq_of_getElem? {i : Nat} {f : Factor} (h : net.factors[i]? = some f) :
    i < net.numFactors ∧ net.factor i = f := by
  obtain ⟨hlt, rfl⟩ := List.getElem?_eq_some_iff.1 h
  exact ⟨hlt, by rw [factor, List.getD_eq_getElem?_getD, h, Option.getD_some]⟩

/-- The places of a label, read off the factors by position. -/
theorem mem_placesOf_iff {l : Label} {i k : Nat} :
    ⟨i, k⟩ ∈ net.placesOf l ↔ i < net.numFactors ∧ (net.factor i).labels[k]? = some l := by
  rw [mem_placesOf]
  constructor
  · rintro ⟨f, hf, hl⟩
    obtain ⟨hi, rfl⟩ := factor_eq_of_getElem? hf
    exact ⟨hi, hl⟩
  · rintro ⟨hi, hl⟩
    exact ⟨_, getElem?_factors hi, hl⟩

/-- Tensors on which every label has one extent have it at each of its places. -/
theorem extent_of_mem_placesOf {dim : Label → Nat} {l : Label} {i k : Nat}
    (h : ⟨i, k⟩ ∈ net.placesOf l) :
    ((net.factors.map fun f => f.labels.map dim).getD i []).getD k 0 = dim l := by
  obtain ⟨hi, hl⟩ := mem_placesOf_iff.1 h
  rw [getD_map_factors hi, List.getD_eq_getElem?_getD, List.getElem?_map, hl]
  rfl

namespace Lawful

variable (h : net.Lawful)
include h

theorem idOf?_eq_some {l : Label} {id : Nat} :
    net.idOf? l = some id ↔ id < net.numLabels ∧ net.label id = l := by
  rw [idOf?, idxOf?_eq_some_iff_getElem? h.nodup_labels]
  refine ⟨label_eq_of_getElem?, ?_⟩
  rintro ⟨hlt, rfl⟩
  exact getElem?_labels hlt

theorem label_inj {i j : Nat} (hi : i < net.numLabels) (hj : j < net.numLabels)
    (he : net.label i = net.label j) : i = j :=
  Option.some.inj ((h.idOf?_eq_some.2 ⟨hi, he⟩).symm.trans (h.idOf?_eq_some.2 ⟨hj, rfl⟩))

theorem occurrencesOf_eq {id : Nat} (hlt : id < net.numLabels) :
    net.occurrencesOf id = net.placesOf (net.label id) := by
  rw [occurrencesOf, List.getD_eq_getElem?_getD, h.occurrences id _ (getElem?_labels hlt),
    Option.getD_some]

theorem mem_labels_of_place {l : Label} {o : Occurrence} (ho : o ∈ net.placesOf l) :
    ∃ id, id < net.numLabels ∧ net.label id = l := by
  have hl : l ∈ net.labels := (h.mem_labels l).2 (List.ne_nil_of_mem ho)
  obtain ⟨id, hid⟩ := List.mem_iff_getElem?.1 hl
  exact ⟨id, label_eq_of_getElem? hid⟩

end Lawful

/-! ### Counting places -/

theorem timesIn_congr {fs gs : List Nat} (h : ∀ i, i ∈ fs ↔ i ∈ gs) (l : Label) :
    net.timesIn fs l = net.timesIn gs l := by
  simp only [timesIn, h]

theorem timesIn_append {fs gs : List Nat} (hd : ∀ i ∈ fs, i ∉ gs) (l : Label) :
    net.timesIn (fs ++ gs) l = net.timesIn fs l + net.timesIn gs l := by
  unfold timesIn
  induction net.placesOf l with
  | nil => rfl
  | cons o os ih =>
    rw [List.countP_cons, List.countP_cons, List.countP_cons, ih]
    by_cases hf : o.factor ∈ fs
    · simp only [List.mem_append, hf, hd _ hf, or_false, decide_true, decide_false, if_true,
        Bool.false_eq_true, if_false]
      omega
    · simp only [List.mem_append, hf, false_or, decide_false, Bool.false_eq_true, if_false]
      omega

theorem Lawful.timesIn_le_two (h : net.Lawful) (fs : List Nat) (l : Label) :
    net.timesIn fs l ≤ 2 :=
  Nat.le_trans List.countP_le_length (h.atMostTwo l)

theorem timesIn_pos {fs : List Nat} {l : Label} :
    0 < net.timesIn fs l ↔ ∃ i ∈ fs, i < net.numFactors ∧ l ∈ (net.factor i).labels := by
  rw [timesIn, List.countP_pos_iff]
  constructor
  · rintro ⟨⟨i, k⟩, ho, hm⟩
    obtain ⟨hi, hl⟩ := mem_placesOf_iff.1 ho
    exact ⟨i, of_decide_eq_true hm, hi, List.mem_of_getElem? hl⟩
  · rintro ⟨i, hm, hi, hl⟩
    obtain ⟨k, hk⟩ := List.mem_iff_getElem?.1 hl
    exact ⟨⟨i, k⟩, mem_placesOf_iff.2 ⟨hi, hk⟩, decide_eq_true hm⟩

/-- All places of a label are in all factors. -/
theorem timesIn_all {fs : List Nat} (hfs : ∀ i < net.numFactors, i ∈ fs) (l : Label) :
    net.timesIn fs l = (net.placesOf l).length := by
  refine List.countP_eq_length.2 ?_
  rintro ⟨i, k⟩ ho
  exact decide_eq_true (hfs i (mem_placesOf_iff.1 ho).1)

/-! ### Open labels -/

theorem contains_openIn {fs : List Nat} {id : Nat} :
    (net.openIn fs).contains id = true ↔
      id < net.numLabels ∧ net.timesIn fs (net.label id) = 1 := by
  rw [openIn, LabelSet.contains_ofList, decide_eq_true_eq, List.mem_filter, List.mem_range,
    beq_iff_eq]

theorem openIn_congr {fs gs : List Nat} (h : ∀ i, i ∈ fs ↔ i ∈ gs) :
    net.openIn fs = net.openIn gs := by
  simp only [openIn, timesIn_congr h]

/-- The open labels of two sets of factors together are those open in exactly one of them. -/
theorem Lawful.contains_openIn_append (h : net.Lawful) {fs gs : List Nat}
    (hd : ∀ i ∈ fs, i ∉ gs) (id : Nat) :
    (net.openIn (fs ++ gs)).contains id =
      ((net.openIn fs).contains id ^^ (net.openIn gs).contains id) := by
  have h2 := h.timesIn_le_two (fs ++ gs) (net.label id)
  rw [timesIn_append hd] at h2
  have key : ∀ ks, (net.openIn ks).contains id =
      decide (id < net.numLabels ∧ net.timesIn ks (net.label id) = 1) := by
    intro ks
    rw [Bool.eq_iff_iff, contains_openIn, decide_eq_true_eq]
  rw [key, key, key, timesIn_append hd]
  by_cases hid : id < net.numLabels
  · by_cases h1 : net.timesIn fs (net.label id) = 1 <;>
      by_cases h3 : net.timesIn gs (net.label id) = 1 <;> simp [hid, h1, h3] <;> omega
  · simp [hid]

/-- A label that stands in a factor is open there unless it is traced. -/
theorem Lawful.timesIn_eq_one (h : net.Lawful) {i id : Nat} (hid : id < net.numLabels)
    (hpos : 0 < net.timesIn [i] (net.label id)) :
    net.timesIn [i] (net.label id) = 1 ↔ net.isTraced id = false := by
  have hle := h.atMostTwo (net.label id)
  rw [isTraced, h.occurrencesOf_eq hid]
  unfold timesIn at hpos ⊢
  generalize net.placesOf (net.label id) = os at hle hpos ⊢
  rcases os with _ | ⟨p, _ | ⟨q, _ | ⟨r, s⟩⟩⟩
  · simp at hpos
  · by_cases hp : p.factor = i <;> simp_all
  · by_cases hp : p.factor = i <;> by_cases hq : q.factor = i <;> simp_all
    exact fun e => hq e.symm
  · simp at hle

/-- The labels that are not summed within a factor are those open in it. -/
theorem Lawful.contains_openSetOf (h : net.Lawful) {i : Nat} (hi : i < net.numFactors) (id : Nat) :
    (net.openSetOf i).contains id = (net.openIn [i]).contains id := by
  rw [Bool.eq_iff_iff, contains_openIn, openSetOf, LabelSet.contains_ofList, decide_eq_true_eq,
    List.mem_filter, List.mem_filterMap, Bool.not_eq_true']
  constructor
  · rintro ⟨⟨l, hl, hid⟩, ht⟩
    obtain ⟨hlt, rfl⟩ := h.idOf?_eq_some.1 hid
    have hpos : 0 < net.timesIn [i] (net.label id) :=
      timesIn_pos.2 ⟨i, List.mem_singleton_self i, hi, hl⟩
    exact ⟨hlt, (h.timesIn_eq_one hlt hpos).2 ht⟩
  · rintro ⟨hlt, h1⟩
    have hpos : 0 < net.timesIn [i] (net.label id) := by omega
    obtain ⟨j, hj, -, hl⟩ := timesIn_pos.1 hpos
    rw [List.mem_singleton.1 hj] at hl
    exact ⟨⟨_, hl, h.idOf?_eq_some.2 ⟨hlt, rfl⟩⟩, (h.timesIn_eq_one hlt hpos).1 h1⟩

/-! ### Contracted labels -/

variable (net) in
/-- The labels that are summed. -/
def contracted : List Label := net.contractedIds.map net.label

theorem lt_of_mem_contractedIds {id : Nat} (h : id ∈ net.contractedIds) : id < net.numLabels :=
  List.mem_range.1 (List.mem_filter.1 h).1

theorem nodup_contractedIds (net : Network) : net.contractedIds.Nodup :=
  List.nodup_range.filter _

theorem Lawful.mem_contracted (h : net.Lawful) {l : Label} :
    l ∈ net.contracted ↔ (net.placesOf l).length = 2 := by
  constructor
  · intro hl
    obtain ⟨id, hid, rfl⟩ := List.mem_map.1 hl
    have hc := (List.mem_filter.1 hid).2
    rwa [isContracted, h.occurrencesOf_eq (lt_of_mem_contractedIds hid), beq_iff_eq] at hc
  · intro hl
    obtain ⟨o, ho⟩ := List.exists_mem_of_length_pos (hl ▸ Nat.zero_lt_two)
    obtain ⟨id, hid, rfl⟩ := h.mem_labels_of_place ho
    refine List.mem_map_of_mem (List.mem_filter.2 ⟨List.mem_range.2 hid, ?_⟩)
    rw [isContracted, h.occurrencesOf_eq hid, hl]
    rfl

theorem Lawful.nodup_contracted (h : net.Lawful) : net.contracted.Nodup := by
  refine List.pairwise_map.2 (List.Pairwise.imp_of_mem ?_ net.nodup_contractedIds)
  intro i j hi hj hne he
  exact hne (h.label_inj (lt_of_mem_contractedIds hi) (lt_of_mem_contractedIds hj) he)

end TensorNet.Network
