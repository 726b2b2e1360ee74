import Mathlib.Data.List.Nodup
import TensorNet.Proofs.Network.Open
import TensorNet.Tree.Ordered

/-!
# Which orders are followed

An order of labels is read label by label. It is accepted exactly when it is a permutation of the
contracted labels, and then the tree follows their numbers (`ContractionTree.explicit_cases`).
The order by sign is there for every network: it has the contracted labels that are positive
integers, in increasing order (`ContractionTree.bySign_eq`).
-/

namespace TensorNet

theorem Label.eq_of_asInt {l m : Label} {v : Int} (hl : l.asInt = some v) (hm : m.asInt = some v) :
    l = m := by
  cases l with
  | name s => cases hl
  | int x =>
    cases m with
    | name s => cases hm
    | int y =>
      have hxy : x.toInt = y.toInt := Option.some.inj (hl.trans hm.symm)
      rw [Int64.toInt_inj.1 hxy]

namespace ContractionTree

variable {net : Network} {model : CostModel}

theorem mem_contractedIds (hnet : net.Lawful) {l : Label} {id : Nat} (h : net.idOf? l = some id) :
    id ∈ net.contractedIds ↔ net.isContracted id = true := by
  rw [Network.contractedIds, List.mem_filter, List.mem_range]
  exact and_iff_right (hnet.idOf?_eq_some.1 h).1

/-! ### Reading an order -/

/-- These are the numbers of the labels of an order, which are contracted, listed once and not seen
before. -/
structure Names (net : Network) (seen : List Nat) (order : List Label) (ids : List Nat) : Prop where
  labels : ids.map net.label = order
  nodup : ids.Nodup
  contracted : ∀ id ∈ ids, id ∈ net.contractedIds
  fresh : ∀ id ∈ ids, id ∉ seen

theorem names_nil {seen ids : List Nat} : Names net seen [] ids ↔ ids = [] := by
  constructor
  · intro h
    simpa using h.labels
  · rintro rfl
    exact ⟨rfl, by simp, by simp, by simp⟩

theorem names_cons (hnet : net.Lawful) {seen ids : List Nat} {l : Label} {ls : List Label} :
    Names net seen (l :: ls) ids ↔ ∃ id rest, ids = id :: rest ∧ net.idOf? l = some id ∧
      net.isContracted id = true ∧ id ∉ seen ∧ Names net (id :: seen) ls rest := by
  constructor
  · intro h
    obtain ⟨id, rest, rfl, rfl, hrest⟩ := List.map_eq_cons_iff.1 h.labels
    have hid := h.contracted id (by simp)
    have hlook : net.idOf? (net.label id) = some id :=
      hnet.idOf?_eq_some.2 ⟨Network.lt_of_mem_contractedIds hid, rfl⟩
    obtain ⟨hnot, hn⟩ := List.nodup_cons.1 h.nodup
    refine ⟨id, rest, rfl, hlook, (mem_contractedIds hnet hlook).1 hid, h.fresh id (by simp),
      hrest, hn, fun i hi => h.contracted i (by simp [hi]), fun i hi hm => ?_⟩
    rcases List.mem_cons.1 hm with rfl | hm
    · exact hnot hi
    · exact h.fresh i (by simp [hi]) hm
  · rintro ⟨id, rest, rfl, hlook, hc, hs, h⟩
    obtain ⟨-, rfl⟩ := hnet.idOf?_eq_some.1 hlook
    refine ⟨by simp [h.labels], List.nodup_cons.2 ⟨fun hm => h.fresh id hm (by simp), h.nodup⟩,
      ?_, ?_⟩
    · intro i hi
      rcases List.mem_cons.1 hi with rfl | hi
      · exact (mem_contractedIds hnet hlook).2 hc
      · exact h.contracted i hi
    · intro i hi
      rcases List.mem_cons.1 hi with rfl | hi
      · exact hs
      · exact fun hm => h.fresh i hi (by simp [hm])

theorem orderIds_eq_ok (hnet : net.Lawful) {seen ids : List Nat} {order : List Label} :
    orderIds net seen order = .ok ids ↔ Names net seen order ids := by
  induction order generalizing seen ids with
  | nil => simp [orderIds, names_nil, eq_comm]
  | cons l ls ih =>
    rw [names_cons hnet, orderIds]
    cases hl : net.idOf? l with
    | none => simp
    | some id =>
      by_cases hc : net.isContracted id = true
      · by_cases hs : id ∈ seen
        · simp [hc, hs]
        · dsimp only
          rw [if_neg (by simp [hc]), if_neg hs, bind_eq_ok]
          constructor
          · rintro ⟨rest, hr, he⟩
            cases he
            exact ⟨id, rest, rfl, rfl, hc, hs, ih.1 hr⟩
          · rintro ⟨_, rest, rfl, he, -, -, h⟩
            cases he
            exact ⟨rest, ih.2 h, rfl⟩
      · simp [hc]

theorem orderIds_error {seen : List Nat} {order : List Label} {e : Error}
    (h : orderIds net seen order = .error e) : ∃ fault, e = .invalidOrder fault := by
  induction order generalizing seen with
  | nil => cases h
  | cons l ls ih =>
    rw [orderIds] at h
    split at h
    · cases h
      exact ⟨_, rfl⟩
    · next id hid =>
      split at h
      · cases h
        exact ⟨_, rfl⟩
      · split at h
        · cases h
          exact ⟨_, rfl⟩
        · cases hr : orderIds net (id :: seen) ls with
          | ok ids =>
            rw [hr] at h
            cases h
          | error e' =>
            rw [hr] at h
            cases h
            exact ih hr

theorem checkComplete_cases (net : Network) (ids : List Nat) :
    ((∀ id ∈ net.contractedIds, id ∈ ids) ∧ checkComplete net ids = .ok ()) ∨
      (¬ (∀ id ∈ net.contractedIds, id ∈ ids) ∧
        ∃ fault, checkComplete net ids = .error (.invalidOrder fault)) := by
  unfold checkComplete
  cases hf : net.contractedIds.find? fun id => !ids.contains id with
  | none => exact .inl ⟨by simpa using hf, rfl⟩
  | some id =>
    refine .inr ⟨fun hall => ?_, _, rfl⟩
    have hnot : id ∉ ids := by simpa using List.find?_some hf
    exact hnot (hall id (List.mem_of_find?_eq_some hf))

/-! ### Permutations of the contracted labels -/

theorem Names.perm {order : List Label} {ids : List Nat} (h : Names net [] order ids)
    (hall : ∀ id ∈ net.contractedIds, id ∈ ids) : ids.Perm net.contractedIds :=
  (List.perm_ext_iff_of_nodup h.nodup net.nodup_contractedIds).2
    fun id => ⟨h.contracted id, hall id⟩

theorem exists_names_of_perm (hnet : net.Lawful) {order : List Label}
    (h : order.Perm net.contracted) :
    ∃ ids, Names net [] order ids ∧ ∀ id ∈ net.contractedIds, id ∈ ids := by
  have hnum : ∀ id ∈ net.contractedIds, (net.idOf? (net.label id)).getD 0 = id := by
    intro id hid
    rw [hnet.idOf?_eq_some.2 ⟨Network.lt_of_mem_contractedIds hid, rfl⟩]
    rfl
  have hids : (order.map fun l => (net.idOf? l).getD 0).Perm net.contractedIds := by
    have hp := h.map fun l => (net.idOf? l).getD 0
    rw [Network.contracted, List.map_map] at hp
    exact hp.trans (.of_eq ((List.map_congr_left hnum).trans (List.map_id _)))
  refine ⟨_, ⟨?_, hids.nodup_iff.2 net.nodup_contractedIds, fun id => hids.mem_iff.1, by simp⟩,
    fun id => hids.mem_iff.2⟩
  rw [List.map_map]
  refine Eq.trans (List.map_congr_left fun l hl => ?_) (List.map_id order)
  obtain ⟨id, hid, rfl⟩ := List.mem_map.1 (h.mem_iff.1 hl)
  exact congrArg net.label (hnum id hid)

/-- **An order is refused, or the tree follows it.** It is refused exactly when it is not a
permutation of the contracted labels. -/
theorem explicit_cases (hnet : net.Lawful) (order : List Label) (model : CostModel) :
    (¬ order.Perm net.contracted ∧
      ∃ fault, explicit net order model = .error (.invalidOrder fault)) ∨
    ∃ ids, ids.map net.label = order ∧ ids.Perm net.contractedIds ∧
      explicit net order model = ordered net model ids := by
  unfold explicit
  cases ho : orderIds net [] order with
  | error e =>
    obtain ⟨fault, rfl⟩ := orderIds_error ho
    refine .inl ⟨fun hp => ?_, fault, rfl⟩
    obtain ⟨ids, hids, -⟩ := exists_names_of_perm hnet hp
    rw [(orderIds_eq_ok hnet).2 hids] at ho
    cases ho
  | ok ids =>
    have hids := (orderIds_eq_ok hnet).1 ho
    rcases checkComplete_cases net ids with ⟨hall, hc⟩ | ⟨hall, fault, hc⟩
    · refine .inr ⟨ids, hids.labels, hids.perm hall, ?_⟩
      rw [ok_bind, hc, ok_bind]
    · refine .inl ⟨fun hp => ?_, fault, ?_⟩
      · obtain ⟨ids', hids', hall'⟩ := exists_names_of_perm hnet hp
        rw [(orderIds_eq_ok hnet).2 hids'] at ho
        cases ho
        exact hall hall'
      · rw [ok_bind, hc]
        rfl

/-! ### The order by sign -/

/-- **The contracted labels that are positive integers**, in increasing order. -/
structure BySign (net : Network) (ids : List Nat) : Prop where
  mem : ∀ id, id ∈ ids ↔
    id ∈ net.contractedIds ∧ ∃ v, 0 < v ∧ (net.label id).asInt = some v
  increasing : ids.Pairwise fun i j =>
    ∃ v w, (net.label i).asInt = some v ∧ (net.label j).asInt = some w ∧ v < w

theorem mem_positiveIds {v : Int} {id : Nat} :
    (v, id) ∈ positiveIds net ↔
      id ∈ net.contractedIds ∧ (net.label id).asInt = some v ∧ 0 < v := by
  simp [positiveIds, and_assoc]

theorem nodup_positiveIds (net : Network) : (positiveIds net).Nodup := by
  refine (List.Nodup.filterMap ?_ net.nodup_contractedIds).filter _
  intro i j p hi hj
  simp only [Option.mem_def, Option.map_eq_some_iff] at hi hj
  obtain ⟨v, -, rfl⟩ := hi
  obtain ⟨w, -, hw⟩ := hj
  exact (congrArg Prod.snd hw).symm

theorem bySign_eq (hnet : net.Lawful) (model : CostModel) :
    ∃ ids, BySign net ids ∧ bySign net model = ordered net model ids := by
  have hperm := List.mergeSort_perm (positiveIds net) fun p q => decide (p.1 ≤ q.1)
  have hsorted := @List.pairwise_mergeSort (Int × Nat) (fun p q => decide (p.1 ≤ q.1))
    (by intro p q r h1 h2; simp at *; omega) (by intro p q; simp; omega) (positiveIds net)
  refine ⟨_, ⟨fun id => ?_, List.pairwise_map.2 ?_⟩, rfl⟩
  · simp only [List.mem_map, hperm.mem_iff, Prod.exists, mem_positiveIds]
    constructor
    · rintro ⟨v, _, ⟨hid, hv, hpos⟩, rfl⟩
      exact ⟨hid, v, hpos, hv⟩
    · rintro ⟨hid, v, hpos, hv⟩
      exact ⟨v, id, ⟨hid, hv, hpos⟩, rfl⟩
  · refine List.Pairwise.imp_of_mem (fun {p q} hp hq h => ?_)
      (hsorted.and (hperm.nodup_iff.2 (nodup_positiveIds net)))
    obtain ⟨v, i⟩ := p
    obtain ⟨w, j⟩ := q
    obtain ⟨hi, hv, -⟩ := mem_positiveIds.1 (hperm.mem_iff.1 hp)
    obtain ⟨hj, hw, -⟩ := mem_positiveIds.1 (hperm.mem_iff.1 hq)
    have hle : v ≤ w := of_decide_eq_true h.1
    have hne : v ≠ w := by
      rintro rfl
      have hij : i = j := hnet.label_inj (Network.lt_of_mem_contractedIds hi)
        (Network.lt_of_mem_contractedIds hj) (Label.eq_of_asInt hv hw)
      exact h.2 (hij ▸ rfl)
    exact ⟨v, w, hv, hw, by omega⟩

end ContractionTree

end TensorNet
