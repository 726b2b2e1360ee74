import Mathlib.Data.List.Nodup
import Mathlib.Data.List.Induction
import TensorNet.Proofs.Tree.Accepted

/-!
# What is wrong with an order

An order of labels that is not a permutation of the contracted labels has exactly one fault that is
reported. The labels are read one by one, and the first that cannot stand where it does is the
culprit: it occurs nowhere, it survives, or it was read before. If all of them can stand, the first
contracted label that is not listed is.

`Faulty` says this of lists of labels alone. `exists_faulty` says that there is always a fault to
report, and `explicit_of_faulty` that it is the one reported.
-/

namespace TensorNet

namespace ContractionTree

/-- The labels are contracted and stand once each. -/
def Fine (contracted ls : List Label) : Prop := ls.Nodup ∧ ∀ l ∈ ls, l ∈ contracted

/-- **The fault of an order** for a network with these labels, of which some are contracted. -/
inductive Faulty (labels contracted order : List Label) : OrderFault → Prop
  | unknown {pre post : List Label} {l : Label} (split : order = pre ++ l :: post)
      (fine : Fine contracted pre) (nowhere : l ∉ labels) :
      Faulty labels contracted order (.unknown l)
  | free {pre post : List Label} {l : Label} (split : order = pre ++ l :: post)
      (fine : Fine contracted pre) (somewhere : l ∈ labels) (survives : l ∉ contracted) :
      Faulty labels contracted order (.free l)
  | repeated {pre post : List Label} {l : Label} (split : order = pre ++ l :: post)
      (fine : Fine contracted pre) (summed : l ∈ contracted) (before : l ∈ pre) :
      Faulty labels contracted order (.repeated l)
  | missing {l : Label} (fine : Fine contracted order)
      (first : contracted.find? (fun l => decide (l ∉ order)) = some l) :
      Faulty labels contracted order (.missing l)

/-! ### There is a fault to report -/

theorem fine_nil (contracted : List Label) : Fine contracted [] :=
  ⟨List.nodup_nil, fun _ h => absurd h List.not_mem_nil⟩

theorem fine_concat {contracted pre : List Label} {l : Label} :
    Fine contracted (pre ++ [l]) ↔ Fine contracted pre ∧ l ∈ contracted ∧ l ∉ pre := by
  simp only [Fine, List.nodup_append, List.mem_append, List.mem_singleton]
  constructor
  · rintro ⟨⟨hn, -, hd⟩, hc⟩
    exact ⟨⟨hn, fun m hm => hc m (.inl hm)⟩, hc l (.inr rfl), fun hm => hd l hm l rfl rfl⟩
  · rintro ⟨⟨hn, hc⟩, hl, hnot⟩
    refine ⟨⟨hn, List.nodup_singleton l, ?_⟩, ?_⟩
    · rintro m hm _ rfl rfl
      exact hnot hm
    · rintro m (hm | rfl)
      · exact hc m hm
      · exact hl

/-- An order is fine, or it stops being so at some label. -/
theorem fine_or_split (contracted order : List Label) :
    Fine contracted order ∨ ∃ pre l post, order = pre ++ l :: post ∧ Fine contracted pre ∧
      ¬ Fine contracted (pre ++ [l]) := by
  induction order using List.reverseRecOn with
  | nil => exact .inl (fine_nil contracted)
  | append_singleton order l ih =>
    rcases ih with hfine | ⟨pre, m, post, rfl, hpre, hnot⟩
    · by_cases hl : Fine contracted (order ++ [l])
      · exact .inl hl
      · exact .inr ⟨order, l, [], rfl, hfine, hl⟩
    · exact .inr ⟨pre, m, post ++ [l], by simp, hpre, hnot⟩

theorem exists_faulty {contracted order : List Label} (labels : List Label)
    (hc : contracted.Nodup) (h : ¬ order.Perm contracted) :
    ∃ fault, Faulty labels contracted order fault := by
  rcases fine_or_split contracted order with hfine | ⟨pre, l, post, hsplit, hpre, hnot⟩
  · cases hf : contracted.find? fun l => decide (l ∉ order) with
    | some l => exact ⟨_, .missing hfine hf⟩
    | none =>
      have hall : ∀ l ∈ contracted, l ∈ order := by simpa using hf
      exact absurd ((List.perm_ext_iff_of_nodup hfine.1 hc).2
        fun l => ⟨hfine.2 l, hall l⟩) h
  · by_cases hl : l ∈ contracted
    · by_cases hb : l ∈ pre
      · exact ⟨_, .repeated hsplit hpre hl hb⟩
      · exact absurd (fine_concat.2 ⟨hpre, hl, hb⟩) hnot
    · by_cases hk : l ∈ labels
      · exact ⟨_, .free hsplit hpre hk hl⟩
      · exact ⟨_, .unknown hsplit hpre hk⟩

/-- An order with a fault is no permutation of the contracted labels. -/
theorem Faulty.not_perm {labels contracted order : List Label} {fault : OrderFault}
    (hc : contracted.Nodup) (hsub : ∀ l ∈ contracted, l ∈ labels)
    (h : Faulty labels contracted order fault) : ¬ order.Perm contracted := by
  intro hp
  cases h with
  | @unknown pre post l split _ nowhere =>
    exact nowhere (hsub l (hp.mem_iff.1 (split ▸ List.mem_append_right pre List.mem_cons_self)))
  | @free pre post l split _ _ survives =>
    exact survives (hp.mem_iff.1 (split ▸ List.mem_append_right pre List.mem_cons_self))
  | @repeated pre post l split _ _ before =>
    have hn : (pre ++ l :: post).Nodup := split ▸ hp.nodup_iff.2 hc
    exact (List.nodup_append.1 hn).2.2 l before l List.mem_cons_self rfl
  | @missing l _ first =>
    have hnot : l ∉ order := by simpa using List.find?_some first
    exact hnot (hp.mem_iff.2 (List.mem_of_find?_eq_some first))

/-! ### The fault is reported -/

variable {net : Network}

/-- Labels that are fine are read as their numbers. -/
theorem Fine.exists_names {order : List Label} (h : Fine net.contracted order) :
    ∃ ids, Names net [] order ids := by
  have hids : ∀ ls : List Label, (∀ l ∈ ls, l ∈ net.contracted) →
      ∃ ids : List Nat, ids.map net.label = ls ∧ ∀ id ∈ ids, id ∈ net.contractedIds := by
    intro ls
    induction ls with
    | nil => exact fun _ => ⟨[], rfl, fun _ hi => absurd hi List.not_mem_nil⟩
    | cons l ls ih =>
      intro hls
      obtain ⟨id, hid, rfl⟩ := List.mem_map.1 (hls l List.mem_cons_self)
      obtain ⟨ids, rfl, hall⟩ := ih fun m hm => hls m (List.mem_cons_of_mem _ hm)
      exact ⟨id :: ids, rfl, List.forall_mem_cons.2 ⟨hid, hall⟩⟩
  obtain ⟨ids, rfl, hall⟩ := hids order h.2
  exact ⟨ids, rfl, h.1.of_map net.label, hall, fun _ _ => List.not_mem_nil⟩

/-- Reading goes on behind labels that were read. -/
theorem Names.orderIds_append (hnet : net.Lawful) {seen ids : List Nat} {pre : List Label}
    (h : Names net seen pre ids) (rest : List Label) :
    orderIds net seen (pre ++ rest) =
      orderIds net (ids.reverse ++ seen) rest >>= fun more => .ok (ids ++ more) := by
  induction pre generalizing seen ids with
  | nil =>
    obtain rfl := names_nil.1 h
    show orderIds net seen rest = orderIds net seen rest >>= fun more => .ok more
    cases orderIds net seen rest with
    | error e => rfl
    | ok more => rfl
  | cons l pre ih =>
    obtain ⟨id, ids, rfl, hlook, hcon, hnew, hrest⟩ := (names_cons hnet).1 h
    have hseen : (id :: ids).reverse ++ seen = ids.reverse ++ id :: seen := by simp
    rw [List.cons_append, orderIds, hlook, hseen]
    dsimp only
    rw [if_neg (by simp [hcon]), if_neg hnew, ih hrest]
    cases orderIds net (ids.reverse ++ id :: seen) rest with
    | error e => rfl
    | ok more => rfl

/-- A label that cannot stand where it does stops the reading there. -/
theorem Names.explicit_error (hnet : net.Lawful) (model : CostModel) {order pre post : List Label}
    {l : Label} {ids : List Nat} {e : Error} (hsplit : order = pre ++ l :: post)
    (h : Names net [] pre ids) (he : orderIds net (ids.reverse ++ []) (l :: post) = .error e) :
    explicit net order model = .error e := by
  rw [hsplit, explicit, h.orderIds_append hnet, he]
  rfl

/-- A contracted label is among those read exactly if its number is. -/
theorem Names.label_mem (hnet : net.Lawful) {order : List Label} {ids : List Nat}
    (h : Names net [] order ids) {id : Nat} (hid : id ∈ net.contractedIds) :
    net.label id ∈ order ↔ id ∈ ids := by
  rw [← h.labels]
  refine ⟨fun hm => ?_, List.mem_map_of_mem⟩
  obtain ⟨j, hj, hji⟩ := List.mem_map.1 hm
  rwa [← hnet.label_inj (Network.lt_of_mem_contractedIds (h.contracted j hj))
    (Network.lt_of_mem_contractedIds hid) hji]

theorem find?_congr_of_mem {α : Type} {p q : α → Bool} {l : List α} (h : ∀ a ∈ l, p a = q a) :
    l.find? p = l.find? q := by
  induction l with
  | nil => rfl
  | cons a l ih =>
    rw [List.find?_cons, List.find?_cons, h a List.mem_cons_self,
      ih fun b hb => h b (List.mem_cons_of_mem _ hb)]

theorem mem_labels_of_contracted : ∀ l ∈ net.contracted, l ∈ net.labels := by
  intro l hl
  obtain ⟨id, hid, rfl⟩ := List.mem_map.1 hl
  exact List.mem_of_getElem? (Network.getElem?_labels (Network.lt_of_mem_contractedIds hid))

/-- **The fault of an order is what is reported.** -/
theorem explicit_of_faulty (hnet : net.Lawful) (model : CostModel) {order : List Label}
    {fault : OrderFault} (h : Faulty net.labels net.contracted order fault) :
    explicit net order model = .error (.invalidOrder fault) := by
  cases h with
  | unknown split fine nowhere =>
    obtain ⟨ids, hids⟩ := fine.exists_names
    refine hids.explicit_error hnet model split ?_
    rw [orderIds, Network.idOf?, List.idxOf?_eq_none_iff.2 nowhere]
  | @free pre post l split fine somewhere survives =>
    obtain ⟨ids, hids⟩ := fine.exists_names
    obtain ⟨id, hid⟩ := Option.isSome_iff_exists.1 (List.isSome_idxOf?.2 somewhere)
    obtain ⟨-, rfl⟩ := hnet.idOf?_eq_some.1 hid
    have hnot : ¬ net.isContracted id = true := fun hc =>
      survives (List.mem_map_of_mem ((mem_contractedIds hnet hid).2 hc))
    refine hids.explicit_error hnet model split ?_
    rw [orderIds, Network.idOf?, hid]
    simp [hnot]
  | @repeated pre post l split fine summed before =>
    obtain ⟨ids, hids⟩ := fine.exists_names
    obtain ⟨id, hid, rfl⟩ := List.mem_map.1 summed
    have hlook : net.idOf? (net.label id) = some id :=
      hnet.idOf?_eq_some.2 ⟨Network.lt_of_mem_contractedIds hid, rfl⟩
    have hin : id ∈ ids := (hids.label_mem hnet hid).1 before
    refine hids.explicit_error hnet model split ?_
    rw [orderIds, hlook]
    simp [(mem_contractedIds hnet hlook).1 hid, hin]
  | @missing l fine first =>
    obtain ⟨ids, hids⟩ := fine.exists_names
    have hsame : ∀ id ∈ net.contractedIds,
        (!ids.contains id) = decide (net.label id ∉ order) := by
      intro id hid
      rw [List.contains_eq_mem, ← decide_not, decide_eq_decide, not_iff_not]
      exact (hids.label_mem hnet hid).symm
    rw [Network.contracted, List.find?_map] at first
    obtain ⟨id, hfind, rfl⟩ : ∃ id,
        net.contractedIds.find? (fun id => decide (net.label id ∉ order)) = some id ∧
          net.label id = l := Option.map_eq_some_iff.1 first
    unfold explicit
    rw [(orderIds_eq_ok hnet).2 hids, ok_bind, checkComplete, find?_congr_of_mem hsame, hfind]
    rfl

end ContractionTree

end TensorNet
