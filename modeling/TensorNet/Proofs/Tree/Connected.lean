import Mathlib.Data.List.Induction
import Mathlib.Logic.Relation
import TensorNet.Proofs.Tree.WellFormed

/-!
# Components are connected components

Two factors are linked by a label that both carry, and they are connected through some labels when
a chain of such links leads from one to the other. While the labels of an order are contracted one
after the other, two factors have the same component exactly when they are connected through the
labels so far (`Components.after_spec`).

## Why

One label more connects what was connected to one of its two places with what was connected to the
other, and nothing else (`Network.connected_concat`). To contract the label does just this to the
components: those of the two places are put together, if they are two, and all others stay
(`Components.Contracts`). So components and connected components agree after each label.
-/

namespace TensorNet

/-! ### Links -/

namespace Network

variable (net : Network)

/-- Two factors carry a label with one of these numbers. -/
def Linked (ids : List Nat) (f g : Nat) : Prop :=
  ∃ id ∈ ids, net.label id ∈ (net.factor f).labels ∧ net.label id ∈ (net.factor g).labels

/-- **Two factors are connected** through the labels with these numbers. -/
def Connected (ids : List Nat) : Nat → Nat → Prop := Relation.EqvGen (net.Linked ids)

variable {net} {ids : List Nat} {f g : Nat}

theorem connected_of_eq (h : f = g) : net.Connected ids f g := h ▸ .refl f

theorem connected_nil : net.Connected [] f g ↔ f = g := by
  constructor
  · intro h
    induction h with
    | rel f g hl =>
      obtain ⟨id, hid, -⟩ := hl
      cases hid
    | refl f => rfl
    | symm f g _ ih => exact ih.symm
    | trans f g k _ _ ih1 ih2 => exact ih1.trans ih2
  · exact connected_of_eq

/-- **One more label** whose places are on two factors connects what is connected to either. -/
theorem connected_concat {id p q : Nat}
    (hid : ∀ f, net.label id ∈ (net.factor f).labels ↔ f = p ∨ f = q) :
    net.Connected (ids ++ [id]) f g ↔ net.Connected ids f g ∨
      ((net.Connected ids f p ∨ net.Connected ids f q) ∧
        (net.Connected ids g p ∨ net.Connected ids g q)) := by
  constructor
  · intro h
    induction h with
    | rel f g hl =>
      obtain ⟨i, hi, hf, hg⟩ := hl
      rcases List.mem_append.1 hi with hi | hi
      · exact .inl (.rel f g ⟨i, hi, hf, hg⟩)
      · obtain rfl := List.mem_singleton.1 hi
        exact .inr ⟨((hid f).1 hf).imp connected_of_eq connected_of_eq,
          ((hid g).1 hg).imp connected_of_eq connected_of_eq⟩
    | refl f => exact .inl (.refl f)
    | symm f g _ ih => exact ih.imp (.symm f g) And.symm
    | trans f g k _ _ ih1 ih2 =>
      rcases ih1 with h1 | ⟨hf, hg⟩ <;> rcases ih2 with h2 | ⟨hg', hk⟩
      · exact .inl (.trans f g k h1 h2)
      · exact .inr ⟨hg'.imp (.trans f g p h1) (.trans f g q h1), hk⟩
      · have h2 := Relation.EqvGen.symm g k h2
        exact .inr ⟨hf, hg.imp (.trans k g p h2) (.trans k g q h2)⟩
      · exact .inr ⟨hf, hk⟩
  · have old : ∀ {f g}, net.Connected ids f g → net.Connected (ids ++ [id]) f g := by
      intro f g h
      refine Relation.EqvGen.mono (fun f g hl => ?_) f g h
      obtain ⟨i, hi, hl⟩ := hl
      exact ⟨i, List.mem_append_left _ hi, hl⟩
    have hpq : net.Connected (ids ++ [id]) q p :=
      .rel q p ⟨id, by simp, (hid q).2 (.inr rfl), (hid p).2 (.inl rfl)⟩
    have toP : ∀ {f}, net.Connected ids f p ∨ net.Connected ids f q →
        net.Connected (ids ++ [id]) f p := by
      rintro f (h | h)
      · exact old h
      · exact (old h).trans f q p hpq
    rintro (h | ⟨hf, hg⟩)
    · exact old h
    · exact (toP hf).trans f p g ((toP hg).symm g p)

theorem lt_of_mem_labels {l : Label} (h : l ∈ (net.factor f).labels) : f < net.numFactors := by
  by_contra hf
  have hnone : net.factors[f]? = none := List.getElem?_eq_none (Nat.le_of_not_lt hf)
  have hempty : (net.factor f).labels = [] := by
    rw [factor, List.getD_eq_getElem?_getD, hnone]
    rfl
  rw [hempty] at h
  cases h

/-- A contracted label has two places, and the factors that carry it are those of the places. -/
theorem Lawful.exists_places (hnet : net.Lawful) {id : Nat} (hid : id ∈ net.contractedIds) :
    ∃ p q, net.occurrencesOf id = [p, q] ∧ p.factor < net.numFactors ∧
      q.factor < net.numFactors ∧
      ∀ f, net.label id ∈ (net.factor f).labels ↔ f = p.factor ∨ f = q.factor := by
  obtain ⟨hlt, hcon⟩ := List.mem_filter.1 hid
  have hplaces := hnet.occurrencesOf_eq (List.mem_range.1 hlt)
  obtain ⟨p, q, hpq⟩ : ∃ p q, net.occurrencesOf id = [p, q] :=
    List.length_eq_two.1 (by simpa [isContracted] using hcon)
  have hmem : ∀ o : Occurrence, o ∈ net.placesOf (net.label id) ↔ o = p ∨ o = q := by
    intro o
    rw [← hplaces, hpq]
    simp
  obtain ⟨hp, hpl⟩ := mem_placesOf_iff.1 ((hmem p).2 (.inl rfl))
  obtain ⟨hq, hql⟩ := mem_placesOf_iff.1 ((hmem q).2 (.inr rfl))
  refine ⟨p, q, hpq, hp, hq, fun f => ⟨fun hf => ?_, ?_⟩⟩
  · obtain ⟨k, hk⟩ := List.mem_iff_getElem?.1 hf
    rcases (hmem ⟨f, k⟩).1 (mem_placesOf_iff.2 ⟨lt_of_mem_labels hf, hk⟩) with rfl | rfl
    · exact .inl rfl
    · exact .inr rfl
  · rintro (rfl | rfl)
    · exact List.mem_of_getElem? hpl
    · exact List.mem_of_getElem? hql

end Network

namespace Components

variable {net : Network} {costs : List Cost} {c c' : Components} {ids : List Nat} {id : Nat}

/-! ### Components of factors -/

/-- **The components are the connected components** of the factors. -/
structure Partitions (net : Network) (ids : List Nat) (c : Components) : Prop where
  /-- Factors have the same node exactly when they are connected. -/
  same : ∀ f < net.numFactors, ∀ g < net.numFactors,
    (c.componentOf f).id = (c.componentOf g).id ↔ net.Connected ids f g
  /-- The leaves below the node of a factor are the factors that it is connected to. -/
  below : ∀ f < net.numFactors, ∀ g, g ∈ (c.componentOf f).factors ↔
    g < net.numFactors ∧ net.Connected ids f g

theorem Sound.componentOf_eq_iff (h : c.Sound net costs) {f : Nat} (hf : f < net.numFactors)
    {t : TreeNode} (ht : t ∈ c.held) : c.componentOf f = t ↔ f ∈ t.factors := by
  have hget := (h.componentOf_mem hf).2
  constructor
  · rintro rfl
    exact h.own f _ hget
  · intro hm
    exact Option.some.inj (hget.symm.trans (h.shared t ht f hm))

/-- It is enough to look at the nodes, as what is below a node are the factors that have it. -/
theorem Sound.partitions (h : c.Sound net costs)
    (hsame : ∀ f < net.numFactors, ∀ g < net.numFactors,
      c.componentOf f = c.componentOf g ↔ net.Connected ids f g) : c.Partitions net ids := by
  refine ⟨fun f hf g hg => ?_, fun f hf g => ?_⟩
  · rw [← hsame f hf g hg]
    constructor
    · exact h.eq_of_id (h.componentOf_mem hf).1 (h.componentOf_mem hg).1
    · intro he
      rw [he]
  · have ht := (h.componentOf_mem hf).1
    constructor
    · intro hg
      have hlt := (h.built _ ht).factors_lt g hg
      exact ⟨hlt, (hsame f hf g hlt).1 ((h.componentOf_eq_iff hlt ht).2 hg).symm⟩
    · rintro ⟨hlt, hc⟩
      exact (h.componentOf_eq_iff hlt ht).1 ((hsame f hf g hlt).2 hc).symm

theorem Partitions.eq_iff (h : c.Partitions net ids) (hs : c.Sound net costs) {f g : Nat}
    (hf : f < net.numFactors) (hg : g < net.numFactors) :
    c.componentOf f = c.componentOf g ↔ net.Connected ids f g := by
  rw [← h.same f hf g hg]
  constructor
  · intro he
    rw [he]
  · exact hs.eq_of_id (hs.componentOf_mem hf).1 (hs.componentOf_mem hg).1

theorem partitions_leaves :
    (leaves net (List.range net.numFactors) { costs }).Partitions net [] := by
  refine sound_leaves.partitions fun f hf g hg => ?_
  have hleaf : ∀ f < net.numFactors,
      (leaves net (List.range net.numFactors) { costs }).componentOf f =
        .leaf f f (net.openSetOf f) := by
    intro f hf
    rw [componentOf, (leaves_eq net _ _).1, List.getD_eq_getElem?_getD]
    simp [hf]
  rw [hleaf f hf, hleaf g hg, Network.connected_nil]
  constructor
  · intro he
    cases he
    rfl
  · rintro rfl
    rfl

/-! ### One label -/

/-- **What contracting a label does to the components.** -/
inductive Contracts (net : Network) (id : Nat) (c : Components) : Components → Prop
  /-- The places of the label are in one component already: there is no new node. -/
  | skip {p q : Occurrence} (places : net.occurrencesOf id = [p, q])
      (same : (c.componentOf p.factor).id = (c.componentOf q.factor).id) : Contracts net id c c
  /-- The components of the two places are joined, and each of their factors gets the new node. It
  sums the labels with one place on each side. -/
  | merge {p q : Occurrence} {a b t : TreeNode} {cs : List Label} {cost : Cost} {s : LabelSet}
      {c' : Components} (places : net.occurrencesOf id = [p, q])
      (left : a = c.componentOf p.factor) (right : b = c.componentOf q.factor)
      (apart : a.id ≠ b.id) (node : t = .join c.state.next a b cs cost s) (nodup : cs.Nodup)
      (summed : ∀ l, l ∈ cs ↔ net.timesIn a.factors l = 1 ∧ net.timesIn b.factors l = 1)
      (held : ∀ f < net.numFactors, c'.componentOf f =
        if f ∈ a.factors ∨ f ∈ b.factors then t else c.componentOf f)
      (added : c'.state.next = c.state.next + 1) : Contracts net id c c'

theorem Sound.contracts (hnet : net.Lawful) (h : c.Sound net costs) {id : Nat}
    (hid : id ∈ net.contractedIds) (hc : c.contract net id = .ok c') : Contracts net id c c' := by
  obtain ⟨p, q, hpq, hp, hq, -⟩ := hnet.exists_places hid
  have ha := (h.componentOf_mem hp).1
  have hb := (h.componentOf_mem hq).1
  unfold Components.contract at hc
  rw [hpq] at hc
  obtain ⟨he, rfl⟩ | ⟨hne, t, s, hj, rfl⟩ := connect_cases hc
  · exact .skip hpq he
  · obtain ⟨k, total, -, -, ht, rfl⟩ := Assembly.join_eq_ok hj
    refine .merge hpq rfl rfl hne ht
      (TreeNode.nodup_common hnet (h.built _ ha) (h.built _ hb) (h.nodup _ ha) (h.nodup _ hb))
      (TreeNode.mem_common hnet (h.built _ ha) (h.built _ hb) (h.nodup _ ha) (h.nodup _ hb))
      (fun f hf => ?_) rfl
    obtain ⟨hf', hget⟩ := h.componentOf_mem hf
    rw [componentOf, List.getD_eq_getElem?_getD, List.getElem?_map, hget]
    simp only [Option.map_some, Option.getD_some, h.merge_eq ha hb hf', h.componentOf_eq_iff hf ha,
      h.componentOf_eq_iff hf hb]

/-- Afterwards two factors have the same component if they had before, or if the components of both
were those of the two places. -/
theorem Contracts.componentOf_eq_iff (h : Contracts net id c c') (hs : c.Sound net costs)
    {p q : Occurrence} (hpq : net.occurrencesOf id = [p, q]) (hp : p.factor < net.numFactors)
    (hq : q.factor < net.numFactors) {f g : Nat} (hf : f < net.numFactors)
    (hg : g < net.numFactors) :
    c'.componentOf f = c'.componentOf g ↔ c.componentOf f = c.componentOf g ∨
      ((c.componentOf f = c.componentOf p.factor ∨ c.componentOf f = c.componentOf q.factor) ∧
        (c.componentOf g = c.componentOf p.factor ∨ c.componentOf g = c.componentOf q.factor)) := by
  have ha := (hs.componentOf_mem hp).1
  have hb := (hs.componentOf_mem hq).1
  cases h with
  | skip places same =>
    obtain ⟨rfl, rfl⟩ : p = _ ∧ q = _ := by simpa using hpq.symm.trans places
    have he := hs.eq_of_id ha hb same
    simp only [he, or_self]
    constructor
    · exact .inl
    · rintro (h | ⟨hf, hg⟩)
      · exact h
      · exact hf.trans hg.symm
  | @merge _ _ a b t _ _ _ _ places left right apart node nodup summed held added =>
    obtain ⟨rfl, rfl⟩ : p = _ ∧ q = _ := by simpa using hpq.symm.trans places
    subst left right
    have hnew : ∀ k < net.numFactors, c.componentOf k ≠ t := by
      rintro k hk rfl
      refine hs.not_mem_next (hs.componentOf_mem hk).1 ?_
      rw [node]
      exact TreeNode.id_mem_ids _
    simp only [held f hf, held g hg, ← hs.componentOf_eq_iff hf ha, ← hs.componentOf_eq_iff hf hb,
      ← hs.componentOf_eq_iff hg ha, ← hs.componentOf_eq_iff hg hb]
    by_cases hef : c.componentOf f = c.componentOf p.factor ∨
        c.componentOf f = c.componentOf q.factor <;>
      by_cases heg : c.componentOf g = c.componentOf p.factor ∨
        c.componentOf g = c.componentOf q.factor
    · rw [if_pos hef, if_pos heg]
      exact iff_of_true rfl (.inr ⟨hef, heg⟩)
    · rw [if_pos hef, if_neg heg]
      refine iff_of_false (hnew g hg).symm ?_
      rintro (h | h)
      · exact heg (h ▸ hef)
      · exact heg h.2
    · rw [if_neg hef, if_pos heg]
      refine iff_of_false (hnew f hf) ?_
      rintro (h | h)
      · exact hef (h ▸ heg)
      · exact hef h.1
    · rw [if_neg hef, if_neg heg]
      exact (or_iff_left fun h => hef h.1).symm

/-- **One label more**: components that are connected components stay so. -/
theorem Partitions.contract (hnet : net.Lawful) (h : c.Partitions net ids) (hs : c.Sound net costs)
    (hid : id ∈ net.contractedIds) (hc : c.contract net id = .ok c') :
    c'.Partitions net (ids ++ [id]) := by
  obtain ⟨p, q, hpq, hp, hq, hcarry⟩ := hnet.exists_places hid
  refine (hs.contract hnet hc).partitions fun f hf g hg => ?_
  rw [(hs.contracts hnet hid hc).componentOf_eq_iff hs hpq hp hq hf hg,
    Network.connected_concat hcarry, h.eq_iff hs hf hg, h.eq_iff hs hf hp, h.eq_iff hs hf hq,
    h.eq_iff hs hg hp, h.eq_iff hs hg hq]

/-! ### All labels of an order -/

/-- The components after the labels with these numbers were contracted, one after the other. -/
def after (net : Network) (model : CostModel) (ids : List Nat) : Except Error Components :=
  ids.foldlM (contract net) (leaves net (List.range net.numFactors) { costs := model.resolve net })

variable {model : CostModel}

theorem after_concat (net : Network) (model : CostModel) (ids : List Nat) (id : Nat) :
    after net model (ids ++ [id]) = after net model ids >>= fun c => c.contract net id := by
  simp only [after, List.foldlM_append, List.foldlM_cons, List.foldlM_nil, bind_pure]

/-- **The components after any part of an order** are the connected components. -/
theorem after_spec (hnet : net.Lawful) (hids : ∀ id ∈ ids, id ∈ net.contractedIds)
    (h : after net model ids = .ok c) :
    c.Sound net (model.resolve net) ∧ c.Partitions net ids := by
  induction ids using List.reverseRecOn generalizing c with
  | nil =>
    cases h
    exact ⟨sound_leaves, partitions_leaves⟩
  | append_singleton ids id ih =>
    rw [after_concat] at h
    obtain ⟨d, hd, hc⟩ := bind_eq_ok.1 h
    obtain ⟨hs, hp⟩ := ih (fun i hi => hids i (List.mem_append_left _ hi)) hd
    exact ⟨hs.contract hnet hc, hp.contract hnet hs (hids id (by simp)) hc⟩

/-- When the labels of an order were contracted, so were those of its first parts. -/
theorem after_of_prefix {pre : List Nat} (h : after net model ids = .ok c) (hp : pre <+: ids) :
    ∃ d, after net model pre = .ok d := by
  obtain ⟨post, rfl⟩ := hp
  rw [after, List.foldlM_append] at h
  obtain ⟨d, hd, -⟩ := bind_eq_ok.1 h
  exact ⟨d, hd⟩

end Components

end TensorNet
