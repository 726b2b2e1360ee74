import TensorNet.Proofs.Tree.Shape
import TensorNet.Tree.Ordered

/-!
# Trees from an order are proper

While the labels of an order are contracted, every factor has a component. The invariant
(`Components.Sound`): a component holds its own factors and is the component of each of them, and
two different components share no node. So the components that are left at the end hold each
factor once, and joining them gives a proper tree.
-/

namespace TensorNet

/-! ### Joining a list of nodes -/

namespace Assembly

variable {net : Network} {costs : List Cost}

/-- Nodes that can be joined: they are built, they share no number, and all numbers are used. -/
structure Ready (net : Network) (costs : List Cost) (s : Assembly) (ts : List TreeNode) : Prop where
  costs_eq : s.costs = costs
  built : ∀ t ∈ ts, t.Built net costs
  used : ∀ t ∈ ts, ∀ i ∈ t.ids, i < s.next
  nodup : (ts.flatMap TreeNode.ids).Nodup

theorem Ready.join {s s' : Assembly} {l r t : TreeNode} {ts : List TreeNode}
    (h : Ready net costs s (l :: r :: ts)) (hj : s.join net l r = .ok (t, s')) :
    Ready net costs s' (t :: ts) ∧ t.factors = l.factors ++ r.factors := by
  obtain ⟨c, total, hc, -, rfl, rfl⟩ := join_eq_ok hj
  have hl := h.built l (by simp)
  have hr := h.built r (by simp)
  have hn := h.nodup
  simp only [List.flatMap_cons, ← List.append_assoc] at hn
  obtain ⟨hlr, hts, hd⟩ := List.nodup_append.1 hn
  refine ⟨⟨h.costs_eq, ?_, ?_, ?_⟩, rfl⟩
  · intro t ht
    rcases List.mem_cons.1 ht with rfl | ht
    · exact .join hl hr (h.costs_eq ▸ hc)
    · exact h.built t (by simp [ht])
  · intro t ht i hi
    show i < s.next + 1
    rcases List.mem_cons.1 ht with rfl | ht
    · rw [TreeNode.ids_join, List.mem_append, List.mem_append, List.mem_singleton] at hi
      rcases hi with (hi | hi) | rfl
      · have := h.used l (by simp) i hi
        omega
      · have := h.used r (by simp) i hi
        omega
      · omega
    · have := h.used t (by simp [ht]) i hi
      omega
  · have hnew : ∀ t ∈ l :: r :: ts, s.next ∉ t.ids := fun t ht hm =>
      Nat.lt_irrefl _ (h.used t ht _ hm)
    rw [List.flatMap_cons, TreeNode.ids_join]
    refine List.nodup_append.2 ⟨List.nodup_append.2 ⟨hlr, by simp, ?_⟩, hts, ?_⟩
    · intro i hi j hj
      rw [List.mem_singleton.1 hj]
      rintro rfl
      rcases List.mem_append.1 hi with hi | hi
      · exact hnew l (by simp) hi
      · exact hnew r (by simp) hi
    · intro i hi j hj
      rcases List.mem_append.1 hi with hi | hi
      · exact hd i hi j hj
      · rw [List.mem_singleton.1 hi]
        rintro rfl
        obtain ⟨t, ht, hm⟩ := List.mem_flatMap.1 hj
        exact hnew t (by simp [ht]) hm

theorem Ready.joinAll {acc last : TreeNode × Assembly} {rest : List TreeNode}
    (h : Ready net costs acc.2 (acc.1 :: rest)) (hj : joinAll net acc rest = .ok last) :
    Ready net costs last.2 [last.1] ∧
      last.1.factors = (acc.1 :: rest).flatMap TreeNode.factors := by
  induction rest generalizing acc with
  | nil =>
    cases hj
    exact ⟨h, by simp⟩
  | cons t ts ih =>
    unfold Assembly.joinAll at hj
    rw [List.foldlM_cons] at hj
    obtain ⟨x, hx, hj⟩ := bind_eq_ok.1 hj
    obtain ⟨h', hf⟩ := h.join hx
    obtain ⟨h1, h2⟩ := ih h' hj
    refine ⟨h1, ?_⟩
    rw [h2, List.flatMap_cons, hf, List.flatMap_cons, List.flatMap_cons, List.append_assoc]

theorem Ready.proper {s : Assembly} {t : TreeNode} (h : Ready net costs s [t])
    (hf : t.factors.Perm (List.range net.numFactors)) :
    (finish (t, s)).Proper net costs :=
  ⟨h.built t (by simp), hf, by simpa [finish] using h.nodup⟩

end Assembly

/-! ### Components -/

namespace Components

variable {net : Network} {costs : List Cost} {c c' : Components}

/-- The invariant of components. -/
structure Sound (net : Network) (costs : List Cost) (c : Components) : Prop where
  length : c.held.length = net.numFactors
  costs_eq : c.state.costs = costs
  built : ∀ t ∈ c.held, t.Built net costs
  used : ∀ t ∈ c.held, ∀ i ∈ t.ids, i < c.state.next
  nodupIds : ∀ t ∈ c.held, t.ids.Nodup
  nodup : ∀ t ∈ c.held, t.factors.Nodup
  own : ∀ (f : Nat) (t : TreeNode), c.held[f]? = some t → f ∈ t.factors
  shared : ∀ t ∈ c.held, ∀ f ∈ t.factors, c.held[f]? = some t
  apart : ∀ s ∈ c.held, ∀ t ∈ c.held, ∀ i ∈ s.ids, i ∈ t.ids → s = t

theorem Sound.eq_of_id (h : c.Sound net costs) {s t : TreeNode} (hs : s ∈ c.held)
    (ht : t ∈ c.held) (he : s.id = t.id) : s = t :=
  h.apart s hs t ht s.id s.id_mem_ids (he ▸ t.id_mem_ids)

theorem Sound.componentOf_mem (h : c.Sound net costs) {f : Nat} (hf : f < net.numFactors) :
    c.componentOf f ∈ c.held ∧ c.held[f]? = some (c.componentOf f) := by
  have hf' : f < c.held.length := h.length ▸ hf
  have he : c.held[f]? = some (c.componentOf f) := by
    rw [componentOf, List.getD_eq_getElem?_getD, List.getElem?_eq_getElem hf', Option.getD_some]
  exact ⟨List.mem_of_getElem? he, he⟩

/-! ### One leaf for each factor -/

variable (net) in
theorem leaves_eq (fs : List Nat) (s : Assembly) :
    (leaves net fs s).held =
        fs.mapIdx (fun k f => TreeNode.leaf (s.next + k) f (net.openSetOf f)) ∧
      (leaves net fs s).state = { s with next := s.next + fs.length } := by
  induction fs generalizing s with
  | nil => exact ⟨rfl, rfl⟩
  | cons f fs ih =>
    obtain ⟨h1, h2⟩ := ih { s with next := s.next + 1 }
    refine ⟨?_, ?_⟩
    · show TreeNode.leaf s.next f (net.openSetOf f) :: (leaves net fs _).held = _
      rw [h1, List.mapIdx_cons]
      simp only [Nat.add_zero, Nat.add_assoc, Nat.add_comm 1]
    · show (leaves net fs _).state = _
      rw [h2, List.length_cons]
      simp only [Nat.add_assoc, Nat.add_comm 1]

theorem sound_leaves : (leaves net (List.range net.numFactors) { costs }).Sound net costs := by
  obtain ⟨h1, h2⟩ := leaves_eq net (List.range net.numFactors) { costs }
  have hget : ∀ (f : Nat) (t : TreeNode),
      (leaves net (List.range net.numFactors) { costs }).held[f]? = some t ↔
        f < net.numFactors ∧ t = .leaf f f (net.openSetOf f) := by
    intro f t
    rw [h1, List.getElem?_mapIdx, Option.map_eq_some_iff]
    constructor
    · rintro ⟨g, hg, rfl⟩
      obtain ⟨hlt, rfl⟩ := List.getElem?_eq_some_iff.1 hg
      rw [List.length_range] at hlt
      exact ⟨hlt, by simp⟩
    · rintro ⟨hlt, rfl⟩
      exact ⟨f, by simp [hlt], by simp⟩
  have hmem : ∀ t ∈ (leaves net (List.range net.numFactors) { costs }).held,
      ∃ f, f < net.numFactors ∧ t = .leaf f f (net.openSetOf f) := by
    intro t ht
    obtain ⟨f, hf⟩ := List.mem_iff_getElem?.1 ht
    exact ⟨f, (hget f t).1 hf⟩
  refine ⟨by rw [h1]; simp, by rw [h2], ?_, ?_, ?_, ?_, ?_, ?_, ?_⟩
  · intro t ht
    obtain ⟨f, hf, rfl⟩ := hmem t ht
    exact .leaf hf
  · intro t ht i hi
    obtain ⟨f, hf, rfl⟩ := hmem t ht
    rw [TreeNode.ids_leaf, List.mem_singleton] at hi
    rw [h2, hi]
    simpa using hf
  · intro t ht
    obtain ⟨f, hf, rfl⟩ := hmem t ht
    simp
  · intro t ht
    obtain ⟨f, hf, rfl⟩ := hmem t ht
    simp [TreeNode.factors]
  · intro f t ht
    obtain ⟨-, rfl⟩ := (hget f t).1 ht
    simp [TreeNode.factors]
  · intro t ht f hf
    obtain ⟨g, hg, rfl⟩ := hmem t ht
    rw [TreeNode.factors, List.mem_singleton] at hf
    subst hf
    exact (hget f _).2 ⟨hg, rfl⟩
  · intro s hs t ht i hi hj
    obtain ⟨f, hf, rfl⟩ := hmem s hs
    obtain ⟨g, hg, rfl⟩ := hmem t ht
    rw [TreeNode.ids_leaf, List.mem_singleton] at hi hj
    rw [← hi, ← hj]

/-! ### Joining two components -/

section

variable {a b t : TreeNode}

theorem Sound.not_mem_next (h : c.Sound net costs) {y : TreeNode} (hy : y ∈ c.held) :
    c.state.next ∉ y.ids := by
  intro hi
  have := h.used y hy _ hi
  omega

/-- A component is replaced exactly when it is one of the two. -/
theorem Sound.merge_eq (h : c.Sound net costs) (ha : a ∈ c.held) (hb : b ∈ c.held)
    {x : TreeNode} (hx : x ∈ c.held) : merge a b t x = if x = a ∨ x = b then t else x := by
  have h1 : x.id = a.id ↔ x = a := ⟨h.eq_of_id hx ha, fun e => e ▸ rfl⟩
  have h2 : x.id = b.id ↔ x = b := ⟨h.eq_of_id hx hb, fun e => e ▸ rfl⟩
  simp only [merge, h1, h2]

theorem Sound.mem_merged (h : c.Sound net costs) (ha : a ∈ c.held) (hb : b ∈ c.held)
    {y : TreeNode} (hy : y ∈ c.held.map (merge a b t)) :
    y = t ∨ (y ∈ c.held ∧ y ≠ a ∧ y ≠ b) := by
  obtain ⟨x, hx, rfl⟩ := List.mem_map.1 hy
  rw [h.merge_eq ha hb hx]
  split
  · exact .inl rfl
  · next hn => exact .inr ⟨hx, fun e => hn (.inl e), fun e => hn (.inr e)⟩

theorem Sound.getElem?_merged (h : c.Sound net costs) (ha : a ∈ c.held) (hb : b ∈ c.held)
    {i : Nat} {y : TreeNode} : (c.held.map (merge a b t))[i]? = some y ↔
      ∃ x, c.held[i]? = some x ∧ (if x = a ∨ x = b then t else x) = y := by
  rw [List.getElem?_map, Option.map_eq_some_iff]
  constructor
  · rintro ⟨x, hx, rfl⟩
    exact ⟨x, hx, (h.merge_eq ha hb (List.mem_of_getElem? hx)).symm⟩
  · rintro ⟨x, hx, rfl⟩
    exact ⟨x, hx, h.merge_eq ha hb (List.mem_of_getElem? hx)⟩

theorem Sound.nodup_factors (h : c.Sound net costs) (ha : a ∈ c.held) (hb : b ∈ c.held)
    (hab : a ≠ b) : (a.factors ++ b.factors).Nodup := by
  refine List.nodup_append.2 ⟨h.nodup a ha, h.nodup b hb, ?_⟩
  rintro i hi _ hj rfl
  exact hab (Option.some.inj ((h.shared a ha i hi).symm.trans (h.shared b hb i hj)))

/-- Two components with a new node on top have no number twice. -/
theorem Sound.nodup_ids (h : c.Sound net costs) (ha : a ∈ c.held) (hb : b ∈ c.held)
    (hab : a ≠ b) : (a.ids ++ b.ids ++ [c.state.next]).Nodup := by
  refine List.nodup_append.2 ⟨List.nodup_append.2 ⟨h.nodupIds a ha, h.nodupIds b hb, ?_⟩,
    by simp, ?_⟩
  · rintro i hi _ hj rfl
    exact hab (h.apart a ha b hb i hi hj)
  · intro i hi j hj
    rw [List.mem_singleton.1 hj]
    rintro rfl
    rcases List.mem_append.1 hi with hi | hi
    · exact h.not_mem_next ha hi
    · exact h.not_mem_next hb hi

/-- A third component shares no number with them. -/
theorem Sound.not_mem_ids (h : c.Sound net costs) (ha : a ∈ c.held) (hb : b ∈ c.held)
    {y : TreeNode} (hy : y ∈ c.held) (hya : y ≠ a) (hyb : y ≠ b) {i : Nat} (hi : i ∈ y.ids) :
    i ∉ a.ids ++ b.ids ++ [c.state.next] := by
  intro hm
  rcases List.mem_append.1 hm with hm | hm
  · rcases List.mem_append.1 hm with hm | hm
    · exact hya (h.apart y hy a ha i hi hm)
    · exact hyb (h.apart y hy b hb i hi hm)
  · rw [List.mem_singleton.1 hm] at hi
    exact h.not_mem_next hy hi

/-- **Two components give way** to a tree of both. -/
theorem Sound.merged (h : c.Sound net costs) (ha : a ∈ c.held) (hb : b ∈ c.held) (hab : a ≠ b)
    (ht : t.Built net costs) (hids : t.ids = a.ids ++ b.ids ++ [c.state.next])
    (hfac : t.factors = a.factors ++ b.factors) (total : Cost) :
    Sound net costs
      ⟨c.held.map (merge a b t), { c.state with next := c.state.next + 1, total }⟩ := by
  have hmem : ∀ y ∈ c.held.map (merge a b t), y = t ∨ (y ∈ c.held ∧ y ≠ a ∧ y ≠ b) :=
    fun y hy => h.mem_merged ha hb hy
  refine ⟨by simpa using h.length, h.costs_eq, ?_, ?_, ?_, ?_, ?_, ?_, ?_⟩
  · intro y hy
    rcases hmem y hy with rfl | ⟨hy, -⟩
    · exact ht
    · exact h.built y hy
  · intro y hy i hi
    show i < c.state.next + 1
    rcases hmem y hy with rfl | ⟨hy, -⟩
    · rw [hids, List.mem_append, List.mem_append, List.mem_singleton] at hi
      rcases hi with (hi | hi) | rfl
      · have := h.used a ha i hi
        omega
      · have := h.used b hb i hi
        omega
      · omega
    · have := h.used y hy i hi
      omega
  · intro y hy
    rcases hmem y hy with rfl | ⟨hy, -⟩
    · exact hids ▸ h.nodup_ids ha hb hab
    · exact h.nodupIds y hy
  · intro y hy
    rcases hmem y hy with rfl | ⟨hy, -⟩
    · exact hfac ▸ h.nodup_factors ha hb hab
    · exact h.nodup y hy
  · intro i y hy
    obtain ⟨x, hx, rfl⟩ := (h.getElem?_merged ha hb).1 hy
    have hi := h.own i x hx
    split
    · next hxab =>
      rw [hfac]
      rcases hxab with rfl | rfl
      · exact List.mem_append_left _ hi
      · exact List.mem_append_right _ hi
    · exact hi
  · intro y hy i hi
    refine (h.getElem?_merged ha hb).2 ?_
    rcases hmem y hy with rfl | ⟨hy, h1, h2⟩
    · rw [hfac] at hi
      rcases List.mem_append.1 hi with hi | hi
      · exact ⟨a, h.shared a ha i hi, by simp⟩
      · exact ⟨b, h.shared b hb i hi, by simp⟩
    · exact ⟨y, h.shared y hy i hi, by simp [h1, h2]⟩
  · intro y hy z hz i hiy hiz
    rcases hmem y hy with rfl | ⟨hy', hya, hyb⟩ <;> rcases hmem z hz with rfl | ⟨hz', hza, hzb⟩
    · rfl
    · exact absurd (hids ▸ hiy) (h.not_mem_ids ha hb hz' hza hzb hiz)
    · exact absurd (hids ▸ hiz) (h.not_mem_ids ha hb hy' hya hyb hiy)
    · exact h.apart y hy' z hz' i hiy hiz

end

/-- Connecting two factors does nothing, or it makes one join and puts it for both components. -/
theorem connect_cases {f g : Nat} (hc : c.connect net f g = .ok c') :
    ((c.componentOf f).id = (c.componentOf g).id ∧ c' = c) ∨
      ((c.componentOf f).id ≠ (c.componentOf g).id ∧
        ∃ t s, c.state.join net (c.componentOf f) (c.componentOf g) = .ok (t, s) ∧
          c' = ⟨c.held.map (merge (c.componentOf f) (c.componentOf g) t), s⟩) := by
  unfold Components.connect at hc
  dsimp only at hc
  split at hc
  · next he =>
    cases hc
    exact .inl ⟨he, rfl⟩
  · next hne =>
    obtain ⟨⟨t, s⟩, hj, hc⟩ := bind_eq_ok.1 hc
    cases hc
    exact .inr ⟨hne, t, s, hj, rfl⟩

theorem Sound.connect {f g : Nat} (h : c.Sound net costs) (hf : f < net.numFactors)
    (hg : g < net.numFactors) (hc : c.connect net f g = .ok c') : c'.Sound net costs := by
  obtain ⟨ha, -⟩ := h.componentOf_mem hf
  obtain ⟨hb, -⟩ := h.componentOf_mem hg
  obtain ⟨-, rfl⟩ | ⟨hne, t, s, hj, rfl⟩ := connect_cases hc
  · exact h
  · obtain ⟨k, total, hk, -, rfl, rfl⟩ := Assembly.join_eq_ok hj
    exact h.merged ha hb (fun e => hne (e ▸ rfl))
      (.join (h.built _ ha) (h.built _ hb) (h.costs_eq ▸ hk))
      (TreeNode.ids_join ..) rfl total

/-- Contracting a label joins the components of two factors, or changes nothing. -/
theorem contract_cases {id : Nat} (hnet : net.Lawful) (hc : c.contract net id = .ok c') :
    c' = c ∨ ∃ f g, f < net.numFactors ∧ g < net.numFactors ∧ c.connect net f g = .ok c' := by
  unfold Components.contract at hc
  split at hc
  · next p q hpq =>
    have hid : id < net.numLabels := by
      by_cases hlt : id < net.numLabels
      · exact hlt
      · have : net.occurrences[id]? = none :=
          List.getElem?_eq_none (hnet.length_occurrences ▸ Nat.le_of_not_lt hlt)
        rw [Network.occurrencesOf, List.getD_eq_getElem?_getD, this] at hpq
        cases hpq
    rw [hnet.occurrencesOf_eq hid] at hpq
    have hlt : ∀ o ∈ [p, q], o.factor < net.numFactors := fun o ho =>
      (Network.mem_placesOf_iff.1 (hpq ▸ ho : ⟨o.factor, o.axis⟩ ∈ net.placesOf _)).1
    exact .inr ⟨_, _, hlt p (by simp), hlt q (by simp), hc⟩
  · cases hc
    exact .inl rfl

theorem Sound.contract {id : Nat} (hnet : net.Lawful) (h : c.Sound net costs)
    (hc : c.contract net id = .ok c') : c'.Sound net costs := by
  obtain rfl | ⟨f, g, hf, hg, hc⟩ := contract_cases hnet hc
  · exact h
  · exact h.connect hf hg hc

/-! ### Joining what is left -/

theorem mem_of_mem_distinct {seen : List Nat} {ts : List TreeNode} {t : TreeNode}
    (h : t ∈ distinct seen ts) : t ∈ ts ∧ t.id ∉ seen := by
  induction ts generalizing seen with
  | nil => cases h
  | cons x xs ih =>
    unfold distinct at h
    split at h
    · obtain ⟨h1, h2⟩ := ih h
      exact ⟨List.mem_cons_of_mem _ h1, h2⟩
    · next hx =>
      rcases List.mem_cons.1 h with rfl | h
      · exact ⟨List.mem_cons_self, hx⟩
      · obtain ⟨h1, h2⟩ := ih h
        exact ⟨List.mem_cons_of_mem _ h1, fun hm => h2 (List.mem_cons_of_mem _ hm)⟩

/-- A node stands before all nodes with the number of another one. -/
def Ahead (ts : List TreeNode) (s t : TreeNode) : Prop :=
  ∃ i : Nat, ts[i]? = some s ∧ ∀ (j : Nat) (u : TreeNode), ts[j]? = some u → u.id = t.id → i < j

theorem Ahead.cons {ts : List TreeNode} {s t x : TreeNode} (h : Ahead ts s t)
    (hx : x.id ≠ t.id) : Ahead (x :: ts) s t := by
  obtain ⟨i, hi, hlt⟩ := h
  refine ⟨i + 1, hi, fun j u hu he => ?_⟩
  cases j with
  | zero =>
    cases hu
    exact absurd he hx
  | succ j => exact Nat.succ_lt_succ (hlt j u hu he)

theorem ahead_head {ts : List TreeNode} {t x : TreeNode} (hx : x.id ≠ t.id) :
    Ahead (x :: ts) x t := by
  refine ⟨0, rfl, fun j u hu he => ?_⟩
  cases j with
  | zero =>
    cases hu
    exact absurd he hx
  | succ j => exact Nat.succ_pos j

/-- **The first of each is kept, in order.** -/
theorem pairwise_distinct (seen : List Nat) (ts : List TreeNode) :
    (distinct seen ts).Pairwise (Ahead ts) := by
  induction ts generalizing seen with
  | nil => exact .nil
  | cons x xs ih =>
    -- nothing with the number of `x` is kept once this number was seen
    have fresh : ∀ seen', x.id ∈ seen' → ∀ t ∈ distinct seen' xs, x.id ≠ t.id :=
      fun seen' hx t ht he => (mem_of_mem_distinct ht).2 (he ▸ hx)
    have later : ∀ seen', x.id ∈ seen' → (distinct seen' xs).Pairwise (Ahead (x :: xs)) :=
      fun seen' hx => (ih seen').imp_of_mem fun _ ht hst => hst.cons (fresh seen' hx _ ht)
    unfold distinct
    split
    · next hx => exact later seen hx
    · refine List.pairwise_cons.2 ⟨fun t ht => ?_, later _ List.mem_cons_self⟩
      exact ahead_head (fresh _ List.mem_cons_self t ht)

theorem nodup_distinct (seen : List Nat) (ts : List TreeNode) : (distinct seen ts).Nodup := by
  refine (pairwise_distinct seen ts).imp ?_
  rintro s _ ⟨i, hi, hlt⟩ rfl
  exact Nat.lt_irrefl i (hlt i s hi rfl)

theorem exists_mem_distinct {seen : List Nat} {ts : List TreeNode} {t : TreeNode} (h : t ∈ ts)
    (hs : t.id ∉ seen) : ∃ s ∈ distinct seen ts, s.id = t.id := by
  induction ts generalizing seen with
  | nil => cases h
  | cons x xs ih =>
    unfold distinct
    rcases List.mem_cons.1 h with rfl | h
    · rw [if_neg hs]
      exact ⟨t, List.mem_cons_self, rfl⟩
    · split
      · exact ih h hs
      · by_cases hx : t.id = x.id
        · exact ⟨x, List.mem_cons_self, hx.symm⟩
        · obtain ⟨s, hm, he⟩ := ih h (List.not_mem_cons_of_ne_of_not_mem hx hs)
          exact ⟨s, List.mem_cons_of_mem _ hm, he⟩

/-- All components are left. -/
theorem Sound.mem_distinct (h : c.Sound net costs) {t : TreeNode} :
    t ∈ distinct [] c.held ↔ t ∈ c.held := by
  constructor
  · intro ht
    exact (mem_of_mem_distinct ht).1
  · intro ht
    obtain ⟨s, hs, he⟩ := exists_mem_distinct ht List.not_mem_nil
    exact h.eq_of_id (mem_of_mem_distinct hs).1 ht he ▸ hs

/-- What is left at the end can be joined, and has every factor once. -/
theorem Sound.ready (h : c.Sound net costs) :
    Assembly.Ready net costs c.state (distinct [] c.held) ∧
      ((distinct [] c.held).flatMap TreeNode.factors).Perm (List.range net.numFactors) := by
  have hm : ∀ t ∈ distinct [] c.held, t ∈ c.held := fun t => h.mem_distinct.1
  have hpm : (distinct [] c.held).Pairwise fun s t => s ∈ c.held ∧ t ∈ c.held ∧ s ≠ t :=
    (nodup_distinct [] c.held).imp_of_mem fun hs ht hn => ⟨hm _ hs, hm _ ht, hn⟩
  refine ⟨⟨h.costs_eq, fun t ht => h.built t (hm t ht), fun t ht => h.used t (hm t ht), ?_⟩, ?_⟩
  · refine List.pairwise_flatMap.2 ⟨fun t ht => h.nodupIds t (hm t ht), hpm.imp ?_⟩
    rintro s t ⟨hs, ht, hn⟩ i hi _ hj rfl
    exact hn (h.apart s hs t ht i hi hj)
  · have hnd : ((distinct [] c.held).flatMap TreeNode.factors).Nodup := by
      refine List.pairwise_flatMap.2 ⟨fun t ht => h.nodup t (hm t ht), hpm.imp ?_⟩
      rintro s t ⟨hs, ht, hn⟩ i hi _ hj rfl
      exact hn (Option.some.inj ((h.shared s hs i hi).symm.trans (h.shared t ht i hj)))
    refine (List.perm_ext_iff_of_nodup hnd List.nodup_range).2 fun f => ?_
    rw [List.mem_flatMap, List.mem_range]
    constructor
    · rintro ⟨t, ht, hf⟩
      exact (h.built t (hm t ht)).factors_lt f hf
    · intro hf
      obtain ⟨h1, h2⟩ := h.componentOf_mem hf
      exact ⟨_, h.mem_distinct.2 h1, h.own f _ h2⟩

/-- Something is left, and it is joined. -/
theorem Sound.joinRest_eq_ok {t : ContractionTree} (hnet : net.Lawful) (h : c.Sound net costs)
    (hj : c.joinRest net = .ok t) : ∃ x xs last, distinct [] c.held = x :: xs ∧
      Assembly.joinAll net (x, c.state) xs = .ok last ∧ Assembly.finish last = t := by
  unfold joinRest at hj
  split at hj
  · next he =>
    obtain ⟨-, hp⟩ := h.ready
    rw [he, List.flatMap_nil] at hp
    have h0 : net.numFactors = 0 := by simpa using hp.length_eq.symm
    exact absurd hnet.pos (by omega)
  · next x xs he =>
    obtain ⟨last, hl, hj⟩ := bind_eq_ok.1 hj
    exact ⟨x, xs, last, he, hl, Except.ok.inj hj⟩

theorem Sound.proper_joinRest {t : ContractionTree} (hnet : net.Lawful) (h : c.Sound net costs)
    (hj : c.joinRest net = .ok t) : t.Proper net costs := by
  obtain ⟨hr, hp⟩ := h.ready
  obtain ⟨x, xs, last, he, hl, rfl⟩ := h.joinRest_eq_ok hnet hj
  rw [he] at hr hp
  obtain ⟨h1, h2⟩ := @Assembly.Ready.joinAll _ _ (x, c.state) _ _ hr hl
  exact h1.proper (h2 ▸ hp)

end Components

/-! ### The trees -/

namespace ContractionTree

variable {net : Network} {model : CostModel} {t : ContractionTree}

theorem proper_ordered {ids : List Nat} (hnet : net.Lawful)
    (h : ordered net model ids = .ok t) : t.Proper net (model.resolve net) := by
  unfold ordered at h
  obtain ⟨c, hc, h⟩ := bind_eq_ok.1 h
  refine Components.Sound.proper_joinRest (c := c) hnet ?_ h
  exact foldlM_inv (Components.Sound net (model.resolve net))
    (fun _ _ _ _ hs hstep => hs.contract hnet hstep) Components.sound_leaves hc

theorem proper_bySign (hnet : net.Lawful) (h : bySign net model = .ok t) :
    t.Proper net (model.resolve net) := proper_ordered hnet h

theorem exists_ordered_of_explicit {order : List Label} (h : explicit net order model = .ok t) :
    ∃ ids, ordered net model ids = .ok t := by
  unfold explicit at h
  obtain ⟨ids, -, h⟩ := bind_eq_ok.1 h
  obtain ⟨_, -, h⟩ := bind_eq_ok.1 h
  exact ⟨ids, h⟩

theorem proper_explicit {order : List Label} (hnet : net.Lawful)
    (h : explicit net order model = .ok t) : t.Proper net (model.resolve net) := by
  obtain ⟨ids, h⟩ := exists_ordered_of_explicit h
  exact proper_ordered hnet h

end ContractionTree

end TensorNet
