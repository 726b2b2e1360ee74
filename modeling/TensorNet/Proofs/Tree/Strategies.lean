import TensorNet.Plan.Basic
import TensorNet.Proofs.Tree.Ordered
import TensorNet.Proofs.Tree.Search

/-!
# Trees of all strategies

Whatever the strategy and the costs, a tree that is chosen is a proper tree of the network. For the
search this does not need that costs can be compared: every choice in the table divides its set in
two, so reading the table assembles a tree.
-/

namespace TensorNet

namespace Search

/-- Every choice for more than one factor divides its set. -/
def Divides (t : Table) : Prop :=
  ∀ s c, t.choices[s]? = some c → (∃ f, s = Subset.single f) ∨ ∃ r, (c.left, r) ∈ splits s

variable {net : Network} {p : Problem} {t t' : Table}

theorem best_divides {s : Nat} {c : Choice} (h : best p t s = .ok (some c)) :
    ∃ r, (c.left, r) ∈ splits s := by
  refine foldlM_inv (fun b => ∀ c, b = some c → ∃ r, (c.left, r) ∈ splits s) ?_ nofun h c rfl
  intro b lr b' hlr hb hstep c hc
  rcases consider_cases hstep with rfl | ⟨_, _, _, _, k, -, -, -, -, -, -, rfl⟩
  · exact hb c hc
  · cases hc
    exact ⟨lr.2, hlr⟩

theorem Divides.solve {s : Nat} (h : Divides t) (hs : solve p t s = .ok t') : Divides t' := by
  unfold Search.solve at hs
  obtain ⟨t₁, hn, hs⟩ := bind_eq_ok.1 hs
  have h₁ : Divides t₁ := by
    unfold noteOpen at hn
    split at hn
    · cases hn
      exact h
    · cases hn
  obtain ⟨b, hb, hs⟩ := bind_eq_ok.1 hs
  cases b with
  | none =>
    cases hs
    exact h₁
  | some c =>
    cases hs
    intro s' c' hc
    rw [Std.HashMap.getElem?_insert] at hc
    split at hc
    · next he =>
      obtain rfl : s = s' := by simpa using he
      cases hc
      exact .inr (best_divides hb)
    · exact h₁ s' c' hc

theorem divides_start (net : Network) : Divides (start net) := by
  intro s c hc
  by_cases hs : ∃ f, s = Subset.single f
  · exact .inl hs
  · rw [(start_spec net).2 s fun f _ he => hs ⟨f, he⟩] at hc
    cases hc

theorem solveAll_divides (h : solveAll p net = .ok t) : Divides t := by
  refine foldlM_inv Divides (fun t size t' _ ht hs => ?_) (divides_start net) h
  exact foldlM_inv Divides (fun t s t' _ ht hs => ht.solve hs) ht hs

/-- **Reading a table assembles a tree** over the set that is read. -/
theorem rebuild_shape (h : Divides t) {depth s : Nat} {a a' : Assembly} {x : TreeNode}
    (hs : ∃ v : Shape, v.Within net.numFactors ∧ v.mask = s)
    (hr : rebuild net t depth s a = .ok (x, a')) :
    ∃ u : Shape, u.Within net.numFactors ∧ u.mask = s ∧ u.assemble net a = .ok (x, a') := by
  induction depth generalizing s a a' x with
  | zero => cases hr
  | succ depth ih =>
    obtain ⟨v, hv, rfl⟩ := hs
    obtain ⟨m, hm⟩ := Subset.exists_hasLowest v.mask_ne_zero
    rw [rebuild] at hr
    split at hr
    · next hsing =>
      have he : v.mask = Subset.single m := (Subset.isSingleton_iff hm).1 hsing
      have hmf : m ∈ v.factors := (Shape.hasLowest_mask.1 hm).1
      rw [he, Subset.member_single] at hr
      exact ⟨.leaf m, Shape.within_leaf (hv.lt m hmf), by rw [he, Shape.mask_leaf], hr⟩
    · next hsing =>
      split at hr
      · cases hr
      · next c hc =>
        obtain ⟨⟨x₁, a₁⟩, h₁, hr⟩ := bind_eq_ok.1 hr
        obtain ⟨⟨x₂, a₂⟩, h₂, hr⟩ := bind_eq_ok.1 hr
        obtain ⟨r, hin⟩ : ∃ r, (c.left, r) ∈ splits v.mask := by
          refine (h _ c hc).resolve_left ?_
          rintro ⟨f, hf⟩
          apply hsing
          have hmf : m = f := Subset.mem_single.1 (hf ▸ hm.mem)
          exact (Subset.isSingleton_iff hm).2 (hmf ▸ hf)
        obtain ⟨-, -, -, rfl⟩ := hm.mem_splits.1 hin
        obtain ⟨⟨v₁, hv₁, hm₁, -⟩, ⟨v₂, hv₂, hm₂, -⟩⟩ := hv.exists_parts hin
        obtain ⟨l, hl, hlm, hla⟩ := ih ⟨v₁, hv₁, hm₁⟩ h₁
        obtain ⟨r, hr', hrm, hra⟩ := ih ⟨v₂, hv₂, hm₂⟩ h₂
        obtain ⟨hw, hmask, -⟩ := Shape.join_of_mem_splits (u := v) hl hr'
          (by rw [hlm, hrm]; exact hin)
        refine ⟨.join l r, hw, hmask, ?_⟩
        simp only [Shape.assemble, hla, hra, ok_bind]
        exact hr

end Search

namespace ContractionTree

variable {net : Network} {model : CostModel} {t : ContractionTree}

theorem assembled_optimal (hnet : net.Lawful) {prune : Bool}
    (h : optimal net model prune = .ok t) : t.Assembled net (model.resolve net) := by
  unfold optimal at h
  dsimp only at h
  split at h
  · cases h
  · obtain ⟨reference, href, h⟩ := bind_eq_ok.1 h
    split at h
    · cases h
      exact assembled_leftToRight hnet href
    · obtain ⟨table, htable, h⟩ := bind_eq_ok.1 h
      split at h
      · obtain ⟨⟨root, a⟩, hr, h⟩ := bind_eq_ok.1 h
        cases h
        obtain ⟨u, hu, hum, hua⟩ := Search.rebuild_shape (Search.solveAll_divides htable)
          ⟨_, Shape.within_of_perm (Shape.perm_leftDeep hnet.pos), Shape.mask_leftDeep hnet.pos⟩ hr
        exact ⟨u, root, a, hu.perm_range hum, hua, rfl⟩
      · cases h
        exact assembled_leftToRight hnet href

theorem proper_optimal (hnet : net.Lawful) {prune : Bool} (h : optimal net model prune = .ok t) :
    t.Proper net (model.resolve net) := (assembled_optimal hnet h).proper

end ContractionTree

/-- **A tree that a strategy returns** for a network. -/
inductive ContractionTree.Chosen (net : Network) (model : CostModel) (t : ContractionTree) : Prop
  | leftToRight (h : ContractionTree.leftToRight net model = .ok t)
  | bySign (h : ContractionTree.bySign net model = .ok t)
  | explicit {order : List Label} (h : ContractionTree.explicit net order model = .ok t)
  | optimal {prune : Bool} (h : ContractionTree.optimal net model prune = .ok t)

theorem ContractionTree.Chosen.proper {net : Network} {model : CostModel} {t : ContractionTree}
    (h : t.Chosen net model) (hnet : net.Lawful) : t.Proper net (model.resolve net) := by
  cases h with
  | leftToRight h => exact proper_leftToRight hnet h
  | bySign h => exact proper_bySign hnet h
  | explicit h => exact proper_explicit hnet h
  | optimal h => exact proper_optimal hnet h

/-- **The tree of a plan is a proper tree**, whatever the strategy. -/
theorem Plan.proper_chooseTree {net : Network} {model : CostModel} {t : ContractionTree}
    (hnet : net.Lawful) {prune : Bool} {strategy : Strategy}
    (h : chooseTree net model prune strategy = .ok t) : t.Proper net (model.resolve net) := by
  unfold chooseTree at h
  split at h
  · exact ContractionTree.proper_optimal hnet h
  · split at h
    · exact ContractionTree.proper_bySign hnet h
    · cases h
  · exact ContractionTree.proper_explicit hnet h
  · exact ContractionTree.proper_leftToRight hnet h
  · exact ContractionTree.proper_leftToRight hnet h

end TensorNet
