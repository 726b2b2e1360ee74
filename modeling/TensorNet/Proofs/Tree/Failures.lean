import TensorNet.Proofs.Outcome
import TensorNet.Tree.Ordered

/-!
# How pricing a tree can fail

Costs in different variables cannot be added or multiplied. This is the only way in which a tree
that is put together node by node can fail: all else that is done on the way succeeds.
-/

namespace TensorNet

/-- If the computation fails, it has met two costs that cannot be combined. -/
def FailsByCost {α : Type} (r : Except Error α) : Prop :=
  ∀ e, r = .error e → ∃ x y, e = .incomparableCost x y

namespace FailsByCost

variable {α γ : Type}

theorem ok (a : α) : FailsByCost (.ok a) := FailsWith.ok a

theorem bind {r : Except Error α} {f : α → Except Error γ} (hr : FailsByCost r)
    (hf : ∀ a, FailsByCost (f a)) : FailsByCost (r >>= f) :=
  FailsWith.bind hr hf

theorem foldlM {f : γ → α → Except Error γ} (hf : ∀ c a, FailsByCost (f c a)) (l : List α) (c : γ) :
    FailsByCost (l.foldlM f c) :=
  FailsWith.foldlM hf l c

theorem ok_or_incomparable {r : Except Error α} (h : FailsByCost r) :
    (∃ a, r = .ok a) ∨ ∃ x y, r = .error (.incomparableCost x y) := by
  cases hr : r with
  | ok a => exact .inl ⟨a, rfl⟩
  | error e =>
    obtain ⟨x, y, rfl⟩ := h e hr
    exact .inr ⟨x, y, rfl⟩

end FailsByCost

/-! ### Costs -/

namespace Cost

theorem failsByCost_commonSymbol (a b : Cost) : FailsByCost (a.commonSymbol b) := by
  intro e he
  unfold commonSymbol at he
  split at he
  · split at he
    · cases he
    · cases he
      exact ⟨_, _, rfl⟩
  · cases he
  · cases he
  · cases he

theorem failsByCost_add (a b : Cost) : FailsByCost (a.add b) := by
  unfold add
  split
  · exact .ok _
  · exact (failsByCost_commonSymbol _ _).bind fun s => .ok _

theorem failsByCost_mul (a b : Cost) : FailsByCost (a.mul b) := by
  unfold mul
  split
  · exact .ok _
  · exact (failsByCost_commonSymbol _ _).bind fun s => .ok _

theorem failsByCost_lt (a b : Cost) : FailsByCost (a.lt b) := by
  unfold lt cmp
  refine FailsByCost.bind ?_ fun o => .ok _
  split
  · exact .ok _
  · exact (failsByCost_commonSymbol _ _).bind fun s => .ok _

end Cost

theorem failsByCost_joinCost (costs : List Cost) (a b : LabelSet) :
    FailsByCost (joinCost costs a b) := by
  unfold joinCost Cost.product
  exact .foldlM Cost.failsByCost_mul _ _

/-! ### Trees -/

variable {net : Network}

theorem Assembly.failsByCost_join (l r : TreeNode) (s : Assembly) :
    FailsByCost (s.join net l r) := by
  unfold Assembly.join
  refine (failsByCost_joinCost _ _ _).bind fun c => ?_
  exact (Cost.failsByCost_add _ _).bind fun total => .ok _

theorem Components.failsByCost_contract (c : Components) (id : Nat) :
    FailsByCost (c.contract net id) := by
  unfold Components.contract
  split
  · unfold Components.connect
    dsimp only
    split
    · exact .ok _
    · exact (Assembly.failsByCost_join _ _ _).bind fun x => .ok _
  · exact .ok _

theorem Components.failsByCost_joinRest (c : Components) : FailsByCost (c.joinRest net) := by
  unfold Components.joinRest
  split
  · exact .ok _
  · unfold Assembly.joinAll
    exact (FailsByCost.foldlM (fun _ _ => Assembly.failsByCost_join _ _ _) _ _).bind fun x => .ok _

/-- **Following an order of the labels** fails by costs only. -/
theorem ContractionTree.failsByCost_ordered (model : CostModel) (ids : List Nat) :
    FailsByCost (ordered net model ids) := by
  unfold ordered
  exact (FailsByCost.foldlM Components.failsByCost_contract _ _).bind Components.failsByCost_joinRest

end TensorNet
