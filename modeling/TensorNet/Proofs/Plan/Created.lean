import Mathlib
import TensorNet.Proofs.Plan.Located
import TensorNet.Proofs.Tree.Strategies

/-!
# Plans that were made

What is known of a plan that `Plan.create` returns: its network is as it was built, save that all
factors may be conjugated, its tree is proper, and its steps are those of the tree. All steps but
the last write temporaries of their own, and the last one alone writes the destination.
-/

namespace TensorNet

namespace Plan

/-- **A plan with a proper tree and the steps of this tree.** -/
structure Proper (p : Plan) : Prop where
  network : p.network.Lawful
  tree : ∃ costs, p.tree.Proper p.network costs
  lowered : (p.steps, p.temporaries) = p.tree.lower p.network

theorem create_eq {ids ids' : PlanIds} {net : Network} {config : PlanConfig} {p : Plan}
    (h : create ids net config = .ok (p, ids')) :
    p.network = (if config.conjugate then net.conjugated else net) ∧
      chooseTree p.network (config.costModel.getD .standard) config.prune
        (resolveStrategy p.network config) = .ok p.tree ∧
      (p.steps, p.temporaries) = p.tree.lower p.network := by
  unfold create at h
  dsimp only at h
  obtain ⟨tree, ht, h⟩ := bind_eq_ok.1 h
  split at h
  · cases h
    exact ⟨rfl, ht, rfl⟩
  · cases h
    exact ⟨rfl, ht, rfl⟩

theorem proper_of_create {ids ids' : PlanIds} {net : Network} {config : PlanConfig} {p : Plan}
    (hnet : net.Lawful) (h : create ids net config = .ok (p, ids')) : p.Proper := by
  obtain ⟨hn, ht, hl⟩ := create_eq h
  have hlaw : p.network.Lawful := by
    rw [hn]
    split
    · exact hnet.conjugated
    · exact hnet
  exact ⟨hlaw, ⟨_, proper_chooseTree hlaw ht⟩, hl⟩

/-! ### Temporaries -/

theorem temporaries_lower (net : Network) (t : ContractionTree) :
    (t.lower net).2 = (Lowering.lowerNode net true t.root).temporaries := by
  unfold ContractionTree.lower
  dsimp only
  split
  · rfl
  · rfl

theorem Proper.temporaries {p : Plan} (h : p.Proper) :
    p.temporaries = (Lowering.lowerNode p.network true p.tree.root).temporaries := by
  rw [← temporaries_lower, ← h.lowered]

theorem find?_slot {ts : List TemporarySpec} (hn : (ts.map (·.slot)).Nodup) {t : TemporarySpec}
    (ht : t ∈ ts) : ts.find? (fun u => u.slot == t.slot) = some t := by
  induction ts with
  | nil => cases ht
  | cons u ts ih =>
    rw [List.map_cons, List.nodup_cons] at hn
    rw [List.find?_cons]
    rcases List.mem_cons.1 ht with rfl | ht
    · simp
    · have hne : u.slot ≠ t.slot := fun he => hn.1 (he ▸ List.mem_map_of_mem ht)
      have hb : (u.slot == t.slot) = false := by simpa using hne
      rw [hb]
      exact ih hn.2 ht

/-- **A temporary of the plan is found by its slot.** -/
theorem Proper.temporary? {p : Plan} (h : p.Proper) {t : TemporarySpec} (ht : t ∈ p.temporaries) :
    p.temporary? t.slot = some t := by
  obtain ⟨costs, htree⟩ := h.tree
  refine find?_slot ?_ ht
  rw [h.temporaries]
  exact htree.nodup.sublist (Lowering.slots_lowerNode ..)

/-! ### The steps of a tree -/

section

open Lowering

variable {net : Network} {t : ContractionTree}

/-- A single factor without repeated labels is copied out. -/
theorem steps_lower_read {id i : Nat} {s : LabelSet} (hr : t.root = .leaf id i s)
    (hp : pairsFrom 0 (net.factor i).labels = []) :
    (t.lower net).1 = [copyOut net (readInput (net.factor i) i).result] := by
  simp only [ContractionTree.lower, hr, lowerNode, lowerLeaf, hp]
  rfl

/-- A single factor with repeated labels is traced into the destination. -/
theorem steps_lower_trace {id i : Nat} {s : LabelSet} (hr : t.root = .leaf id i s)
    (hp : pairsFrom 0 (net.factor i).labels ≠ []) :
    (t.lower net).1 =
      (traceInput net (net.factor i) i id true (pairsFrom 0 (net.factor i).labels)).steps := by
  cases hq : pairsFrom 0 (net.factor i).labels with
  | nil => exact absurd hq hp
  | cons q qs =>
    simp only [ContractionTree.lower, hr, lowerNode, lowerLeaf, hq]
    rfl

/-- The permutation of a copy lists all axes, as that of a trace over no pairs does. -/
theorem copyOut_eq {i : Nat} (hp : pairsFrom 0 (net.factor i).labels = []) :
    copyOut net (readInput (net.factor i) i).result =
      ⟨.copy ⟨.input i, (net.factor i).conj⟩, .destination, tracePerm (net.factor i) i net.output,
        .callerAlpha, .callerBeta⟩ := by
  have hkept : keptAxes (net.factor i).rank [] = List.range (net.factor i).labels.length :=
    List.filter_eq_self.2 fun _ _ => rfl
  have hlabels : (traceAxes (net.factor i) i).map (·.1) = (net.factor i).labels := by
    rw [traceAxes, hp, hkept, List.map_map]
    exact map_axisLabel_range _
  have hperm : tracePerm (net.factor i) i net.output =
      positions net.output (net.factor i).labels := by
    rw [tracePerm, hlabels, hp, hkept]
    conv => rhs; rw [← List.map_id' (positions net.output (net.factor i).labels)]
    refine List.map_congr_left fun k hk => ?_
    rw [List.getD_eq_getElem?_getD, List.getElem?_range (lt_of_mem_positions hk), Option.getD_some]
  rw [hperm]
  rfl

/-- Otherwise the two sides come first, and their results are contracted into the destination. -/
theorem steps_lower_join {id : Nat} {l r : TreeNode} {cs : List Label} {c : Cost} {s : LabelSet}
    (hr : t.root = .join id l r cs c s) :
    (t.lower net).1 = (lowerNode net false l).steps ++ (lowerNode net false r).steps ++
      (joinResults net id (lowerNode net false l).result (lowerNode net false r).result cs
        true).steps := by
  simp only [ContractionTree.lower, hr, lowerNode]
  rfl

end

/-- The last step of a plan writes the destination, with the scalars of the caller. -/
structure Final (s : Instruction) : Prop where
  dst : s.dst = .destination
  alpha : s.alpha = .callerAlpha
  beta : s.beta = .callerBeta

/-- **Steps that write temporaries come first, and one step that writes the destination ends the
plan.** This holds for the steps of any tree. -/
theorem exists_steps_lower (net : Network) (t : ContractionTree) :
    ∃ init last, (t.lower net).1 = init ++ [last] ∧ (∀ s ∈ init, Lowering.Interior s) ∧
      Final last := by
  cases hroot : t.root with
  | leaf id i s =>
    by_cases hp : Lowering.pairsFrom 0 (net.factor i).labels = []
    · refine ⟨[], _, steps_lower_read hroot hp, fun s hs => ?_, ⟨rfl, rfl, rfl⟩⟩
      exact absurd hs List.not_mem_nil
    · refine ⟨[], _, steps_lower_trace hroot hp, fun s hs => ?_, ⟨rfl, rfl, rfl⟩⟩
      exact absurd hs List.not_mem_nil
  | join id l r cs c s =>
    refine ⟨_, _, steps_lower_join hroot, fun s hs => ?_, rfl, rfl, rfl⟩
    rcases List.mem_append.1 hs with hs | hs
    · exact Lowering.interior_lowerNode net l s hs
    · exact Lowering.interior_lowerNode net r s hs

theorem exists_steps_of_create {ids ids' : PlanIds} {net : Network} {config : PlanConfig}
    {p : Plan} (h : create ids net config = .ok (p, ids')) :
    ∃ init last, p.steps = init ++ [last] ∧ (∀ s ∈ init, Lowering.Interior s) ∧ Final last := by
  obtain ⟨-, -, hl⟩ := create_eq h
  have hsteps : p.steps = (p.tree.lower p.network).1 := by rw [← hl]
  rw [hsteps]
  exact exists_steps_lower p.network p.tree

/-- **The ways a plan ends**: its only factor is traced or copied, or the results of the two sides
of its root are contracted. -/
inductive Ends (p : Plan) (init : List Instruction) (last : Instruction) : Prop
  | trace {id i : Nat} {s : LabelSet} (root : p.tree.root = .leaf id i s)
      (valid : i < p.network.numFactors) (init : init = []) (dst : last.dst = .destination)
      (action : last.action = .trace ⟨.input i, (p.network.factor i).conj⟩
          (Lowering.pairsFrom 0 (p.network.factor i).labels) ∨
        last.action = .copy ⟨.input i, (p.network.factor i).conj⟩ ∧
          Lowering.pairsFrom 0 (p.network.factor i).labels = [])
      (perm : last.perm = Lowering.tracePerm (p.network.factor i) i p.network.output)
  | contract {id : Nat} {l r : TreeNode} {cs : List Label} {c : Cost} {s : LabelSet}
      {costs : List Cost} (root : p.tree.root = .join id l r cs c s)
      (joined : Lowering.Joined p.network costs p.temporaries l r)
      (sides : Lowering.Sides p.network p.temporaries l.factors r.factors
        (Lowering.lowerNode p.network false l).result (Lowering.lowerNode p.network false r).result
        cs)
      (init : init = (Lowering.lowerNode p.network false l).steps ++
        (Lowering.lowerNode p.network false r).steps)
      (dst : last.dst = .destination)
      (action : last.action = .contract (Lowering.lowerNode p.network false l).result.source
        (Lowering.lowerNode p.network false r).result.source
        (Lowering.positions cs (Lowering.lowerNode p.network false l).result.labels)
        (Lowering.positions cs (Lowering.lowerNode p.network false r).result.labels))
      (perm : last.perm = Lowering.positions p.network.output ((Lowering.joinAxes
        (Lowering.lowerNode p.network false l).result
        (Lowering.lowerNode p.network false r).result cs).map (·.1)))

theorem Proper.mem_factors {p : Plan} (h : p.Proper) {i : Nat} (hi : i < p.network.numFactors) :
    i ∈ p.tree.root.factors := by
  obtain ⟨costs, htree⟩ := h.tree
  exact htree.factors.mem_iff.2 (List.mem_range.2 hi)

theorem Proper.ends {p : Plan} (h : p.Proper) {init : List Instruction} {last : Instruction}
    (hs : p.steps = init ++ [last]) : p.Ends init last := by
  obtain ⟨costs, htree⟩ := h.tree
  have hlow : p.steps = (p.tree.lower p.network).1 := by rw [← h.lowered]
  have hbuilt := htree.built
  have hn := htree.factors.nodup_iff.2 List.nodup_range
  have hids := htree.nodup
  have htemps := h.temporaries
  rw [hlow] at hs
  cases hroot : p.tree.root with
  | leaf id i s =>
    rw [hroot] at hbuilt
    obtain ⟨hi⟩ := hbuilt
    by_cases hp : Lowering.pairsFrom 0 (p.network.factor i).labels = []
    · rw [steps_lower_read hroot hp, copyOut_eq hp] at hs
      obtain ⟨rfl, hlast⟩ := List.append_inj' (show [] ++ [_] = init ++ [_] from hs) rfl
      obtain rfl := (List.cons.inj hlast).1
      exact .trace hroot hi rfl rfl (.inr ⟨rfl, hp⟩) rfl
    · rw [steps_lower_trace hroot hp, Lowering.traceInput_eq] at hs
      obtain ⟨rfl, hlast⟩ := List.append_inj' (show [] ++ [_] = init ++ [_] from hs) rfl
      obtain rfl := (List.cons.inj hlast).1
      exact .trace hroot hi rfl rfl (.inl rfl) rfl
  | join id l r cs c s =>
    rw [hroot] at hbuilt hn hids htemps
    cases hbuilt with
    | join hl hr hc =>
      rw [TreeNode.ids_join] at hids
      have hjoined : Lowering.Joined p.network costs p.temporaries l r :=
        Lowering.joined_of_nodup hl hr hn (List.nodup_append.1 hids).1 fun t ht =>
          htemps ▸ List.mem_append_left _ ht
      rw [steps_lower_join hroot, Lowering.joinResults_eq] at hs
      obtain ⟨rfl, hlast⟩ := List.append_inj' hs rfl
      obtain rfl := (List.cons.inj hlast).1
      exact .contract hroot hjoined (hjoined.sides h.network) rfl rfl rfl rfl

/-! ### The product of three matrices -/

/-- Settings that take three matrices from left to right. -/
def chainConfig : PlanConfig where
  strategy := .leftToRight
  costModel := some (.ofExtents [(.int 1, 3), (.int 2, 5)])
  conjugate := true

/-- A plan for the product of three matrices. -/
def chain : Plan := ((create {} .chain chainConfig).toOption.map (·.1)).getD default

theorem create_chain : create {} .chain chainConfig = .ok (chain, ⟨2⟩) := by cbv

end Plan

end TensorNet
