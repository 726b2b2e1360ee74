import TensorNet.Proofs.Plan.Steps

/-!
# Steps that use every value once

The steps of a tree read each factor once and each temporary once, and nothing else. Every step but
the last writes a temporary of its own, in the order in which the temporaries are listed, and the
last step writes the destination.

## Why one reading each

The steps of a subtree leave one value unread, which is the result of the subtree: what they read,
together with the result, are the factors and the temporaries of the subtree. A join reads the
results of its two sides and leaves its own, and the last step of a plan leaves nothing.
-/

namespace TensorNet

namespace Action

/-- What is read, each operand as it is or conjugated. -/
def readings {ρ : Type} : Action ρ → List (Reading ρ)
  | copy src => [src]
  | trace src _ => [src]
  | contract a b _ _ => [a, b]

theorem map_readings {ρ : Type} (a : Action ρ) : a.readings.map (·.operand) = a.operands := by
  cases a <;> rfl

end Action

/-- What some steps read, in the order of reading. -/
def readBy (steps : List Instruction) : List (Reading Operand) :=
  steps.flatMap fun s => s.action.readings

/-- The reading of a factor, which is conjugated if the network says so. -/
def Network.inputReading (net : Network) (i : Nat) : Reading Operand :=
  ⟨.input i, (net.factor i).conj⟩

/-- The reading of a temporary, which is never conjugated. -/
def TemporarySpec.reading (t : TemporarySpec) : Reading Operand := ⟨.temporary t.slot, false⟩

/-- What a step writes, with the scalars of the result and of the old contents. -/
def Instruction.target (s : Instruction) : Operand × Scale × Scale := (s.dst, s.alpha, s.beta)

/-- The target of the step that writes a temporary. -/
def TemporarySpec.target (t : TemporarySpec) : Operand × Scale × Scale :=
  (.temporary t.slot, .one, .zero)

/-- A label of the factor is summed within the factor itself. -/
def Network.traces (net : Network) (i : Nat) : Bool :=
  (List.range net.numLabels).any fun id =>
    net.isTraced id && decide (net.label id ∈ (net.factor i).labels)

/-- Every temporary that is read was written by an earlier step. -/
def WrittenFirst (steps : List Instruction) : Prop :=
  ∀ pre s post, steps = pre ++ s :: post →
    ∀ slot, .temporary slot ∈ s.sources → ∃ w ∈ pre, w.dst = .temporary slot

/-- **Steps that use every value once.** -/
structure Linear (net : Network) (steps : List Instruction) (temporaries : List TemporarySpec) :
    Prop where
  /-- Every factor and every temporary is read once, and nothing else is read. -/
  reads : (readBy steps).Perm ((List.range net.numFactors).map net.inputReading ++
    temporaries.map TemporarySpec.reading)
  /-- The temporaries are written in the order of their list, with one and zero, and then the
  destination is written with the scalars of the caller. -/
  writes : steps.map Instruction.target = temporaries.map TemporarySpec.target ++
    [(.destination, .callerAlpha, .callerBeta)]
  slots : (temporaries.map (·.slot)).Nodup
  order : WrittenFirst steps
  /-- There is a step for each join and for each factor with a traced label, and one that copies a
  single factor without a traced label. -/
  count : steps.length = (net.numFactors - 1) + (List.range net.numFactors).countP net.traces +
    if net.numFactors = 1 ∧ net.traces 0 = false then 1 else 0

/-- What is read, without the conjugations. The destination is not read. -/
theorem Linear.perm_sources {net : Network} {steps : List Instruction} {ts : List TemporarySpec}
    (h : Linear net steps ts) : (steps.flatMap Instruction.sources).Perm
      ((List.range net.numFactors).map .input ++ ts.map fun t => .temporary t.slot) := by
  have hreads := h.reads.map Reading.operand
  rw [readBy, List.map_flatMap, List.map_append, List.map_map, List.map_map] at hreads
  have hsources : steps.flatMap Instruction.sources =
      steps.flatMap fun s => s.action.readings.map Reading.operand := by
    refine List.flatMap_congr fun s _ => ?_
    rw [Action.map_readings, Instruction.sources]
  rw [hsources]
  exact hreads

namespace WrittenFirst

variable {xs ys : List Instruction}

theorem nil : WrittenFirst [] := fun _ _ _ h => nomatch List.append_eq_nil_iff.1 h.symm

theorem append (hx : WrittenFirst xs)
    (hy : WrittenFirst ys) : WrittenFirst (xs ++ ys) := by
  intro pre s post h slot hs
  rcases List.append_eq_append_iff.1 h with ⟨as, rfl, hys⟩ | ⟨bs, hxs, hbs⟩
  · obtain ⟨w, hw, hd⟩ := hy as s post hys slot hs
    exact ⟨w, List.mem_append_right _ hw, hd⟩
  · cases bs with
    | nil =>
      rw [List.append_nil] at hxs
      obtain ⟨w, hw, -⟩ := hy [] s post hbs.symm slot hs
      cases hw
    | cons b bs =>
      obtain ⟨rfl, -⟩ := List.cons.inj hbs
      exact hx pre s bs hxs slot hs

/-- A step at the end, which reads what is written by then. -/
theorem concat {s : Instruction} (hx : WrittenFirst xs)
    (hs : ∀ slot, .temporary slot ∈ s.sources → ∃ w ∈ xs, w.dst = .temporary slot) :
    WrittenFirst (xs ++ [s]) := by
  intro pre s' post h slot hm
  rcases List.eq_nil_or_concat post with rfl | ⟨post, last, rfl⟩
  · obtain ⟨rfl, hlast⟩ := List.append_inj' h rfl
    obtain rfl := (List.cons.inj hlast).1
    exact hs slot hm
  · rw [List.concat_eq_append, ← List.cons_append, ← List.append_assoc] at h
    exact hx pre s' post (List.append_inj' h rfl).1 slot hm

end WrittenFirst

namespace Lowering

variable {net : Network} {id i : Nat} {isRoot : Bool} {action : Action Operand} {perm : List Nat}
  {labels : List Label} {extents : List (Nat × Nat)}

/-! ### What is read -/

theorem readBy_append (xs ys : List Instruction) : readBy (xs ++ ys) = readBy xs ++ readBy ys :=
  List.flatMap_append

theorem readBy_emit :
    readBy (emit id isRoot action perm labels extents).steps = action.readings := by
  cases isRoot <;> exact List.append_nil _

/-- The steps of a join: those of both sides, and the contraction of their results. -/
theorem readBy_join {l r : TreeNode} {cs : List Label} {c : Cost} {s : LabelSet} :
    (readBy (lowerNode net isRoot (.join id l r cs c s)).steps).Perm
      ((readBy (lowerNode net false l).steps ++ [(lowerNode net false l).result.source]) ++
        (readBy (lowerNode net false r).steps ++ [(lowerNode net false r).result.source])) := by
  rw [lowerNode, readBy_append, readBy_append, joinResults_eq, readBy_emit, Action.readings]
  generalize readBy (lowerNode net false l).steps = xs
  generalize readBy (lowerNode net false r).steps = ys
  generalize (lowerNode net false l).result.source = a
  generalize (lowerNode net false r).result.source = b
  rw [List.append_assoc, List.append_assoc]
  exact (List.perm_append_comm_assoc ys [a] [b]).append_left xs

/-- What is read below a node, with the results of its two sides. -/
theorem perm_sides {fl fr tl tr xs ys : List (Reading Operand)} (hl : xs.Perm (fl ++ tl))
    (hr : ys.Perm (fr ++ tr)) : (xs ++ ys).Perm (fl ++ fr ++ (tl ++ tr)) := by
  refine (hl.append hr).trans ?_
  simp only [List.append_assoc]
  exact (List.perm_append_comm_assoc _ _ _).append_left _

/-- **The steps of a subtree leave its result unread**, and read all its other values once. -/
theorem perm_readBy_lowerNode (net : Network) (t : TreeNode) :
    (readBy (lowerNode net false t).steps ++ [(lowerNode net false t).result.source]).Perm
      (t.factors.map net.inputReading ++
        (lowerNode net false t).temporaries.map TemporarySpec.reading) := by
  induction t with
  | leaf id i s =>
    by_cases hp : pairsFrom 0 (net.factor i).labels = []
    · rw [Plan.lowerNode_read hp]
      exact List.Perm.refl _
    · rw [Plan.lowerNode_trace hp]
      exact List.Perm.refl _
  | join id l r cs c s ihl ihr =>
    refine ((readBy_join.trans (perm_sides ihl ihr)).append_right _).trans ?_
    rw [lowerNode, joinResults_eq, TreeNode.factors, List.map_append, List.map_append,
      List.map_append, List.append_assoc _ _ [_]]
    exact List.Perm.refl _

/-- **The steps of a whole tree leave nothing unread.** -/
theorem perm_readBy_lower (net : Network) (t : ContractionTree) :
    (readBy (t.lower net).1).Perm
      (t.root.factors.map net.inputReading ++ (t.lower net).2.map TemporarySpec.reading) := by
  rw [Plan.temporaries_lower]
  cases hroot : t.root with
  | leaf id i s =>
    by_cases hp : pairsFrom 0 (net.factor i).labels = []
    · rw [Plan.steps_lower_read hroot hp, Plan.lowerNode_read hp]
      exact List.Perm.refl _
    · rw [Plan.steps_lower_trace hroot hp, Plan.lowerNode_trace hp]
      exact List.Perm.refl _
  | join id l r cs c s =>
    have hsteps : (t.lower net).1 = (lowerNode net true (.join id l r cs c s)).steps := by
      rw [Plan.steps_lower_join hroot, lowerNode]
    refine hsteps ▸ (readBy_join.trans (perm_sides (perm_readBy_lowerNode net l)
      (perm_readBy_lowerNode net r))).trans ?_
    rw [lowerNode, joinResults_eq, TreeNode.factors, List.map_append, List.map_append,
      List.map_append]
    exact (List.append_nil _).symm ▸ List.Perm.refl _

/-! ### What is written -/

/-- The steps below the root write the temporaries, in the order of their list. -/
theorem map_target_lowerNode (net : Network) (t : TreeNode) :
    (lowerNode net false t).steps.map Instruction.target =
      (lowerNode net false t).temporaries.map TemporarySpec.target := by
  induction t with
  | leaf id i s =>
    by_cases hp : pairsFrom 0 (net.factor i).labels = []
    · rw [Plan.lowerNode_read hp]
      rfl
    · rw [Plan.lowerNode_trace hp]
      rfl
  | join id l r cs c s ihl ihr =>
    simp only [lowerNode, List.map_append, ihl, ihr]
    rfl

/-- **Temporaries are written first, and then the destination.** -/
theorem map_target_lower (net : Network) (t : ContractionTree) :
    (t.lower net).1.map Instruction.target = (t.lower net).2.map TemporarySpec.target ++
      [(.destination, .callerAlpha, .callerBeta)] := by
  rw [Plan.temporaries_lower]
  cases hroot : t.root with
  | leaf id i s =>
    by_cases hp : pairsFrom 0 (net.factor i).labels = []
    · rw [Plan.steps_lower_read hroot hp, Plan.lowerNode_read hp]
      rfl
    · rw [Plan.steps_lower_trace hroot hp, Plan.lowerNode_trace hp]
      rfl
  | join id l r cs c s =>
    rw [Plan.steps_lower_join hroot, List.map_append, List.map_append, map_target_lowerNode,
      map_target_lowerNode, lowerNode, joinResults_eq, List.map_append, List.map_append]
    exact congrArg (· ++ _) (List.append_nil _).symm

/-! ### What was written before -/

/-- A result below the root is an input, or the temporary that the last step wrote. -/
theorem exists_written (net : Network) (t : TreeNode) {slot : Nat}
    (h : (lowerNode net false t).result.source.operand = .temporary slot) :
    ∃ w ∈ (lowerNode net false t).steps, w.dst = .temporary slot := by
  cases t with
  | leaf id i s =>
    by_cases hp : pairsFrom 0 (net.factor i).labels = []
    · rw [Plan.lowerNode_read hp] at h
      cases h
    · rw [Plan.lowerNode_trace hp] at h ⊢
      exact ⟨_, List.mem_singleton_self _, h⟩
  | join id l r cs c s => exact ⟨_, List.mem_append_right _ (List.mem_singleton_self _), h⟩

/-- The steps of a join are in order if those of its sides are. -/
theorem writtenFirst_join {l r : TreeNode} {cs : List Label} (id : Nat) (isRoot : Bool)
    (hl : WrittenFirst (lowerNode net false l).steps)
    (hr : WrittenFirst (lowerNode net false r).steps) :
    WrittenFirst ((lowerNode net false l).steps ++ (lowerNode net false r).steps ++
      (joinResults net id (lowerNode net false l).result (lowerNode net false r).result cs
        isRoot).steps) := by
  obtain ⟨s, hs, hsources⟩ : ∃ s, (joinResults net id (lowerNode net false l).result
      (lowerNode net false r).result cs isRoot).steps = [s] ∧
      s.sources = [(lowerNode net false l).result.source.operand,
        (lowerNode net false r).result.source.operand] := by
    cases isRoot
    · exact ⟨_, rfl, rfl⟩
    · exact ⟨_, rfl, rfl⟩
  rw [hs]
  refine (hl.append hr).concat fun slot hm => ?_
  rw [hsources] at hm
  rcases List.mem_cons.1 hm with he | hm
  · obtain ⟨w, hw, hd⟩ := exists_written net l he.symm
    exact ⟨w, List.mem_append_left _ hw, hd⟩
  · obtain ⟨w, hw, hd⟩ := exists_written net r (List.mem_singleton.1 hm).symm
    exact ⟨w, List.mem_append_right _ hw, hd⟩

theorem writtenFirst_lowerNode (net : Network) (t : TreeNode) :
    WrittenFirst (lowerNode net false t).steps := by
  induction t with
  | leaf id i s =>
    by_cases hp : pairsFrom 0 (net.factor i).labels = []
    · rw [Plan.lowerNode_read hp]
      exact .nil
    · rw [Plan.lowerNode_trace hp]
      exact WrittenFirst.nil.concat fun slot hm => nomatch List.mem_singleton.1 hm
  | join id l r cs c s ihl ihr => exact writtenFirst_join id false ihl ihr

theorem writtenFirst_lower (net : Network) (t : ContractionTree) :
    WrittenFirst (t.lower net).1 := by
  cases hroot : t.root with
  | leaf id i s =>
    by_cases hp : pairsFrom 0 (net.factor i).labels = []
    · rw [Plan.steps_lower_read hroot hp]
      exact WrittenFirst.nil.concat fun slot hm => nomatch List.mem_singleton.1 hm
    · rw [Plan.steps_lower_trace hroot hp]
      exact WrittenFirst.nil.concat fun slot hm => nomatch List.mem_singleton.1 hm
  | join id l r cs c s =>
    rw [Plan.steps_lower_join hroot]
    exact writtenFirst_join id true (writtenFirst_lowerNode net l) (writtenFirst_lowerNode net r)

/-! ### How many steps there are -/

/-- The factors with a traced label are those that have pairs of axes to sum. -/
theorem traces_iff (hnet : net.Lawful) (hi : i < net.numFactors) :
    net.traces i = true ↔ pairsFrom 0 (net.factor i).labels ≠ [] := by
  rw [Network.traces, List.any_eq_true]
  constructor
  · rintro ⟨id, hid, h⟩ hnil
    obtain ⟨ht, hm⟩ := Bool.and_eq_true_iff.1 h
    have := (hnet.mem_tracedLabels hi (List.mem_range.1 hid) (of_decide_eq_true hm)).2 ht
    rw [tracedLabels, hnil] at this
    cases this
  · intro hne
    obtain ⟨q, hq⟩ := List.exists_mem_of_ne_nil _ hne
    have hlab := List.mem_map_of_mem (f := fun q => axisLabel (net.factor i).labels q.1) hq
    have hm := axisLabel_mem (axisLabel_of_mem_pairs hq).1
    obtain ⟨k, hk⟩ := List.mem_iff_getElem?.1 hm
    obtain ⟨id, hid, he⟩ := hnet.mem_labels_of_place (Network.mem_placesOf_iff.2 ⟨hi, hk⟩)
    rw [← he] at hm hlab
    exact ⟨id, List.mem_range.2 hid,
      Bool.and_eq_true_iff.2 ⟨(hnet.mem_tracedLabels hi hid hm).1 hlab, decide_eq_true hm⟩⟩

/-- Below the root there is a step for each join and for each factor with a traced label. -/
theorem length_steps_lowerNode (hnet : net.Lawful) {t : TreeNode}
    (ht : ∀ i ∈ t.factors, i < net.numFactors) :
    (lowerNode net false t).steps.length = t.numJoins + t.factors.countP net.traces := by
  induction t with
  | leaf id i s =>
    have htraces := traces_iff hnet (ht i (List.mem_singleton_self i))
    rw [TreeNode.numJoins, TreeNode.factors, List.countP_singleton]
    by_cases hp : pairsFrom 0 (net.factor i).labels = []
    · rw [Plan.lowerNode_read hp, if_neg fun h => htraces.1 h hp]
      rfl
    · rw [Plan.lowerNode_trace hp, if_pos (htraces.2 hp)]
      rfl
  | join id l r cs c s ihl ihr =>
    have hl := ihl fun i hi => ht i (List.mem_append_left _ hi)
    have hr := ihr fun i hi => ht i (List.mem_append_right _ hi)
    have hlast : (joinResults net id (lowerNode net false l).result
        (lowerNode net false r).result cs false).steps.length = 1 := rfl
    rw [lowerNode, TreeNode.numJoins, TreeNode.factors, List.countP_append]
    dsimp only
    rw [List.length_append, List.length_append, hl, hr, hlast]
    omega

/-- At the root, a single factor without a traced label is copied by a step of its own. -/
theorem length_steps_lower (hnet : net.Lawful) {t : ContractionTree}
    (ht : t.root.factors.Perm (List.range net.numFactors)) :
    (t.lower net).1.length =
      (net.numFactors - 1) + (List.range net.numFactors).countP net.traces +
        if net.numFactors = 1 ∧ net.traces 0 = false then 1 else 0 := by
  have hlt : ∀ i ∈ t.root.factors, i < net.numFactors := fun i hi =>
    List.mem_range.1 (ht.mem_iff.1 hi)
  have hlen := ht.length_eq
  have hjoins := t.root.numLeaves_eq
  rw [TreeNode.length_factors, List.length_range] at hlen
  rw [← ht.countP_eq]
  cases hroot : t.root with
  | leaf id i s =>
    rw [hroot] at hlt hlen
    have hn : net.numFactors = 1 := hlen.symm
    obtain rfl : i = 0 := Nat.lt_one_iff.1 (hn ▸ hlt i (List.mem_singleton_self i))
    have htraces := traces_iff hnet (hlt 0 (List.mem_singleton_self 0))
    rw [hn, TreeNode.factors, List.countP_singleton]
    by_cases hp : pairsFrom 0 (net.factor 0).labels = []
    · have hnot : net.traces 0 = false := Bool.eq_false_iff.2 fun h => htraces.1 h hp
      rw [Plan.steps_lower_read hroot hp, hnot]
      rfl
    · rw [Plan.steps_lower_trace hroot hp, htraces.2 hp]
      rfl
  | join id l r cs c s =>
    rw [hroot] at hlt hlen hjoins
    have hl := length_steps_lowerNode hnet fun i hi => hlt i (List.mem_append_left _ hi)
    have hr := length_steps_lowerNode hnet fun i hi => hlt i (List.mem_append_right _ hi)
    have hlast : (joinResults net id (lowerNode net false l).result
        (lowerNode net false r).result cs true).steps.length = 1 := rfl
    have hl1 := l.numLeaves_eq
    have hr1 := r.numLeaves_eq
    rw [Plan.steps_lower_join hroot, List.length_append, List.length_append, hl, hr, hlast,
      TreeNode.factors, List.countP_append]
    rw [TreeNode.numLeaves] at hlen
    rw [if_neg (by omega)]
    omega

end Lowering

namespace ContractionTree

variable {net : Network} {t : ContractionTree}

theorem Proper.linear {costs : List Cost} (h : t.Proper net costs) (hnet : net.Lawful) :
    Linear net (t.lower net).1 (t.lower net).2 where
  reads := (Lowering.perm_readBy_lower net t).trans ((h.factors.map _).append_right _)
  writes := Lowering.map_target_lower net t
  slots := by
    rw [Plan.temporaries_lower]
    exact h.nodup.sublist (Lowering.slots_lowerNode ..)
  order := Lowering.writtenFirst_lower net t
  count := Lowering.length_steps_lower hnet h.factors

/-- **The steps of a tree use every value once.** Each factor is read by one step, with the
conjugation that the network gives it, and each temporary is read by one step, as it is; nothing
else is read. Each temporary is written by one step, which comes before the step that reads it, and
the list of temporaries follows the order of writing. The last step writes the destination with the
scalars of the caller, and every other step writes a temporary with one and zero. -/
theorem lower_linear {factors : List Factor} {output : Option (List Label)}
    (hnet : Network.build factors output = .ok net) {model : CostModel}
    (ht : t.Chosen net model) : Linear net (t.lower net).1 (t.lower net).2 :=
  have hlaw := (Network.lawful_of_build hnet).1
  (ht.proper hlaw).linear hlaw

/-- Two factors of which the first is traced: the trace comes first and then the contraction. -/
theorem lower_linear_looped : ∃ t : ContractionTree, leftToRight .looped .standard = .ok t ∧
    Linear .looped (t.lower .looped).1 (t.lower .looped).2 := by
  obtain ⟨t, ht⟩ : ∃ t, leftToRight .looped .standard = .ok t := ⟨_, by cbv⟩
  exact ⟨t, ht, lower_linear Network.build_looped (.leftToRight ht)⟩

end ContractionTree

/-- **The steps of a plan that was made use every value once.** -/
theorem Plan.Proper.linear {p : Plan} (h : p.Proper) :
    Linear p.network p.steps p.temporaries := by
  obtain ⟨costs, htree⟩ := h.tree
  have hlin := htree.linear h.network
  rwa [← h.lowered] at hlin

end TensorNet
