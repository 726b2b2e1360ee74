import TensorNet.Proofs.Plan.Created
import TensorNet.Proofs.Tree.Value

/-!
# The steps of a plan

## 1. What a step does

A step traces or copies a factor, or it contracts the results of two subtrees. Its axes are axes of
its operands, and what it does not sum goes to the axes of the result, each of them once.

## 2. What all steps sum

The labels that the steps sum are the contracted labels of the network.

## 3. What is held

A step reads inputs, and temporaries that an earlier step has written and that no step has read
since.
-/

namespace TensorNet

/-! ### Axes of an action -/

namespace Action

variable {ρ : Type}

/-- The number of axes of an operand that are not listed. -/
def openCount (rank : Nat) (axes : List Nat) : Nat :=
  ((List.range rank).filter fun k => !axes.contains k).length

/-- The number of axes that the permutation of an action is over, if the operands have the given
ranks. -/
def freeAxes (rank : ρ → Nat) : Action ρ → Nat
  | copy src => rank src.operand
  | trace src _ => rank src.operand
  | contract a b axesA axesB => openCount (rank a.operand) axesA + openCount (rank b.operand) axesB

/-- **Every axis that an action names is there.** The permutation stays within the axes that it is
over, and what is summed are axes of the operands. -/
def InRange (rank : ρ → Nat) (perm : List Nat) (action : Action ρ) : Prop :=
  (∀ k ∈ perm, k < action.freeAxes rank) ∧
    match action with
    | copy _ => True
    | trace src pairs => ∀ p ∈ pairs, p.1 < rank src.operand ∧ p.2 < rank src.operand
    | contract a b axesA axesB =>
      (∀ k ∈ axesA, k < rank a.operand) ∧ ∀ k ∈ axesB, k < rank b.operand

/-- The summed axes are in pairs, and the permutation is as long as the list of the others. -/
def Complete (rank : ρ → Nat) (perm : List Nat) : Action ρ → Prop
  | copy src => perm.length = rank src.operand
  | trace src pairs => perm.length + 2 * pairs.length = rank src.operand
  | contract a b axesA axesB => axesA.length = axesB.length ∧
      perm.length = openCount (rank a.operand) axesA + openCount (rank b.operand) axesB

end Action

namespace Plan

open Lowering

variable {p : Plan} {s : Instruction} {rest : List (Label × (Nat × Nat))}

/-- The number of axes of an operand. -/
def rankOf (p : Plan) (o : Operand) : Nat := (p.labelsOf o).length

/-- The labels that a step sums. -/
def summedBy (p : Plan) (s : Instruction) : List Label :=
  match s.action with
  | .copy _ => []
  | .trace src pairs => pairs.map fun q => axisLabel (p.labelsOf src.operand) q.1
  | .contract a _ axesA _ => axesA.map (axisLabel (p.labelsOf a.operand))

/-! ### What a step does -/

/-- **What a step does**, and the axes that it leaves. -/
inductive Does (p : Plan) (s : Instruction) : List (Label × (Nat × Nat)) → Prop
  /-- A factor is traced, or it is copied when there is nothing to trace. -/
  | trace {i : Nat} (valid : i < p.network.numFactors)
      (action : s.action = .trace ⟨.input i, (p.network.factor i).conj⟩
          (pairsFrom 0 (p.network.factor i).labels) ∨
        s.action = .copy ⟨.input i, (p.network.factor i).conj⟩ ∧
          pairsFrom 0 (p.network.factor i).labels = [])
      (perm : s.perm = tracePerm (p.network.factor i) i (p.labelsOf s.dst)) :
      Does p s (traceAxes (p.network.factor i) i)
  /-- Two results are contracted, whose axes have the extents of axes of different factors. -/
  | contract {fs gs : List Nat} {a b : Located} {cs : List Label}
      (sides : Sides p.network p.temporaries fs gs a b cs) (left : ∀ e ∈ a.extents, e.1 ∈ fs)
      (right : ∀ e ∈ b.extents, e.1 ∈ gs)
      (action : s.action = .contract a.source b.source (positions cs a.labels)
        (positions cs b.labels))
      (perm : s.perm = positions (p.labelsOf s.dst) ((joinAxes a b cs).map (·.1))) :
      Does p s (joinAxes a b cs)

/-- **A step of a plan**, with the axes that it leaves. They go to the axes of the destination, and
a temporary has the extents noted for them. -/
structure StepOf (p : Plan) (s : Instruction) (rest : List (Label × (Nat × Nat))) : Prop where
  does : p.Does s rest
  axes : ∃ fs, AxesOf p.network fs rest
  labels : (p.labelsOf s.dst).Perm (rest.map (·.1))
  extents : ∀ slot, s.dst = .temporary slot → ∃ t, p.temporary? slot = some t ∧ t.extents =
    (positions (p.labelsOf s.dst) (rest.map (·.1))).map fun k => (rest.getD k default).2

/-- The labels of a result are those of its operand. -/
theorem Proper.labelsOf_stored (hp : p.Proper) {v : Located}
    (hv : Stored p.network p.temporaries v) : p.labelsOf v.source.operand = v.labels := by
  cases hv with
  | input hi => rfl
  | temporary hm =>
    simp only [labelsOf, hp.temporary? hm, Option.map_some, Option.getD_some]

theorem length_openAxes (v : Located) (axes : List Nat) (h : v.labels.length = v.extents.length) :
    (openAxes v axes).length = Action.openCount v.labels.length axes := by
  rw [openAxes_eq v axes h, List.length_map]
  rfl

theorem StepOf.length_perm (hs : p.StepOf s rest) : s.perm.length = p.rankOf s.dst := by
  have hmem : ∀ l ∈ p.labelsOf s.dst, l ∈ rest.map (·.1) := fun l hl => hs.labels.mem_iff.1 hl
  have hlen := length_positions hmem
  cases hs.does with
  | trace valid action perm => rw [perm, tracePerm, List.length_map, hlen, rankOf]
  | contract sides left right action perm => rw [perm, hlen, rankOf]

/-- **The axes of a step are there.** -/
theorem StepOf.inRange (hp : p.Proper) (hs : p.StepOf s rest) :
    s.action.InRange p.rankOf s.perm := by
  obtain ⟨fs, haxes⟩ := hs.axes
  have hlabels := hs.labels
  cases hs.does with
  | @trace i valid action perm =>
    have hlt := lt_of_mem_tracePerm haxes.nodup hlabels
    rw [perm]
    rcases action with ha | ⟨ha, -⟩ <;> rw [ha]
    · exact ⟨hlt, fun q hq => ⟨(axisLabel_of_mem_pairs hq).1, (axisLabel_of_mem_pairs hq).2.1⟩⟩
    · exact ⟨hlt, trivial⟩
  | @contract fs gs a b cs sides left right action perm =>
    have ha := hp.labelsOf_stored sides.storedLeft
    have hb := hp.labelsOf_stored sides.storedRight
    rw [perm, action]
    refine ⟨fun k hk => ?_, fun k hk => ?_, fun k hk => ?_⟩
    · have hlt := lt_of_mem_positions hk
      rw [List.length_map, joinAxes, List.length_append, length_openAxes a _ sides.left.length,
        length_openAxes b _ sides.right.length] at hlt
      simp only [Action.freeAxes, rankOf, ha, hb]
      exact hlt
    · rw [rankOf, ha]
      exact lt_of_mem_positions hk
    · rw [rankOf, hb]
      exact lt_of_mem_positions hk

/-- **No axis of a step is left out.** -/
theorem StepOf.complete (hp : p.Proper) (hs : p.StepOf s rest) :
    s.action.Complete p.rankOf s.perm := by
  obtain ⟨fs, haxes⟩ := hs.axes
  have hlabels := hs.labels
  cases hs.does with
  | @trace i valid action perm =>
    have hlen := length_tracePerm (hp.network.count_le_two i) haxes.nodup hlabels
    rw [← perm] at hlen
    rcases action with ha | ⟨ha, hnil⟩ <;> rw [ha]
    · exact hlen
    · rw [hnil] at hlen
      exact hlen
  | @contract fs gs a b cs sides left right action perm =>
    have ha := hp.labelsOf_stored sides.storedLeft
    have hb := hp.labelsOf_stored sides.storedRight
    rw [action]
    constructor
    · rw [length_positions fun l hl => ((sides.common.mem l).1 hl).1,
        length_positions fun l hl => ((sides.common.mem l).1 hl).2]
    · rw [perm, length_positions fun l hl => hlabels.mem_iff.1 hl, hlabels.length_eq,
        List.length_map, joinAxes, List.length_append, length_openAxes a _ sides.left.length,
        length_openAxes b _ sides.right.length, rankOf, rankOf, ha, hb]

theorem summedBy_trace {i : Nat} (action : s.action = .trace ⟨.input i, (p.network.factor i).conj⟩
        (pairsFrom 0 (p.network.factor i).labels) ∨
      s.action = .copy ⟨.input i, (p.network.factor i).conj⟩ ∧
        pairsFrom 0 (p.network.factor i).labels = []) :
    p.summedBy s = tracedLabels (p.network.factor i).labels := by
  rcases action with ha | ⟨ha, hnil⟩
  · rw [summedBy, ha]
    rfl
  · rw [summedBy, ha, tracedLabels, hnil]
    rfl

theorem Proper.summedBy_contract (hp : p.Proper) {fs gs : List Nat} {a b : Located}
    {cs : List Label} (sides : Sides p.network p.temporaries fs gs a b cs)
    (action : s.action = .contract a.source b.source (positions cs a.labels)
      (positions cs b.labels)) : p.summedBy s = cs := by
  rw [summedBy, action]
  dsimp only
  rw [hp.labelsOf_stored sides.storedLeft]
  exact map_axisLabel_positions fun l hl => ((sides.common.mem l).1 hl).1

/-! ### All steps -/

theorem mem_openAxes {v : Located} {axes : List Nat} {r : Label × (Nat × Nat)}
    (h : r ∈ openAxes v axes) : r.2 ∈ v.extents := by
  obtain ⟨t, ht, rfl⟩ := List.mem_map.1 h
  have hm := List.fst_mem_of_mem_zipIdx (List.mem_filter.1 ht).1
  exact (List.of_mem_zip (a := t.1.1) (b := t.1.2) hm).2

/-- **The extents noted for a result** are those of axes of its factors. -/
theorem factors_of_extents (net : Network) (t : TreeNode) :
    ∀ e ∈ (lowerNode net false t).result.extents, e.1 ∈ t.factors := by
  induction t with
  | leaf id i s =>
    rw [lowerNode, lowerLeaf]
    split
    · intro e he
      obtain ⟨k, -, rfl⟩ := List.mem_map.1 he
      exact List.mem_singleton_self i
    · intro e he
      obtain ⟨k, -, rfl⟩ := List.mem_map.1 he
      exact List.mem_singleton_self i
  | join id l r cs c s ihl ihr =>
    intro e he
    rw [lowerNode] at he
    obtain ⟨k, hk, rfl⟩ := List.mem_map.1 he
    have hlt := lt_of_mem_positions hk
    rw [List.length_map] at hlt
    rw [List.getD_eq_getElem?_getD, List.getElem?_eq_getElem hlt, Option.getD_some]
    rcases List.mem_append.1 (List.getElem_mem hlt) with hm | hm
    · exact List.mem_append_left _ (ihl _ (mem_openAxes hm))
    · exact List.mem_append_right _ (ihr _ (mem_openAxes hm))

/-- A step that writes the axes that it leaves to a temporary, as they come. -/
theorem Proper.stepOf_temporary (hp : p.Proper) {slot : Nat} (hdst : s.dst = .temporary slot)
    (hmem : ⟨slot, rest.map (·.1), (positions (rest.map (·.1)) (rest.map (·.1))).map fun k =>
      (rest.getD k default).2⟩ ∈ p.temporaries) {fs : List Nat} (haxes : AxesOf p.network fs rest)
    (hdoes : p.labelsOf s.dst = rest.map (·.1) → p.Does s rest) : p.StepOf s rest := by
  have ht := hp.temporary? hmem
  have hlabels : p.labelsOf s.dst = rest.map (·.1) := by
    simp only [hdst, labelsOf, ht, Option.map_some, Option.getD_some]
  refine ⟨hdoes hlabels, ⟨fs, haxes⟩, hlabels ▸ List.Perm.refl _, fun slot' h' => ?_⟩
  rw [hdst] at h'
  cases h'
  exact ⟨_, ht, by rw [hlabels]⟩

/-- The steps of a subtree are steps of the plan, and they sum the labels of the subtree. -/
structure Lowers (p : Plan) (t : TreeNode) : Prop where
  steps : ∀ s ∈ (lowerNode p.network false t).steps, ∃ rest, p.StepOf s rest
  summed : ∀ l, l ∈ (lowerNode p.network false t).steps.flatMap p.summedBy ↔
    l ∈ t.summed p.network

theorem lowerNode_read {net : Network} {id i : Nat} {s : LabelSet} {isRoot : Bool}
    (h : pairsFrom 0 (net.factor i).labels = []) :
    lowerNode net isRoot (.leaf id i s) = readInput (net.factor i) i := by
  rw [lowerNode, lowerLeaf, h]

theorem lowerNode_trace {net : Network} {id i : Nat} {s : LabelSet} {isRoot : Bool}
    (h : pairsFrom 0 (net.factor i).labels ≠ []) : lowerNode net isRoot (.leaf id i s) =
      traceInput net (net.factor i) i id isRoot (pairsFrom 0 (net.factor i).labels) := by
  rw [lowerNode, lowerLeaf]
  split
  · next hnil => exact absurd hnil h
  · rfl

theorem Proper.lowers_leaf (hp : p.Proper) {costs : List Cost} {id i : Nat} {s : LabelSet}
    (ht : Listed p.network costs p.temporaries (.leaf id i s)) : p.Lowers (.leaf id i s) := by
  have hsub := ht.temporaries
  have hi : i < p.network.numFactors := ht.built.factors_lt i (List.mem_singleton_self i)
  by_cases hpairs : pairsFrom 0 (p.network.factor i).labels = []
  · constructor
    · rw [lowerNode_read hpairs]
      exact fun s hs => nomatch hs
    · rw [lowerNode_read hpairs, TreeNode.summed, tracedLabels, hpairs]
      exact fun l => Iff.rfl
  · rw [lowerNode_trace hpairs, traceInput_eq] at hsub
    constructor
    · rw [lowerNode_trace hpairs, traceInput_eq]
      intro s hs
      rw [List.mem_singleton.1 hs]
      exact ⟨_, hp.stepOf_temporary rfl (hsub _ (List.mem_singleton_self _))
        (axesOf_traceAxes hp.network hi) fun hl => .trace hi (.inl rfl) (by rw [hl]; rfl)⟩
    · rw [lowerNode_trace hpairs, traceInput_eq]
      intro l
      show l ∈ p.summedBy _ ++ [] ↔ _
      rw [List.append_nil, summedBy_trace (.inl rfl), TreeNode.summed]

theorem Proper.lowers_join (hp : p.Proper) {costs : List Cost} {id : Nat} {l r : TreeNode}
    {c : Cost} {s : LabelSet} (ht : Listed p.network costs p.temporaries
      (.join id l r ((l.openSet.inter r.openSet).toList.map p.network.label) c s))
    (hl : p.Lowers l) (hr : p.Lowers r) :
    p.Lowers (.join id l r ((l.openSet.inter r.openSet).toList.map p.network.label) c s) := by
  have hsides := ht.joined.sides hp.network
  have hsub := ht.temporaries
  rw [lowerNode] at hsub
  simp only [joinResults_eq] at hsub
  have hmem := hsub _ (List.mem_append_right _ (List.mem_singleton_self _))
  constructor
  · intro s hs
    rw [lowerNode] at hs
    rcases List.mem_append.1 hs with hs | hs
    · exact (List.mem_append.1 hs).elim (hl.steps s) (hr.steps s)
    · rw [List.mem_singleton.1 hs]
      exact ⟨_, hp.stepOf_temporary rfl hmem (hsides.axes hp.network) fun h =>
        .contract hsides (factors_of_extents _ _) (factors_of_extents _ _) rfl (by rw [h]; rfl)⟩
  · intro lab
    rw [lowerNode, List.flatMap_append, List.flatMap_append, List.mem_append, List.mem_append,
      hl.summed, hr.summed, joinResults_eq, TreeNode.summed, List.mem_append, List.mem_append,
      or_comm]
    refine or_congr_left ?_
    show lab ∈ p.summedBy _ ++ [] ↔ _
    rw [List.append_nil, hp.summedBy_contract hsides rfl]

theorem Proper.lowers (hp : p.Proper) {costs : List Cost} {t : TreeNode}
    (ht : Listed p.network costs p.temporaries t) : p.Lowers t := by
  have hb := ht.built
  induction hb with
  | leaf hi => exact hp.lowers_leaf ht
  | join hl hr hc ihl ihr => exact hp.lowers_join ht (ihl ht.joined.left) (ihr ht.joined.right)

/-- **The last step** is a step of the plan. -/
theorem Proper.stepOf_last (hp : p.Proper) {init : List Instruction} {last : Instruction}
    (hs : p.steps = init ++ [last]) : ∃ rest, p.StepOf last rest := by
  have hall : ∀ i < p.network.numFactors, i ∈ p.tree.root.factors := fun i hi => hp.mem_factors hi
  have hlabels : last.dst = .destination → p.labelsOf last.dst = p.network.output := fun h => by
    rw [h, labelsOf]
  cases hp.ends hs with
  | trace root valid init dst action perm =>
    rw [root] at hall
    have haxes := axesOf_traceAxes hp.network valid
    exact ⟨_, .trace valid action (by rw [perm, hlabels dst]), ⟨_, haxes⟩,
      hlabels dst ▸ hp.network.perm_output hall haxes, fun slot h => by rw [dst] at h; cases h⟩
  | contract root joined sides init dst action perm =>
    rw [root] at hall
    have haxes := sides.axes hp.network
    exact ⟨_, .contract sides (factors_of_extents _ _) (factors_of_extents _ _) action
        (by rw [perm, hlabels dst]), ⟨_, haxes⟩, hlabels dst ▸ hp.network.perm_output hall haxes,
      fun slot h => by rw [dst] at h; cases h⟩

/-- The steps of a plan but the last write temporaries. -/
theorem Proper.exists_steps (hp : p.Proper) : ∃ init last, p.steps = init ++ [last] ∧
    (∀ s ∈ init, Interior s) ∧ Final last := by
  have hsteps : p.steps = (p.tree.lower p.network).1 := by rw [← hp.lowered]
  rw [hsteps]
  exact exists_steps_lower p.network p.tree

/-- A step of a plan writes a temporary or the destination. -/
theorem Proper.dst_cases (hp : p.Proper) (h : s ∈ p.steps) :
    (∃ slot, s.dst = .temporary slot) ∨ s.dst = .destination := by
  obtain ⟨init, last, hs, hinit, hlast⟩ := hp.exists_steps
  rw [hs] at h
  rcases List.mem_append.1 h with h | h
  · exact .inl (hinit s h).dst
  · exact .inr (List.mem_singleton.1 h ▸ hlast.dst)

/-- **Every step of a plan** traces or copies a factor, or contracts the results of two subtrees. -/
theorem Proper.stepOf (hp : p.Proper) (h : s ∈ p.steps) : ∃ rest, p.StepOf s rest := by
  obtain ⟨init, last, hs, -⟩ := hp.exists_steps
  rw [hs] at h
  rcases List.mem_append.1 h with h | h
  · cases hp.ends hs with
    | trace root valid init =>
      rw [init] at h
      cases h
    | contract root joined sides init =>
      rw [init] at h
      exact (List.mem_append.1 h).elim ((hp.lowers joined.left).steps s)
        ((hp.lowers joined.right).steps s)
  · rw [List.mem_singleton.1 h]
    exact hp.stepOf_last hs

/-- **The steps sum the labels that occur twice**, and no others. -/
theorem Proper.mem_summedBy (hp : p.Proper) {l : Label} :
    l ∈ p.steps.flatMap p.summedBy ↔ (p.network.placesOf l).length = 2 := by
  obtain ⟨init, last, hs, -⟩ := hp.exists_steps
  obtain ⟨costs, htree⟩ := hp.tree
  have hn := htree.factors.nodup_iff.2 List.nodup_range
  have hsummed : l ∈ p.steps.flatMap p.summedBy ↔ l ∈ p.tree.root.summed p.network := by
    rw [hs, List.flatMap_append, List.flatMap_cons, List.flatMap_nil, List.append_nil]
    cases hp.ends hs with
    | trace root valid init dst action perm =>
      rw [init, root, List.flatMap_nil, List.nil_append, summedBy_trace action, TreeNode.summed]
    | contract root joined sides init dst action perm =>
      rw [init, root, List.flatMap_append, List.mem_append, List.mem_append,
        (hp.lowers joined.left).summed, (hp.lowers joined.right).summed,
        hp.summedBy_contract sides action, TreeNode.summed, List.mem_append, List.mem_append,
        or_comm]
  rw [hsummed, (TreeNode.summed_spec hp.network htree.built hn).2,
    Network.timesIn_all fun i hi => hp.mem_factors hi]

/-! ### What is held -/

/-- What can be read while some temporaries are held. -/
def Readable (p : Plan) (held : Set Nat) : Operand → Prop
  | .input i => i < p.network.numFactors
  | .temporary slot => slot ∈ held
  | .destination => False

/-- The temporaries that are held after a step. What it reads is given back. -/
def heldAfter (held : Set Nat) (s : Instruction) : Set Nat :=
  {slot | (slot ∈ held ∨ s.dst = .temporary slot) ∧ .temporary slot ∉ s.sources}

/-- **Each step reads what is there**: inputs, and what was written and not yet read. -/
def Supplied (p : Plan) : Set Nat → List Instruction → Prop
  | _, [] => True
  | held, s :: ss => (∀ o ∈ s.sources, p.Readable held o) ∧ Supplied p (heldAfter held s) ss

variable {held : Set Nat}

theorem supplied_append {ss ss' : List Instruction} : p.Supplied held (ss ++ ss') ↔
    p.Supplied held ss ∧ p.Supplied (ss.foldl heldAfter held) ss' := by
  induction ss generalizing held with
  | nil => exact (and_iff_right trivial).symm
  | cons s ss ih => rw [List.cons_append, Supplied, Supplied, ih, and_assoc, List.foldl_cons]

theorem Readable.mono {held' : Set Nat} {o : Operand} (h : p.Readable held o)
    (hs : ∀ slot, o = .temporary slot → slot ∈ held → slot ∈ held') : p.Readable held' o := by
  cases o with
  | input i => exact h
  | temporary slot => exact hs slot rfl h
  | destination => exact h

/-- The steps of a subtree read what is there, and leave its result to be read. What is held for
other nodes stays. -/
structure Supplies (p : Plan) (t : TreeNode) (held : Set Nat) : Prop where
  supplied : p.Supplied held (lowerNode p.network false t).steps
  result : p.Readable ((lowerNode p.network false t).steps.foldl heldAfter held)
    (lowerNode p.network false t).result.source.operand
  others : ∀ slot ∈ held, slot ∉ t.ids →
    slot ∈ (lowerNode p.network false t).steps.foldl heldAfter held

/-- Two subtrees, one after the other. -/
theorem Supplies.sides {costs : List Cost} {l r : TreeNode} (hp : p.Proper)
    (hj : Joined p.network costs p.temporaries l r) (hl : ∀ held, p.Supplies l held)
    (hr : ∀ held, p.Supplies r held) (held : Set Nat) :
    let steps := (lowerNode p.network false l).steps ++ (lowerNode p.network false r).steps
    p.Supplied held steps ∧
      p.Readable (steps.foldl heldAfter held)
        (lowerNode p.network false l).result.source.operand ∧
      p.Readable (steps.foldl heldAfter held)
        (lowerNode p.network false r).result.source.operand ∧
      ∀ slot ∈ held, slot ∉ l.ids → slot ∉ r.ids → slot ∈ steps.foldl heldAfter held := by
  obtain ⟨-, hstored⟩ := of_lowerNode hp.network hj.left.built hj.left.factors
  obtain ⟨hsl, hrl, hol⟩ := hl held
  obtain ⟨hsr, hrr, hor⟩ := hr ((lowerNode p.network false l).steps.foldl heldAfter held)
  intro steps
  rw [List.foldl_append]
  refine ⟨supplied_append.2 ⟨hsl, hsr⟩, hrl.mono fun slot ho hslot => ?_, hrr,
    fun slot hslot hnl hnr => hor slot (hol slot hslot hnl) hnr⟩
  exact hor slot hslot fun hm => hj.ids slot (mem_ids_of_stored hstored ho) slot hm rfl

theorem Proper.supplies (hp : p.Proper) {costs : List Cost} {t : TreeNode}
    (ht : Listed p.network costs p.temporaries t) (held : Set Nat) : p.Supplies t held := by
  have hb := ht.built
  induction hb generalizing held with
  | @leaf id i hi =>
    by_cases hpairs : pairsFrom 0 (p.network.factor i).labels = []
    · refine ⟨?_, ?_, ?_⟩ <;> rw [lowerNode_read hpairs]
      · trivial
      · exact hi
      · exact fun slot hslot _ => hslot
    · refine ⟨?_, ?_, ?_⟩ <;> rw [lowerNode_trace hpairs, traceInput_eq]
      · exact ⟨fun o ho => List.mem_singleton.1 ho ▸ hi, trivial⟩
      · exact ⟨.inr rfl, fun hm => nomatch List.mem_singleton.1 hm⟩
      · exact fun slot hslot _ => ⟨.inl hslot, fun hm => nomatch List.mem_singleton.1 hm⟩
  | @join id l r c hl hr hc ihl ihr =>
    have hj := ht.joined
    obtain ⟨-, hls⟩ := of_lowerNode hp.network hj.left.built hj.left.factors
    obtain ⟨-, hrs⟩ := of_lowerNode hp.network hj.right.built hj.right.factors
    have hids := ht.ids
    rw [TreeNode.ids_join, List.nodup_append] at hids
    obtain ⟨hsteps, hreadl, hreadr, hothers⟩ :=
      Supplies.sides hp hj (fun held => ihl hj.left held) (fun held => ihr hj.right held) held
    -- A join reads temporaries of nodes below it.
    have hslots : ∀ slot, .temporary slot ∈
        [(lowerNode p.network false l).result.source.operand,
          (lowerNode p.network false r).result.source.operand] → slot ∈ l.ids ++ r.ids := by
      intro slot hm
      rcases List.mem_cons.1 hm with he | hm
      · exact List.mem_append_left _ (mem_ids_of_stored hls he.symm)
      · exact List.mem_append_right _ (mem_ids_of_stored hrs (List.mem_singleton.1 hm).symm)
    refine ⟨?_, ?_, fun slot hslot hn => ?_⟩ <;> rw [lowerNode]
    · refine supplied_append.2 ⟨hsteps, fun o ho => ?_, trivial⟩
      rcases List.mem_cons.1 ho with rfl | ho
      · exact hreadl
      · exact List.mem_singleton.1 ho ▸ hreadr
    · rw [List.foldl_append]
      exact ⟨.inr rfl, fun hm => hids.2.2 id (hslots id hm) id (List.mem_singleton_self id) rfl⟩
    · rw [TreeNode.ids_join, List.mem_append, not_or, List.mem_append, not_or] at hn
      rw [List.foldl_append]
      exact ⟨.inl (hothers slot hslot hn.1.1 hn.1.2), fun hm =>
        (List.mem_append.1 (hslots slot hm)).elim hn.1.1 hn.1.2⟩

/-- **Every step of a plan reads what is there.** -/
theorem Proper.supplied (hp : p.Proper) : p.Supplied ∅ p.steps := by
  obtain ⟨init, last, hs, -⟩ := hp.exists_steps
  rw [hs]
  cases hp.ends hs with
  | trace root valid init dst action perm =>
    rw [init]
    refine ⟨fun o ho => ?_, trivial⟩
    rcases action with ha | ⟨ha, -⟩ <;>
    · rw [Instruction.sources, ha] at ho
      exact List.mem_singleton.1 ho ▸ valid
  | contract root joined sides init dst action perm =>
    obtain ⟨hsteps, hreadl, hreadr, -⟩ := Supplies.sides hp joined
      (hp.supplies joined.left) (hp.supplies joined.right) ∅
    rw [init]
    refine supplied_append.2 ⟨hsteps, fun o ho => ?_, trivial⟩
    rw [Instruction.sources, action] at ho
    rcases List.mem_cons.1 ho with rfl | ho
    · exact hreadl
    · exact List.mem_singleton.1 ho ▸ hreadr

end Plan

end TensorNet
