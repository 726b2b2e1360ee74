import TensorNet.Proofs.Plan.Linear

/-!
# The axes that steps name

The lowering finds axes by their labels, and a label that is not found is passed over. It never is:
the axes of a step and its permutation account for every axis of the operands and of the result.

* The permutation of a copy lists the axes of the source, and that of a trace lists those that no
  pair has.
* The paired axes of a trace carry one label, and so do those of a contraction, which are all axes
  with a label that both sides have.
* The permutation of a contraction lists the positions of the other axes.

Always the axis that the permutation picks for an axis of the destination carries its label. The
extents noted for a temporary are those of axes of factors with the labels of the temporary.
-/

namespace TensorNet

namespace Plan

open Lowering

variable {p : Plan} {s : Instruction} {rest : List (Label × (Nat × Nat))}

/-! ### What the axes of a step have to be -/

/-- The labels of the axes of an operand that are not listed. -/
def openLabels (p : Plan) (o : Operand) (axes : List Nat) : List Label :=
  (restAxes (p.labelsOf o) axes).map (axisLabel (p.labelsOf o))

/-- The labels of the axes that the permutation of an action is over. -/
def freeLabels (p : Plan) : Action Operand → List Label
  | .copy src => p.labelsOf src.operand
  | .trace src _ => p.labelsOf src.operand
  | .contract a b axesA axesB => p.openLabels a.operand axesA ++ p.openLabels b.operand axesB

/-- **Axes of two operands that are summed together**: they are there, none is listed twice, those
at one position carry one label, and every label that both operands have is met. -/
structure Paired (ls ms : List Label) (axesA axesB : List Nat) : Prop where
  length : axesA.length = axesB.length
  nodupA : axesA.Nodup
  nodupB : axesB.Nodup
  ltA : ∀ k ∈ axesA, k < ls.length
  ltB : ∀ k ∈ axesB, k < ms.length
  same : ∀ k (ha : k < axesA.length) (hb : k < axesB.length),
    axisLabel ls axesA[k] = axisLabel ms axesB[k]
  shared : ∀ l ∈ ls, l ∈ ms → l ∈ axesA.map (axisLabel ls) ∧ l ∈ axesB.map (axisLabel ms)

/-- **The axes of a step are right.** -/
structure MapsAxes (p : Plan) (s : Instruction) : Prop where
  /-- The permutation and the pairs of a trace list every axis once; where axes are contracted, the
  permutation lists every position of the others once. -/
  perm : match s.action with
    | .copy src => s.perm.Perm (List.range (p.rankOf src.operand))
    | .trace src pairs => (s.perm ++ pairAxes pairs).Perm (List.range (p.rankOf src.operand))
    | .contract a b axesA axesB => s.perm.Perm (List.range
        (Action.openCount (p.rankOf a.operand) axesA + Action.openCount (p.rankOf b.operand) axesB))
  summed : match s.action with
    | .copy _ => True
    | .trace src pairs => ∀ q ∈ pairs,
        axisLabel (p.labelsOf src.operand) q.1 = axisLabel (p.labelsOf src.operand) q.2
    | .contract a b axesA axesB =>
        Paired (p.labelsOf a.operand) (p.labelsOf b.operand) axesA axesB
  /-- Each axis of the destination carries the label of the axis that the permutation picks. -/
  labels : s.perm.map (axisLabel (p.freeLabels s.action)) = p.labelsOf s.dst

/-- **The extents noted for a temporary are right**: there is one for each of its labels, and it is
that of an axis of a factor with this label. -/
structure Noted (p : Plan) (t : TemporarySpec) : Prop where
  found : p.temporary? t.slot = some t
  length : t.extents.length = t.labels.length
  place : ∀ k (hk : k < t.labels.length) (he : k < t.extents.length),
    t.extents[k].1 < p.network.numFactors ∧
      (p.network.factor t.extents[k].1).labels[t.extents[k].2]? = some t.labels[k]

/-! ### Copies and traces -/

theorem mapsAxes_trace (hnet : p.network.Lawful) {i : Nat}
    (haxes : ((traceAxes (p.network.factor i) i).map (·.1)).Nodup)
    (hlabels : (p.labelsOf s.dst).Perm ((traceAxes (p.network.factor i) i).map (·.1)))
    (action : s.action = .trace ⟨.input i, (p.network.factor i).conj⟩
        (pairsFrom 0 (p.network.factor i).labels) ∨
      s.action = .copy ⟨.input i, (p.network.factor i).conj⟩ ∧
        pairsFrom 0 (p.network.factor i).labels = [])
    (perm : s.perm = tracePerm (p.network.factor i) i (p.labelsOf s.dst)) : p.MapsAxes s := by
  have hall : (s.perm ++ pairAxes (pairsFrom 0 (p.network.factor i).labels)).Perm
      (List.range (p.network.factor i).labels.length) := by
    rw [perm]
    exact ((perm_tracePerm haxes hlabels).append_right _).trans
      (perm_kept_pairs (hnet.count_le_two i))
  have hpick : s.perm.map (axisLabel (p.network.factor i).labels) = p.labelsOf s.dst := by
    rw [perm]
    exact tracePerm_eq fun l hl => hlabels.mem_iff.1 hl
  rcases action with ha | ⟨ha, hnil⟩
  · refine ⟨?_, ?_, ?_⟩ <;> rw [ha]
    · exact hall
    · intro q hq
      exact (axisLabel_of_mem_pairs hq).2.2.2.symm
    · exact hpick
  · rw [hnil, pairAxes, List.flatMap_nil, List.append_nil] at hall
    refine ⟨?_, ?_, ?_⟩ <;> rw [ha]
    · exact hall
    · trivial
    · exact hpick

/-! ### Contractions -/

/-- The labels that two results have in common are found on both. -/
theorem paired_of_sides {fs gs : List Nat} {a b : Located} {cs : List Label}
    (sides : Sides p.network p.temporaries fs gs a b cs) :
    Paired a.labels b.labels (positions cs a.labels) (positions cs b.labels) := by
  have hca : ∀ l ∈ cs, l ∈ a.labels := fun l hl => ((sides.common.mem l).1 hl).1
  have hcb : ∀ l ∈ cs, l ∈ b.labels := fun l hl => ((sides.common.mem l).1 hl).2
  refine ⟨by rw [length_positions hca, length_positions hcb],
    nodup_positions hca sides.common.nodup, nodup_positions hcb sides.common.nodup,
    fun k hk => lt_of_mem_positions hk, fun k hk => lt_of_mem_positions hk,
    fun k ha hb => ?_, fun l hla hlb => ?_⟩
  · have hq : ((positions cs a.labels)[k], (positions cs b.labels)[k]) ∈
        (positions cs a.labels).zip (positions cs b.labels) := by
      refine List.mem_of_getElem? (i := k) ?_
      rw [List.getElem?_zip_eq_some]
      exact ⟨List.getElem?_eq_getElem ha, List.getElem?_eq_getElem hb⟩
    exact (axisLabel_of_mem_paired sides hq).2.2
  · rw [map_axisLabel_positions hca, map_axisLabel_positions hcb]
    have hl := (sides.common.mem l).2 ⟨hla, hlb⟩
    exact ⟨hl, hl⟩

/-- The labels of the open axes of a result. -/
theorem openLabels_eq (hp : p.Proper) {v : Located} (hv : Stored p.network p.temporaries v)
    (hlen : v.labels.length = v.extents.length) (axes : List Nat) :
    p.openLabels v.source.operand axes = (openAxes v axes).map (·.1) := by
  rw [openLabels, hp.labelsOf_stored hv, openAxes_eq v axes hlen, List.map_map]
  rfl

theorem mapsAxes_contract (hp : p.Proper) {fs gs : List Nat} {a b : Located} {cs : List Label}
    (sides : Sides p.network p.temporaries fs gs a b cs)
    (hn : ((joinAxes a b cs).map (·.1)).Nodup)
    (hlabels : (p.labelsOf s.dst).Perm ((joinAxes a b cs).map (·.1)))
    (action : s.action = .contract a.source b.source (positions cs a.labels)
      (positions cs b.labels))
    (perm : s.perm = positions (p.labelsOf s.dst) ((joinAxes a b cs).map (·.1))) :
    p.MapsAxes s := by
  have ha := hp.labelsOf_stored sides.storedLeft
  have hb := hp.labelsOf_stored sides.storedRight
  have hfree : p.freeLabels s.action = (joinAxes a b cs).map (·.1) := by
    rw [action, freeLabels, openLabels_eq hp sides.storedLeft sides.left.length,
      openLabels_eq hp sides.storedRight sides.right.length, joinAxes, List.map_append]
  have hcount : ((joinAxes a b cs).map (·.1)).length =
      Action.openCount a.labels.length (positions cs a.labels) +
        Action.openCount b.labels.length (positions cs b.labels) := by
    rw [List.length_map, joinAxes, List.length_append, length_openAxes a _ sides.left.length,
      length_openAxes b _ sides.right.length]
  refine ⟨?_, ?_, ?_⟩
  · rw [action, perm]
    simp only [rankOf, ha, hb]
    rw [← hcount]
    exact perm_positions hn hlabels
  · rw [action]
    simp only [ha, hb]
    exact paired_of_sides sides
  · rw [hfree, perm]
    exact map_axisLabel_positions fun l hl => hlabels.mem_iff.1 hl

/-! ### Plans -/

/-- **Every step of a plan names the right axes.** -/
theorem Proper.mapsAxes (hp : p.Proper) (h : s ∈ p.steps) : p.MapsAxes s := by
  obtain ⟨rest, does, ⟨fs, haxes⟩, hlabels, -⟩ := hp.stepOf h
  cases does with
  | trace valid action perm => exact mapsAxes_trace hp.network haxes.nodup hlabels action perm
  | contract sides left right action perm =>
    exact mapsAxes_contract hp sides haxes.nodup hlabels action perm

/-- **Every temporary has the extents of its labels.** They are noted by the step that writes it. -/
theorem Proper.noted (hp : p.Proper) {t : TemporarySpec} (ht : t ∈ p.temporaries) :
    p.Noted t := by
  obtain ⟨s, hs, hdst⟩ : ∃ s ∈ p.steps, s.dst = .temporary t.slot := by
    have hm : t.target ∈ p.steps.map Instruction.target := by
      rw [hp.linear.writes]
      exact List.mem_append_left _ (List.mem_map_of_mem ht)
    obtain ⟨s, hs, he⟩ := List.mem_map.1 hm
    exact ⟨s, hs, congrArg Prod.fst he⟩
  have hfound := hp.temporary? ht
  obtain ⟨rest, -, ⟨fs, haxes⟩, hlabels, hextents⟩ := hp.stepOf hs
  obtain ⟨t', ht', hext⟩ := hextents t.slot hdst
  obtain rfl : t = t' := Option.some.inj (hfound.symm.trans ht')
  have hof : p.labelsOf s.dst = t.labels := by
    simp only [hdst, labelsOf, hfound, Option.map_some, Option.getD_some]
  rw [hof] at hlabels hext
  have hresult := of_positions haxes hlabels ⟨.temporary t.slot, false⟩
  rw [← hext] at hresult
  refine ⟨hfound, hresult.length.symm, fun k hk he => ?_⟩
  have hm : (t.labels[k], t.extents[k]) ∈ t.labels.zip t.extents := by
    refine List.mem_of_getElem? (i := k) ?_
    rw [List.getElem?_zip_eq_some]
    exact ⟨List.getElem?_eq_getElem hk, List.getElem?_eq_getElem he⟩
  exact Network.mem_placesOf_iff.1 (hresult.axes.places _ hm)

/-- **The axes of a plan are right**, in every step and for every temporary. -/
theorem axes_of_create {factors : List Factor} {output : Option (List Label)} {net : Network}
    (hnet : Network.build factors output = .ok net) {ids ids' : PlanIds} {config : PlanConfig}
    (h : create ids net config = .ok (p, ids')) :
    (∀ s ∈ p.steps, p.MapsAxes s) ∧ ∀ t ∈ p.temporaries, p.Noted t := by
  have hp := proper_of_create (Network.lawful_of_build hnet).1 h
  exact ⟨fun s hs => hp.mapsAxes hs, fun t ht => hp.noted ht⟩

/-- Two factors of which the first is traced: one temporary, and a trace before the contraction. -/
theorem axes_of_create_looped : ∃ p ids, create {} .looped {} = .ok (p, ids) ∧
    p.steps.length = 2 ∧ (∀ s ∈ p.steps, p.MapsAxes s) ∧
    p.temporaries.length = 1 ∧ ∀ t ∈ p.temporaries, p.Noted t := by
  obtain ⟨p, ids, h, hsteps, htemps⟩ : ∃ p ids, create {} .looped {} = .ok (p, ids) ∧
      p.steps.length = 2 ∧ p.temporaries.length = 1 := ⟨_, _, by cbv, by cbv, by cbv⟩
  obtain ⟨hmaps, hnoted⟩ := axes_of_create Network.build_looped h
  exact ⟨p, ids, h, hsteps, hmaps, htemps, hnoted⟩

end Plan

end TensorNet
