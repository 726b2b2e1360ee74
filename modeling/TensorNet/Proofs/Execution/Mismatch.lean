import Mathlib
import TensorNet.Proofs.Execution.Checked
import TensorNet.Proofs.Execution.Transparency

/-!
# Mismatches of extents

## 1. What may go wrong

The two axes of a contracted label may have different extents, and an axis of the destination may
have another extent than its label has on the inputs. A run fails in no other way.

## 2. Where it is found

Each contracted label is summed by exactly one kind of step, the one where its two axes meet, and
the extents noted there are those of its two places in the inputs. So the checks of all steps decide
all contracted labels. The check of what a temporary receives never fails, since its extents are
noted from the same places. That of the last step compares the destination with the output.
-/

namespace TensorNet

namespace Network

variable (net : Network) (ds : List (List Nat))

/-- The extent of the inputs at a place. -/
def extentAt (o : Occurrence) : Nat := (ds.getD o.factor []).getD o.axis 0

/-- The extent of a label where it stands first. -/
def extentOf (l : Label) : Nat := extentAt ds ((net.placesOf l).headD ⟨0, 0⟩)

/-- A label that stands twice has one extent at both places. -/
def Agrees (l : Label) : Prop := ∀ o o', net.placesOf l = [o, o'] → extentAt ds o = extentAt ds o'

/-- **Every contracted label has one extent.** -/
def Matching : Prop := ∀ l, net.Agrees ds l

/-- **The failure that names a contracted label** and its two extents, which differ. -/
inductive Clashes (l : Label) : Error → Prop
  | inOrder {o o' : Occurrence} (places : net.placesOf l = [o, o'])
      (ne : extentAt ds o ≠ extentAt ds o') :
      Clashes l (.dimensionMismatch l (extentAt ds o) (extentAt ds o'))
  | swapped {o o' : Occurrence} (places : net.placesOf l = [o, o'])
      (ne : extentAt ds o' ≠ extentAt ds o) :
      Clashes l (.dimensionMismatch l (extentAt ds o') (extentAt ds o))

/-- **The failure that names an output label** whose extent on the inputs is expected, and whose
extent on the destination is another. -/
inductive Refuses (dst : List Nat) : Error → Prop
  | intro {j n : Nat} {l : Label} {o : Occurrence} (label : net.output[j]? = some l)
      (place : net.placesOf l = [o]) (extent : dst[j]? = some n) (ne : extentAt ds o ≠ n) :
      Refuses dst (.dimensionMismatch l (extentAt ds o) n)

variable {net ds}

theorem Clashes.not_agrees {l : Label} {e : Error} (h : net.Clashes ds l e) :
    ¬ net.Agrees ds l := by
  cases h with
  | inOrder places ne => exact fun ha => ne (ha _ _ places)
  | swapped places ne => exact fun ha => ne (ha _ _ places).symm

/-- One extent for each label on all inputs is one at both of its places. -/
theorem matching_of_dims (dim : Label → Nat) :
    net.Matching (net.factors.map fun f => f.labels.map dim) := by
  intro l o o' h
  have hplaces : ∀ p ∈ net.placesOf l,
      extentAt (net.factors.map fun f => f.labels.map dim) p = dim l :=
    fun _ => extent_of_mem_placesOf
  rw [h, List.forall_mem_cons, List.forall_mem_singleton] at hplaces
  exact hplaces.1.trans hplaces.2.symm

theorem extentOf_eq {l : Label} {o : Occurrence} (h : net.placesOf l = [o]) :
    net.extentOf ds l = extentAt ds o := by
  rw [extentOf, h]
  rfl

theorem Refuses.ne {dst : List Nat} {e : Error} (h : net.Refuses ds dst e) :
    dst ≠ net.output.map (net.extentOf ds) := by
  cases h with
  | intro label place extent ne =>
    rintro rfl
    rw [List.getElem?_map, label, Option.map_some, extentOf_eq place] at extent
    exact ne (Option.some.inj extent)

/-! ### Networks with the same labels -/

section

variable {net' : Network} (h : ∀ l, net.placesOf l = net'.placesOf l)
include h

theorem agrees_congr (l : Label) : net.Agrees ds l ↔ net'.Agrees ds l := by
  rw [Agrees, Agrees, h]

theorem extentOf_congr : net.extentOf ds = net'.extentOf ds := by
  funext l
  rw [extentOf, extentOf, h]

theorem Clashes.congr {l : Label} {e : Error} (hc : net.Clashes ds l e) : net'.Clashes ds l e := by
  cases hc with
  | inOrder places ne => exact .inOrder (h l ▸ places) ne
  | swapped places ne => exact .swapped (h l ▸ places) ne

theorem Refuses.congr (houtput : net.output = net'.output) {dst : List Nat} {e : Error}
    (hr : net.Refuses ds dst e) : net'.Refuses ds dst e := by
  cases hr with
  | @intro j n l o label place extent ne =>
    exact .intro (houtput ▸ label) (h l ▸ place) extent ne

end

/-! ### Checks that decide labels -/

/-- **The outcome of checks of some labels**: they agree, or the failure names one that does not. -/
def Decides (net : Network) (ds : List (List Nat)) (ls : List Label) : Except Error Unit → Prop
  | .ok () => ∀ l ∈ ls, net.Agrees ds l
  | .error e => ∃ l ∈ ls, net.Clashes ds l e

theorem Decides.bind {ls ls' : List Label} {r r' : Except Error Unit} (h : net.Decides ds ls r)
    (h' : net.Decides ds ls' r') : net.Decides ds (ls ++ ls') (r >>= fun _ => r') := by
  cases r with
  | error e =>
    obtain ⟨l, hl, hc⟩ := h
    exact ⟨l, List.mem_append_left _ hl, hc⟩
  | ok u =>
    cases r' with
    | error e =>
      obtain ⟨l, hl, hc⟩ := h'
      exact ⟨l, List.mem_append_right _ hl, hc⟩
    | ok u => exact fun l hl => (List.mem_append.1 hl).elim (h l) (h' l)

theorem decides_forM {ι : Type} {f : ι → Except Error Unit} {g : ι → List Label} {is : List ι}
    (h : ∀ i ∈ is, net.Decides ds (g i) (f i)) : net.Decides ds (is.flatMap g) (is.forM f) := by
  induction is with
  | nil => exact fun l hl => nomatch hl
  | cons i is ih =>
    rw [List.forall_mem_cons] at h
    exact h.1.bind (ih h.2)

/-- Two places of a label are all its places. -/
theorem Lawful.places_eq (hnet : net.Lawful) {l : Label} {o o' : Occurrence}
    (ho : o ∈ net.placesOf l) (ho' : o' ∈ net.placesOf l) (hne : o ≠ o') :
    net.placesOf l = [o, o'] ∨ net.placesOf l = [o', o] := by
  have hle := hnet.atMostTwo l
  generalize net.placesOf l = os at ho ho' hle
  match os, hle with
  | [], _ => cases ho
  | [a], _ => exact absurd ((List.mem_singleton.1 ho).trans (List.mem_singleton.1 ho').symm) hne
  | [a, b], _ =>
    rcases List.mem_pair.1 ho with rfl | rfl <;> rcases List.mem_pair.1 ho' with rfl | rfl
    · exact absurd rfl hne
    · exact .inl rfl
    · exact .inr rfl
    · exact absurd rfl hne

/-- **Comparing the extents at two places of a label decides it.** -/
theorem Lawful.decides_checkPair (hnet : net.Lawful) {l : Label} {o o' : Occurrence}
    (ho : o ∈ net.placesOf l) (ho' : o' ∈ net.placesOf l) (hne : o ≠ o')
    {a b : List (Label × Nat)} {p q : Nat} (ha : a.getD p default = (l, extentAt ds o))
    (hb : (b.getD q default).2 = extentAt ds o') :
    net.Decides ds [l] (Execution.checkPair a b p q) := by
  have hplaces := hnet.places_eq ho ho' hne
  unfold Execution.checkPair
  dsimp only
  rw [ha, hb]
  split
  · next he =>
    intro m hm o₁ o₂ hm'
    rw [List.mem_singleton.1 hm] at hm'
    rcases hplaces with hp | hp <;> rw [hp] at hm' <;> cases hm'
    · exact he
    · exact he.symm
  · next he =>
    refine ⟨l, List.mem_singleton_self l, ?_⟩
    rcases hplaces with hp | hp
    · exact .inOrder hp he
    · exact .swapped hp he

end Network

namespace Execution

open Lowering
open Network (extentAt)

variable {κ : Type} {A : κ → Type} {k : κ} {σ : Type}
variable {x : Execution κ (Tensors A) k σ (A k)} {s : Instruction}
variable {rest : List (Label × (Nat × Nat))}

/-! ### What a step compares -/

/-- An axis with its extent. -/
def sized (x : Execution κ (Tensors A) k σ (A k)) (r : Label × (Nat × Nat)) : Label × Nat :=
  (r.1, x.inputExtent r.2)

/-- The axes of a result with their extents. -/
theorem Fits.labelled_stored (hf : x.Fits) {v : Located}
    (hv : Stored x.plan.network x.plan.temporaries v) :
    x.labelled v.source.operand = (v.labels.zip v.extents).map x.sized := by
  rw [labelled, hf.plan.labelsOf_stored hv, hf.dimsOf_stored hv, List.zip_map_right]
  rfl

theorem openAxes_sized (v : Located) (axes : List Nat) :
    openAxes ((v.labels.zip v.extents).map x.sized) axes =
      (Lowering.openAxes v axes).map x.sized := by
  rw [openAxes, Lowering.openAxes, List.zipIdx_map, List.filter_map, List.map_map, List.map_map]
  rfl

/-- An axis of a result has the extent of a place of its label. -/
theorem getD_labelled_of {v : Located} {fs : List Nat} (hv : v.Of x.plan.network fs)
    {j : Nat} (hj : j < v.labels.length) : ∃ e ∈ v.extents,
      ⟨e.1, e.2⟩ ∈ x.plan.network.placesOf (axisLabel v.labels j) ∧
      ((v.labels.zip v.extents).map x.sized).getD j default =
        (axisLabel v.labels j, extentAt x.inputDims ⟨e.1, e.2⟩) := by
  have hje : j < v.extents.length := hv.length ▸ hj
  have hjz : j < (v.labels.zip v.extents).length := by
    rw [List.length_zip, ← hv.length, Nat.min_self]
    exact hj
  have hget : (v.labels.zip v.extents)[j] = (axisLabel v.labels j, v.extents[j]) := by
    rw [List.getElem_zip, axisLabel_eq_of_getElem? (List.getElem?_eq_getElem hj)]
  refine ⟨v.extents[j], List.getElem_mem hje, ?_, ?_⟩
  · have hplace := hv.axes.places _ (List.getElem_mem hjz)
    rw [hget] at hplace
    exact hplace
  · rw [List.getD_eq_getElem?_getD, List.getElem?_map, List.getElem?_eq_getElem hjz, hget]
    rfl

theorem Fits.getD_labelled_input (hf : x.Fits) {i : Nat} (hi : i < x.plan.network.numFactors)
    {j : Nat} (hj : j < (x.plan.network.factor i).labels.length) :
    (x.labelled (.input i)).getD j default =
      (axisLabel (x.plan.network.factor i).labels j, extentAt x.inputDims ⟨i, j⟩) := by
  have hl := hf.labelled_stored (.input hi)
  have hl' : x.labelled (.input i) = ((x.plan.network.factor i).labels.zip
    ((List.range (x.plan.network.factor i).rank).map (i, ·))).map x.sized := hl
  have hz : ((x.plan.network.factor i).labels.zip
      ((List.range (x.plan.network.factor i).rank).map (i, ·)))[j]? =
        some (axisLabel (x.plan.network.factor i).labels j, (i, j)) := by
    rw [List.getElem?_zip_eq_some]
    refine ⟨getElem?_eq_axisLabel hj, ?_⟩
    rw [List.getElem?_map, Factor.rank, List.getElem?_range hj]
    rfl
  rw [hl', List.getD_eq_getElem?_getD, List.getElem?_map, hz]
  rfl

/-- The axes that a step leaves, in the order of its destination. -/
def received (x : Execution κ (Tensors A) k σ (A k)) (s : Instruction)
    (rest : List (Label × (Nat × Nat))) : List (Label × Nat) :=
  ((x.plan.labelsOf s.dst).zip ((positions (x.plan.labelsOf s.dst) (rest.map (·.1))).map fun j =>
    (rest.getD j default).2)).map x.sized

theorem received_eq (h : x.plan.StepOf s rest) : x.received s rest =
    (positions (x.plan.labelsOf s.dst) (rest.map (·.1))).map fun j =>
      x.sized (rest.getD j default) := by
  rw [received, zip_positions fun l hl => h.labels.mem_iff.1 hl, List.map_map]
  rfl

/-- **The sums of a trace** decide the labels that stand twice on its factor. -/
theorem Fits.decides_pairs (hf : x.Fits) {i : Nat} (hi : i < x.plan.network.numFactors) :
    x.plan.network.Decides x.inputDims (tracedLabels (x.plan.network.factor i).labels)
      ((pairsFrom 0 (x.plan.network.factor i).labels).forM fun p =>
        checkPair (x.labelled (.input i)) (x.labelled (.input i)) p.1 p.2) := by
  rw [tracedLabels, List.map_eq_flatMap]
  refine Network.decides_forM fun p hp => ?_
  obtain ⟨h₁, h₂, hne, he⟩ := axisLabel_of_mem_pairs hp
  have ho : ⟨i, p.1⟩ ∈ x.plan.network.placesOf (axisLabel (x.plan.network.factor i).labels p.1) :=
    Network.mem_placesOf_iff.2 ⟨hi, getElem?_eq_axisLabel h₁⟩
  have ho' : ⟨i, p.2⟩ ∈ x.plan.network.placesOf (axisLabel (x.plan.network.factor i).labels p.1) :=
    Network.mem_placesOf_iff.2 ⟨hi, he ▸ getElem?_eq_axisLabel h₂⟩
  exact hf.plan.network.decides_checkPair ho ho' (fun h => hne (congrArg Occurrence.axis h))
    (hf.getD_labelled_input hi h₁) (by rw [hf.getD_labelled_input hi h₂])

/-- **The sums of a contraction** decide the common labels of its sides. -/
theorem Fits.decides_paired (hf : x.Fits) {a b : Located} {fs gs : List Nat} {cs : List Label}
    (hs : Sides x.plan.network x.plan.temporaries fs gs a b cs) (hl : ∀ e ∈ a.extents, e.1 ∈ fs)
    (hr : ∀ e ∈ b.extents, e.1 ∈ gs) : x.plan.network.Decides x.inputDims cs
      (((positions cs a.labels).zip (positions cs b.labels)).forM fun p =>
        checkPair (x.labelled a.source.operand) (x.labelled b.source.operand) p.1 p.2) := by
  have hca : ∀ l ∈ cs, l ∈ a.labels := fun l hl => ((hs.common.mem l).1 hl).1
  have hcb : ∀ l ∈ cs, l ∈ b.labels := fun l hl => ((hs.common.mem l).1 hl).2
  have hcs : cs = ((positions cs a.labels).zip (positions cs b.labels)).flatMap fun p =>
      [axisLabel a.labels p.1] := by
    have hlen : (positions cs a.labels).length ≤ (positions cs b.labels).length := by
      rw [length_positions hca, length_positions hcb]
    conv => lhs; rw [← map_axisLabel_positions hca, ← List.map_fst_zip hlen, List.map_map]
    exact List.map_eq_flatMap
  rw [hf.labelled_stored hs.storedLeft, hf.labelled_stored hs.storedRight]
  conv => arg 3; rw [hcs]
  refine Network.decides_forM fun p hp => ?_
  obtain ⟨h₁, h₂, he⟩ := axisLabel_of_mem_paired hs hp
  obtain ⟨e, hmem, hplace, hget⟩ := getD_labelled_of hs.left h₁
  obtain ⟨e', hmem', hplace', hget'⟩ := getD_labelled_of hs.right h₂
  -- The two sides have no factor in common.
  have hne : (⟨e.1, e.2⟩ : Occurrence) ≠ ⟨e'.1, e'.2⟩ := fun h => by
    have hfactor : e.1 = e'.1 := congrArg Occurrence.factor h
    exact hs.apart _ (hl e hmem) (hfactor ▸ hr e' hmem')
  exact hf.plan.network.decides_checkPair hplace (he ▸ hplace') hne hget (by rw [hget'])

/-- **What the check of a step compares**: the places of the labels that the step sums, and then the
destination with the axes that it receives. -/
theorem Fits.checkSummed_spec (hf : x.Fits) (h : x.plan.StepOf s rest) : ∃ sums axes,
    x.checkSummed s.action = (sums >>= fun _ => .ok axes) ∧
      x.plan.network.Decides x.inputDims (x.plan.summedBy s) sums ∧
      s.perm.map (fun j => axes.getD j default) = x.received s rest := by
  have hreceived := received_eq h
  cases h.does with
  | @trace i hi action perm =>
    have hpairs := hf.decides_pairs hi
    rw [← Plan.summedBy_trace action] at hpairs
    refine ⟨_, x.labelled (.input i), ?_, hpairs, ?_⟩
    · rcases action with ha | ⟨ha, hnil⟩ <;> rw [ha]
      · rfl
      · rw [hnil]
        rfl
    · rw [hreceived, perm, tracePerm, List.map_map]
      refine List.map_congr_left fun j hj => ?_
      have hlt := lt_of_mem_positions hj
      rw [List.length_map, traceAxes, List.length_map] at hlt
      have hk := ((mem_keptAxes hf.plan.network).1 (List.getElem_mem hlt)).1
      simp only [Function.comp_apply, traceAxes, List.getD_eq_getElem?_getD, List.getElem?_map,
        List.getElem?_eq_getElem hlt, Option.map_some, Option.getD_some]
      rw [← List.getD_eq_getElem?_getD, hf.getD_labelled_input hi hk]
      rfl
  | @contract fs gs a b cs sides left right action perm =>
    have hsum := hf.plan.summedBy_contract sides action
    refine ⟨_, (joinAxes a b cs).map x.sized, ?_, by
      rw [hsum]; exact hf.decides_paired sides left right, ?_⟩
    · rw [action, joinAxes, List.map_append, ← openAxes_sized, ← openAxes_sized,
        ← hf.labelled_stored sides.storedLeft, ← hf.labelled_stored sides.storedRight]
      rfl
    · rw [hreceived, perm]
      refine List.map_congr_left fun j hj => ?_
      have hlt := lt_of_mem_positions hj
      rw [List.length_map] at hlt
      rw [List.getD_eq_getElem?_getD, List.getD_eq_getElem?_getD, List.getElem?_map,
        List.getElem?_eq_getElem hlt]
      rfl

/-! ### What the destination receives -/

theorem checkReceived_error {axes : List (Label × Nat)} {perm dims : List Nat} {e : Error}
    (h : checkReceived axes perm dims = .error e) : ∃ (j : Nat) (a : Label × Nat) (n : Nat),
      (perm.map fun j => axes.getD j default)[j]? = some a ∧ dims[j]? = some n ∧ a.2 ≠ n ∧
        e = .dimensionMismatch a.1 a.2 n := by
  induction perm generalizing dims with
  | nil => cases h
  | cons i perm ih =>
    cases dims with
    | nil => cases h
    | cons d dims =>
      rw [checkReceived] at h
      split at h
      · obtain ⟨j, a, n, ha, hn, hne, he⟩ := ih h
        exact ⟨j + 1, a, n, ha, hn, hne, he⟩
      · next hne =>
        cases h
        exact ⟨0, _, d, rfl, rfl, hne, rfl⟩

theorem map_snd_received (h : x.plan.StepOf s rest) : (x.received s rest).map (·.2) =
    ((positions (x.plan.labelsOf s.dst) (rest.map (·.1))).map fun j =>
      (rest.getD j default).2).map x.inputExtent := by
  rw [received_eq h, List.map_map, List.map_map]
  rfl

/-- **The check of a step that writes a temporary** decides the labels that the step sums. -/
theorem Fits.decides_temporary (hf : x.Fits) (h : x.plan.StepOf s rest) {slot : Nat}
    (hdst : s.dst = .temporary slot) :
    x.plan.network.Decides x.inputDims (x.plan.summedBy s) (x.checkExtents s) := by
  obtain ⟨sums, axes, hsummed, hdecides, hperm⟩ := hf.checkSummed_spec h
  obtain ⟨t, ht, hext⟩ := h.extents slot hdst
  have hdims : x.dimsOf s.dst = (s.perm.map fun j => axes.getD j default).map (·.2) := by
    rw [hperm, map_snd_received h, ← hext]
    simp only [hdst, dimsOf, ht]
  have hreceived : checkReceived axes s.perm (x.dimsOf s.dst) = .ok () := by
    rw [List.map_map] at hdims
    refine (checkReceived_iff ?_).2 hdims
    rw [hdims, List.length_map]
  have hchk : x.checkExtents s = sums := by
    rw [checkExtents, hsummed]
    cases sums with
    | error e => rfl
    | ok u => exact hreceived
  rw [hchk]
  exact hdecides

/-- The last step receives the output labels, with the extents that they have on the inputs. -/
theorem Fits.received_output (hf : x.Fits) (h : x.plan.StepOf s rest)
    (hdst : s.dst = .destination) : x.received s rest =
      x.plan.network.output.map fun l => (l, x.plan.network.extentOf x.inputDims l) := by
  have hnet := hf.plan.network
  obtain ⟨fs, haxes⟩ := h.axes
  have hlabels : x.plan.labelsOf s.dst = x.plan.network.output := by rw [hdst, Plan.labelsOf]
  have hmem : ∀ l ∈ x.plan.network.output, l ∈ rest.map (·.1) := fun l hl =>
    h.labels.mem_iff.1 (hlabels ▸ hl)
  rw [received_eq h, hlabels]
  conv => rhs; rw [← map_axisLabel_positions hmem, List.map_map]
  refine List.map_congr_left fun j hj => ?_
  have hlt := lt_of_mem_positions hj
  rw [List.length_map] at hlt
  have hlabel : axisLabel (rest.map (·.1)) j = rest[j].1 := axisLabel_eq_of_getElem? (by
    rw [List.getElem?_map, List.getElem?_eq_getElem hlt]
    rfl)
  have hplace := haxes.places _ (List.getElem_mem hlt)
  have hone : (x.plan.network.placesOf rest[j].1).length = 1 := by
    rw [← hnet.mem_output, ← hlabels, h.labels.mem_iff]
    exact List.mem_map_of_mem (List.getElem_mem hlt)
  obtain ⟨o, ho⟩ := List.length_eq_one_iff.1 hone
  rw [ho] at hplace
  rw [Function.comp_apply, hlabel, Network.extentOf_eq ho, ← List.mem_singleton.1 hplace,
    List.getD_eq_getElem?_getD, List.getElem?_eq_getElem hlt, Option.getD_some]
  rfl

/-- The outcome of the checks of a plan, which sum the labels `ls`. -/
def Outcome (x : Execution κ (Tensors A) k σ (A k)) (ls : List Label) : Except Error Unit → Prop
  | .ok () => (∀ l ∈ ls, x.plan.network.Agrees x.inputDims l) ∧
      x.dstDims = x.plan.network.output.map (x.plan.network.extentOf x.inputDims)
  | .error e => (∃ l ∈ ls, x.plan.network.Clashes x.inputDims l e) ∨
      x.plan.network.Refuses x.inputDims x.dstDims e

theorem Outcome.after {ls ls' : List Label} {r r' : Except Error Unit} (h' : x.Outcome ls' r')
    (h : x.plan.network.Decides x.inputDims ls r) :
    x.Outcome (ls ++ ls') (r >>= fun _ => r') := by
  cases r with
  | error e =>
    obtain ⟨l, hl, hc⟩ := h
    exact .inl ⟨l, List.mem_append_left _ hl, hc⟩
  | ok u =>
    cases r' with
    | error e =>
      refine h'.imp_left fun ⟨l, hl, hc⟩ => ?_
      exact ⟨l, List.mem_append_right _ hl, hc⟩
    | ok u => exact ⟨fun l hl => (List.mem_append.1 hl).elim (h l) (h'.1 l), h'.2⟩

/-- **The check of the last step** decides the labels that the step sums, and the destination. -/
theorem Fits.outcome_last (hf : x.Fits) (hd : x.dstDims.length = x.plan.network.output.length)
    (h : x.plan.StepOf s rest) (hdst : s.dst = .destination) :
    x.Outcome (x.plan.summedBy s) (x.checkExtents s) := by
  obtain ⟨sums, axes, hsummed, hdecides, hperm⟩ := hf.checkSummed_spec h
  rw [hf.received_output h hdst] at hperm
  have hdims : x.dimsOf s.dst = x.dstDims := by rw [hdst, dimsOf]
  rw [checkExtents, hsummed, hdims]
  cases sums with
  | error e => exact .inl hdecides
  | ok u =>
    show x.Outcome _ (checkReceived axes s.perm x.dstDims)
    cases hreceived : checkReceived axes s.perm x.dstDims with
    | ok u =>
      refine ⟨hdecides, ?_⟩
      have hlen : s.perm.length = x.dstDims.length := by
        have := congrArg List.length hperm
        rwa [List.length_map, List.length_map, ← hd] at this
      rw [(checkReceived_iff hlen).1 hreceived, ← Function.comp_def Prod.snd, ← List.map_map, hperm,
        List.map_map]
      rfl
    | error e =>
      obtain ⟨j, a, n, ha, hn, hne, rfl⟩ := checkReceived_error hreceived
      rw [hperm, List.getElem?_map] at ha
      obtain ⟨l, hl, rfl⟩ := Option.map_eq_some_iff.1 ha
      have hone := (hf.plan.network.mem_output l).1 (List.mem_of_getElem? hl)
      obtain ⟨o, ho⟩ := List.length_eq_one_iff.1 hone
      dsimp only at hne ⊢
      rw [Network.extentOf_eq ho] at hne ⊢
      exact .inr (.intro hl ho hn hne)

/-- **The checks of all steps** decide all contracted labels, and the destination. -/
theorem Fits.outcome (hf : x.Fits) (hd : x.dstDims.length = x.plan.network.output.length) :
    x.Outcome (x.plan.steps.flatMap x.plan.summedBy) (x.plan.steps.forM x.checkExtents) := by
  obtain ⟨init, last, hs, hinit, hlast⟩ := hf.plan.exists_steps
  have hfirst : x.plan.network.Decides x.inputDims (init.flatMap x.plan.summedBy)
      (init.forM x.checkExtents) := by
    refine Network.decides_forM fun s hm => ?_
    obtain ⟨slot, hdst⟩ := (hinit s hm).dst
    obtain ⟨rest, h⟩ := hf.plan.stepOf (hs ▸ List.mem_append_left _ hm)
    exact hf.decides_temporary h hdst
  obtain ⟨rest, h⟩ := hf.plan.stepOf_last hs
  have hend := hf.outcome_last hd h hlast.dst
  rw [hs, List.flatMap_append, List.flatMap_singleton, forM_concat]
  exact hend.after hfirst

/-- **When the checks of a plan fail**, and with what. -/
theorem Fits.failure_spec (hf : x.Fits) (hd : x.dstDims.length = x.plan.network.output.length) :
    (failureOf (x.plan.steps.forM x.checkExtents) = none ↔
      x.plan.network.Matching x.inputDims ∧
        x.dstDims = x.plan.network.output.map (x.plan.network.extentOf x.inputDims)) ∧
    ∀ e, failureOf (x.plan.steps.forM x.checkExtents) = some e →
      (∃ l, x.plan.network.Clashes x.inputDims l e) ∨
        x.plan.network.Refuses x.inputDims x.dstDims e := by
  have houtcome := hf.outcome hd
  cases hchk : x.plan.steps.forM x.checkExtents with
  | ok u =>
    rw [hchk] at houtcome
    refine ⟨iff_of_true rfl ⟨fun l o o' hl => ?_, houtcome.2⟩, fun e he => nomatch he⟩
    exact houtcome.1 l (hf.plan.mem_summedBy.2 (by rw [hl]; rfl)) o o' hl
  | error e =>
    rw [hchk] at houtcome
    refine ⟨iff_of_false (fun h => nomatch h) fun h => ?_, fun e' he => ?_⟩
    · rcases houtcome with ⟨l, -, hc⟩ | hr
      · exact hc.not_agrees (h.1 l)
      · exact hr.ne h.2
    · obtain rfl : e = e' := Option.some.inj he
      exact houtcome.imp_left fun ⟨l, _, hc⟩ => ⟨l, hc⟩

end Execution

/-! ### Calls -/

namespace Plan

variable {p : Plan}

theorem ranked_of_ranks {ds : List (List Nat)}
    (h : ds.map List.length = p.network.factors.map Factor.rank) : p.Ranked ds := by
  have hlen := congrArg List.length h
  rw [List.length_map, List.length_map] at hlen
  refine ⟨hlen, fun i hi => ?_⟩
  have hget := congrArg (·[i]?) h
  simp only [List.getElem?_map, Network.getElem?_factors hi,
    List.getElem?_eq_getElem (hlen.symm ▸ hi : i < ds.length), Option.map_some,
    Option.some.injEq] at hget
  rw [List.getD_eq_getElem?_getD, List.getElem?_eq_getElem (hlen.symm ▸ hi : i < ds.length)]
  exact hget

theorem exists_returned_iff {τ : Type} {w : Written τ} :
    (∃ result, returned w = .ok result) ↔ w.failure = none := by
  obtain ⟨dst, failure⟩ := w
  cases failure with
  | none => exact ⟨fun _ => rfl, fun _ => ⟨dst, rfl⟩⟩
  | some e => exact ⟨nofun, nofun⟩

theorem returned_eq_error {τ : Type} {w : Written τ} {e : Error} (h : returned w = .error e) :
    w.failure = some e := by
  obtain ⟨dst, failure⟩ := w
  cases failure with
  | none => cases h
  | some e' =>
    cases h
    rfl

theorem exists_head?_of_ranked {α : Type} (hnet : p.network.Lawful) {inputs : List (Tensor α)}
    (hr : p.Ranked (inputs.map Tensor.dims)) : ∃ model, inputs.head? = some model := by
  have hne : inputs ≠ [] := by
    rintro rfl
    exact Nat.ne_of_lt hnet.pos hr.length
  exact ⟨_, List.head?_eq_some_head hne⟩

/-- The extents of the result are those of the output labels. -/
theorem outputDims_eq_ok (hnet : p.network.Lawful) {ds : List (List Nat)} (hr : p.Ranked ds) :
    p.outputDims ds = .ok (p.network.output.map (p.network.extentOf ds)) := by
  rw [outputDims, checkInputs_eq_ok.2 hr, ok_bind]
  refine mapM_eq_ok fun l hl => ?_
  obtain ⟨o, ho⟩ := List.length_eq_one_iff.1 ((hnet.mem_output l).1 hl)
  rw [outputExtent_eq hnet ds ho, Network.extentOf_eq ho]
  rfl

/-- A plan has the labels of the network that it was made for. -/
theorem labels_of_create {ids ids' : PlanIds} {net : Network} {config : PlanConfig}
    (hp : create ids net config = .ok (p, ids')) : p.network.output = net.output ∧
      (∀ l, p.network.placesOf l = net.placesOf l) ∧
      p.network.factors.map Factor.rank = net.factors.map Factor.rank := by
  rw [(create_eq hp).1]
  split
  · exact ⟨rfl, net.placesOf_conjugated, List.map_map⟩
  · exact ⟨rfl, fun _ => rfl, rfl⟩

variable {κ : Type} {A : κ → Type} [∀ k, Element (A k)] {k : κ} {σ : Type} [DecidableEq κ]
variable {inputs : List (Tensor (A k))} {c : Cache (Tensors A)}

/-- **A run of a plan** on inputs and a destination of the right ranks. -/
theorem Proper.run_spec (hp : p.Proper) (hr : p.Ranked (inputs.map Tensor.dims))
    (hc : c.enabled = true → c.Fitting) (context : ExecutionContext) (model : Tensor (A k))
    (alpha beta : A k) {dst : Tensor (A k)} (hd : dst.dims.length = p.network.output.length)
    (t : σ) :
    let x := p.running σ context inputs model dst.dims alpha beta
    ((x.run c dst t).1.failure = none ↔ p.network.Matching (inputs.map Tensor.dims) ∧
      dst.dims = p.network.output.map (p.network.extentOf (inputs.map Tensor.dims))) ∧
    (∀ e, (x.run c dst t).1.failure = some e →
      (∃ l, p.network.Clashes (inputs.map Tensor.dims) l e) ∨
        p.network.Refuses (inputs.map Tensor.dims) dst.dims e) ∧
    ∀ s r, x.Reaches ⟨c, [], dst, t⟩ s r → x.InRange s r.temps := by
  intro x
  have hf : x.Fits := ⟨hp, rfl, hr⟩
  obtain ⟨hfail, hreach⟩ := hf.run_checked hd rfl hc rfl t
  rw [hfail]
  exact ⟨(hf.failure_spec hd).1, (hf.failure_spec hd).2, hreach⟩

/-- **A call that returns a tensor** is a run on a destination of the right extents. -/
theorem Proper.execute_spec (hp : p.Proper) (hr : p.Ranked (inputs.map Tensor.dims))
    (hc : c.enabled = true → c.Fitting) (context : ExecutionContext) (alpha : A k) (t : σ) :
    ((∃ result, (p.execute (.dense σ (A k)) context inputs alpha c t).1 = .ok result) ↔
      p.network.Matching (inputs.map Tensor.dims)) ∧
    ∀ e, (p.execute (.dense σ (A k)) context inputs alpha c t).1 = .error e →
      ∃ l, p.network.Clashes (inputs.map Tensor.dims) l e := by
  have hdims := outputDims_eq_ok hp.network hr
  obtain ⟨model, hm⟩ := exists_head?_of_ranked hp.network hr
  obtain ⟨_, rfl, hcall⟩ := p.execute_eq_run context inputs alpha hm hdims c t
  have hzeros : (Tensor.zeros (p.network.output.map
      (p.network.extentOf (inputs.map Tensor.dims))) : Tensor (A k)).dims.length =
        p.network.output.length := List.length_map ..
  obtain ⟨hok, herror, -⟩ := hp.run_spec hr hc context model alpha 0 hzeros t
  rw [hcall]
  constructor
  · exact exists_returned_iff.trans (hok.trans (and_iff_left rfl))
  · intro e he
    exact (herror e (returned_eq_error he)).resolve_right fun hrefuses => hrefuses.ne rfl

/-- **A call fails exactly when extents do not match**, and says where. With inputs of the right
ranks, a call that returns a tensor succeeds exactly when each contracted label has one extent at
both of its places. A call with a destination of the right rank succeeds exactly when, in addition,
the destination has the extents of the output labels. Each failure names a contracted label and its
two extents, or an output label with the extent of the input and that of the destination.

No axis is looked for that is not there, in the inputs or in a step that a run reaches. This covers
a call that returns a tensor, which is a run on zeros. -/
theorem fails_iff_mismatch {factors : List Factor} {output : Option (List Label)} {net : Network}
    (hnet : Network.build factors output = .ok net) {ids ids' : PlanIds} {config : PlanConfig}
    (hp : create ids net config = .ok (p, ids'))
    (hr : inputs.map Tensor.rank = net.factors.map Factor.rank) (settings : CacheConfig)
    (history : List (CacheEvent A)) (context : ExecutionContext) (alpha : A k) :
    let ds := inputs.map Tensor.dims
    let cache := Cache.after settings history
    ((∃ result, (p.execute (.dense Unit (A k)) context inputs alpha cache ()).1 = .ok result) ↔
      net.Matching ds) ∧
    (∀ e, (p.execute (.dense Unit (A k)) context inputs alpha cache ()).1 = .error e →
      ∃ l, net.Clashes ds l e) ∧
    (∀ l, ∀ o ∈ net.placesOf l, HasAxis ds (o.factor, o.axis)) ∧
    ∀ (beta : A k) (dst : Tensor (A k)), dst.rank = net.output.length →
      ((p.executeInto (.dense Unit (A k)) context inputs alpha beta cache dst ()).1.failure =
        none ↔ net.Matching ds ∧ dst.dims = net.output.map (net.extentOf ds)) ∧
      (∀ e, (p.executeInto (.dense Unit (A k)) context inputs alpha beta cache dst ()).1.failure =
        some e → (∃ l, net.Clashes ds l e) ∨ net.Refuses ds dst.dims e) ∧
      ∀ model, inputs.head? = some model → ∀ s r,
        (p.running Unit context inputs model dst.dims alpha beta).Reaches ⟨cache, [], dst, ()⟩ s r →
          (p.running Unit context inputs model dst.dims alpha beta).InRange s r.temps := by
  intro ds cache
  have hproper := proper_of_create (Network.lawful_of_build hnet).1 hp
  obtain ⟨houtput, hplaces, hranks⟩ := labels_of_create hp
  have hranked : p.Ranked ds := ranked_of_ranks (by rw [List.map_map, hranks]; exact hr)
  have hcache : cache.enabled = true → cache.Fitting := fun _ =>
    Cache.fitting_after settings history
  have hmatching : p.network.Matching ds ↔ net.Matching ds :=
    forall_congr' fun l => Network.agrees_congr hplaces l
  have hextents : p.network.output.map (p.network.extentOf ds) =
      net.output.map (net.extentOf ds) := by
    rw [houtput, Network.extentOf_congr hplaces]
  have hclashes : ∀ e, (∃ l, p.network.Clashes ds l e) → ∃ l, net.Clashes ds l e := fun e hc =>
    hc.imp fun _ hc => hc.congr hplaces
  obtain ⟨hok, herror⟩ := hproper.execute_spec hranked hcache context alpha ()
  refine ⟨hok.trans hmatching, fun e he => hclashes e (herror e he), fun l o ho => ?_,
    fun beta dst hd => ?_⟩
  · exact hasAxis_of_place hranked (hplaces l ▸ ho)
  · replace hd : dst.dims.length = p.network.output.length := houtput ▸ hd
    obtain ⟨model, hm⟩ := exists_head?_of_ranked hproper.network hranked
    have hspec := fun model => hproper.run_spec hranked hcache context model alpha beta hd ()
    rw [p.executeInto_eq_run context inputs alpha beta hm hranked hd, (hspec model).1, hmatching,
      hextents]
    refine ⟨Iff.rfl, fun e he => ?_, fun model _ => (hspec model).2.2⟩
    exact ((hspec model).2.1 e he).imp (hclashes e) fun h => h.congr hplaces houtput

/-- A product of three matrices of integers, of which two do not match, and one of three that match
with a destination that has too many columns. -/
theorem fails_iff_mismatch_chain :
    let uneven : List (Tensor Int) := [.fill [1, 2] 1, .fill [3, 1] 3, .fill [1, 2] 2]
    let even : List (Tensor Int) := [.fill [1, 2] 1, .fill [2, 1] 3, .fill [1, 2] 2]
    let cache : Cache (Tensors fun _ : Unit => Int) :=
      .after {} [.executeInto () chain default even 5 0 (.fill [1, 2] 7), .evict]
    (∃ e l, (chain.execute (k := ()) (.dense Unit Int) default uneven 5 cache ()).1 = .error e ∧
      Network.chain.Clashes [[1, 2], [3, 1], [1, 2]] l e) ∧
    ∃ e, (chain.executeInto (k := ()) (.dense Unit Int) default even 5 0 cache
        (.fill [1, 3] 7) ()).1.failure = some e ∧
      Network.chain.Refuses [[1, 2], [2, 1], [1, 2]] [1, 3] e := by
  intro uneven even cache
  have fails := fun (inputs : List (Tensor Int))
      (hr : inputs.map Tensor.rank = Network.chain.factors.map Factor.rank) =>
    fails_iff_mismatch (k := ()) (A := fun _ : Unit => Int) Network.build_chain create_chain hr {}
      [.executeInto () chain default even 5 0 (.fill [1, 2] 7), .evict] default 5
  constructor
  · obtain ⟨hok, herror, -⟩ := fails uneven rfl
    have hnot : ¬ Network.chain.Matching (uneven.map Tensor.dims) := fun h =>
      absurd (h (.int 1) ⟨0, 1⟩ ⟨1, 0⟩ rfl) (by decide)
    cases hcall : (chain.execute (k := ()) (.dense Unit Int) default uneven 5 cache ()).1 with
    | ok result => exact absurd (hok.1 ⟨result, hcall⟩) hnot
    | error e =>
      obtain ⟨l, hl⟩ := herror e hcall
      exact ⟨e, l, rfl, hl⟩
  · obtain ⟨-, -, -, hinto⟩ := fails even rfl
    obtain ⟨hok, herror, -⟩ := hinto 0 (.fill [1, 3] 7) rfl
    have hmatching : Network.chain.Matching (even.map Tensor.dims) :=
      Network.matching_of_dims fun l => if l = .int 1 ∨ l = .int (-2) then 2 else 1
    cases hcall : (chain.executeInto (k := ()) (.dense Unit Int) default even 5 0 cache
        (.fill [1, 3] 7) ()).1.failure with
    | none => exact absurd (hok.1 hcall).2 (by decide)
    | some e =>
      refine ⟨e, rfl, (herror e hcall).resolve_left fun ⟨l, hl⟩ => ?_⟩
      exact hl.not_agrees (hmatching l)

end Plan

end TensorNet
