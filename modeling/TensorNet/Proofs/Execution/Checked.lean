import Mathlib
import TensorNet.Proofs.Execution.Extents
import TensorNet.Proofs.Plan.Steps

/-!
# Steps whose extents were checked

## 1. What a step finds

When a run reaches a step, the operands of the step are there with the extents that were noted for
them, and every axis that the step names is an axis of its operand.

## 2. The backend does not refuse

So when the check of the extents succeeds, the backend, which makes its own checks, does not refuse
the step. Hence a run fails exactly when the check of one of its steps fails, and with that failure.
Nothing here depends on the values of elements.
-/

namespace TensorNet

/-- Some extents have an axis. -/
def HasAxis (ds : List (List Nat)) (e : Nat × Nat) : Prop := ∃ d, ds[e.1]? = some d ∧ e.2 < d.length

/-- The extents of the inputs have an axis for each place of a label. -/
theorem Plan.hasAxis_of_place {p : Plan} {ds : List (List Nat)} (hr : p.Ranked ds) {l : Label}
    {o : Occurrence} (h : o ∈ p.network.placesOf l) : HasAxis ds (o.factor, o.axis) := by
  obtain ⟨hi, hj⟩ := Network.mem_placesOf_iff.1 h
  have hlen := hr.length.symm ▸ hi
  refine ⟨_, List.getElem?_eq_getElem hlen, ?_⟩
  have hrank := hr.rank o.factor hi
  rw [List.getD_eq_getElem?_getD, List.getElem?_eq_getElem hlen, Option.getD_some] at hrank
  rw [hrank]
  exact (List.getElem?_eq_some_iff.1 hj).1

namespace Execution

open Plan (heldAfter hasAxis_of_place)

variable {κ : Type} {A : κ → Type} {k : κ} {σ : Type}
variable {x : Execution κ (Tensors A) k σ (A k)} {s : Instruction}
variable {temps : List (Nat × Tensor (A k))}

/-- **The extents of an operand are known**: there is one for each label, and those of a temporary
are extents of axes of the inputs. -/
structure Noted (x : Execution κ (Tensors A) k σ (A k)) (o : Operand) : Prop where
  rank : (x.dimsOf o).length = x.plan.rankOf o
  extents : ∀ slot t, o = .temporary slot → x.plan.temporary? slot = some t →
    ∀ e ∈ t.extents, HasAxis x.inputDims e

/-- **What a step finds.** The axes that it names are there, and so are its operands, with the
extents that are known of them. -/
structure InRange (x : Execution κ (Tensors A) k σ (A k)) (s : Instruction)
    (temps : List (Nat × Tensor (A k))) : Prop where
  axes : s.action.InRange x.plan.rankOf s.perm
  perm : s.perm.length = x.plan.rankOf s.dst
  noted : ∀ o ∈ s.dst :: s.sources, x.Noted o
  buffers : ∀ o ∈ s.sources, ∃ b, x.source temps o = .ok b ∧ b.dims = x.dimsOf o

/-! ### The check of the extents -/

theorem getD_labelled {o : Operand} (h : (x.dimsOf o).length = x.plan.rankOf o) {j : Nat}
    (hj : j < x.plan.rankOf o) : ((x.labelled o).getD j default).2 = (x.dimsOf o).getD j 0 := by
  have hlt : j < (x.dimsOf o).length := h ▸ hj
  have hz : j < (x.labelled o).length := by
    rw [labelled, List.length_zip, h, Plan.rankOf, Nat.min_self]
    exact hj
  rw [List.getD_eq_getElem?_getD, List.getElem?_eq_getElem hz, Option.getD_some,
    List.getD_eq_getElem?_getD, List.getElem?_eq_getElem hlt, Option.getD_some]
  simp only [labelled, List.getElem_zip]

/-- The extents of the open axes, as the backend reads them off the buffer. -/
theorem map_openAxes {o : Operand} (h : (x.dimsOf o).length = x.plan.rankOf o) {b : Tensor (A k)}
    (hb : b.dims = x.dimsOf o) (axes : List Nat) :
    (openAxes (x.labelled o) axes).map (·.2) = (b.openAxes axes).map b.extent := by
  have hlen : (x.labelled o).length = b.rank := by
    rw [labelled, List.length_zip, Tensor.rank, hb, h, Plan.rankOf, Nat.min_self]
  rw [openAxes_eq, hlen, Tensor.openAxes, List.map_map]
  refine List.map_congr_left fun j hj => ?_
  have hlt : j < b.rank := List.mem_range.1 (List.mem_filter.1 hj).1
  rw [Tensor.rank, hb, h] at hlt
  rw [Function.comp_apply, getD_labelled h hlt, Tensor.extent, hb]

theorem checkPair_eq_ok {a b : List (Label × Nat)} {p q : Nat} : checkPair a b p q = .ok () ↔
    (a.getD p default).2 = (b.getD q default).2 := by
  unfold checkPair
  dsimp only
  split
  · next h => exact ⟨fun _ => h, fun _ => rfl⟩
  · next h => exact ⟨nofun, fun h' => absurd h' h⟩

section

variable {perm dims : List Nat}

theorem checkTrace_of_checked {o : Operand} {b : Tensor (A k)} {pairs : List (Nat × Nat)}
    (hb : b.dims = x.dimsOf o) (hrank : (x.dimsOf o).length = x.plan.rankOf o)
    (hperm : ∀ j ∈ perm, j < x.plan.rankOf o)
    (hpairs : ∀ p ∈ pairs, p.1 < x.plan.rankOf o ∧ p.2 < x.plan.rankOf o)
    (hc : perm.length + 2 * pairs.length = x.plan.rankOf o)
    (h : pairs.forM (fun p => checkPair (x.labelled o) (x.labelled o) p.1 p.2) = .ok ())
    (hdims : dims = perm.map fun j => ((x.labelled o).getD j default).2) [∀ k, Element (A k)] :
    Tensor.checkTrace b (.zeros dims) perm pairs = .ok () := by
  have hextent : ∀ j < x.plan.rankOf o, ((x.labelled o).getD j default).2 = b.extent j :=
    fun j hj => by rw [getD_labelled hrank hj, Tensor.extent, hb]
  refine Tensor.checkTrace_eq_ok.2 ⟨?_, ?_, fun p hp => ?_⟩
  · rw [hc, Tensor.rank, hb, hrank]
  · exact hdims.trans (List.map_congr_left fun j hj => hextent j (hperm j hj))
  · rw [← hextent _ (hpairs p hp).1, ← hextent _ (hpairs p hp).2]
    exact checkPair_eq_ok.1 (forM_eq_ok_iff.1 h p hp)

theorem checkContract_of_checked {o o' : Operand} {a b : Tensor (A k)} {axesA axesB : List Nat}
    (ha : a.dims = x.dimsOf o) (hb : b.dims = x.dimsOf o')
    (hrank : (x.dimsOf o).length = x.plan.rankOf o)
    (hrank' : (x.dimsOf o').length = x.plan.rankOf o')
    (haxesA : ∀ j ∈ axesA, j < x.plan.rankOf o) (haxesB : ∀ j ∈ axesB, j < x.plan.rankOf o')
    (hlen : axesA.length = axesB.length)
    (hperm : ∀ j ∈ perm, j < Action.openCount (x.plan.rankOf o) axesA +
      Action.openCount (x.plan.rankOf o') axesB)
    (hc : perm.length = Action.openCount (x.plan.rankOf o) axesA +
      Action.openCount (x.plan.rankOf o') axesB)
    (h : (axesA.zip axesB).forM
      (fun p => checkPair (x.labelled o) (x.labelled o') p.1 p.2) = .ok ())
    (hdims : dims = perm.map fun j => ((openAxes (x.labelled o) axesA ++
      openAxes (x.labelled o') axesB).getD j default).2) [∀ k, Element (A k)] :
    Tensor.checkContract a b (.zeros dims) axesA axesB perm = .ok () := by
  have hopen : (openAxes (x.labelled o) axesA ++ openAxes (x.labelled o') axesB).map (·.2) =
      Tensor.openExtents a b axesA axesB := by
    rw [List.map_append, map_openAxes hrank ha, map_openAxes hrank' hb, Tensor.openExtents]
  have hcount : (openAxes (x.labelled o) axesA ++ openAxes (x.labelled o') axesB).length =
      Action.openCount (x.plan.rankOf o) axesA + Action.openCount (x.plan.rankOf o') axesB := by
    rw [List.length_append, openAxes_eq, openAxes_eq, List.length_map, List.length_map, labelled,
      labelled, List.length_zip, List.length_zip, hrank, hrank', Plan.rankOf, Plan.rankOf,
      Nat.min_self, Nat.min_self]
    rfl
  refine Tensor.checkContract_eq_ok.2 ⟨hlen, fun p hp => ?_, ?_, ?_⟩
  · obtain ⟨hpa, hpb⟩ := List.of_mem_zip hp
    rw [Tensor.extent, Tensor.extent, ha, hb, ← getD_labelled hrank (haxesA _ hpa),
      ← getD_labelled hrank' (haxesB _ hpb)]
    exact checkPair_eq_ok.1 (forM_eq_ok_iff.1 h p hp)
  · rw [hc, ← hopen, List.length_map, hcount]
  · refine hdims.trans (List.map_congr_left fun j hj => ?_)
    have hlt := hcount.symm ▸ hperm j hj
    rw [← hopen, List.getD_eq_getElem?_getD, List.getD_eq_getElem?_getD, List.getElem?_map,
      List.getElem?_eq_getElem hlt]
    rfl

end

/-- **What the check asks for is what the backend asks for**, if the operands are there and no axis
is left out. -/
theorem InRange.exists_compute [∀ k, Element (A k)] (hi : x.InRange s temps)
    (hc : s.action.Complete x.plan.rankOf s.perm) (h : x.checkExtents s = .ok ()) :
    ∃ f, x.compute s temps (x.dimsOf s.dst) = .ok f := by
  obtain ⟨axes, hsummed, hreceived⟩ := bind_eq_ok.1 h
  have hlen : s.perm.length = (x.dimsOf s.dst).length := by
    rw [hi.perm, (hi.noted _ List.mem_cons_self).rank]
  rw [checkReceived_iff hlen] at hreceived
  have hranks : ∀ o ∈ s.action.operands, (x.dimsOf o).length = x.plan.rankOf o := fun o ho =>
    (hi.noted o (List.mem_cons_of_mem _ ho)).rank
  have hbuffers : ∀ o ∈ s.action.operands, ∃ b, x.source temps o = .ok b ∧ b.dims = x.dimsOf o :=
    hi.buffers
  have hrange := hi.axes
  have compute : ∀ action, s.action.resolve (x.source temps) = .ok action →
      Tensor.checkAction (.zeros (x.dimsOf s.dst)) s.perm action = .ok () →
      ∃ f, x.compute s temps (x.dimsOf s.dst) = .ok f := fun action hact hchk =>
    ⟨_, compute_eq_ok.2 ⟨h, action, hact, hchk, rfl⟩⟩
  cases ha : s.action with
  | copy src =>
    rw [ha] at hsummed hranks hbuffers hrange hc compute
    cases hsummed
    have hm := List.mem_singleton_self src.operand
    obtain ⟨b, hb, hdims⟩ := hbuffers _ hm
    refine compute (.copy ⟨b, src.conj⟩) (by rw [Action.resolve, hb]; rfl) ?_
    have hnil : ∀ p ∈ ([] : List (Nat × Nat)), p.1 < x.plan.rankOf src.operand ∧
        p.2 < x.plan.rankOf src.operand := fun p hp => nomatch hp
    exact checkTrace_of_checked hdims (hranks _ hm) hrange.1 hnil hc rfl hreceived
  | trace src pairs =>
    rw [ha] at hsummed hranks hbuffers hrange hc compute
    obtain ⟨⟨⟩, hpairs, hsummed⟩ := bind_eq_ok.1 hsummed
    cases hsummed
    have hm := List.mem_singleton_self src.operand
    obtain ⟨b, hb, hdims⟩ := hbuffers _ hm
    refine compute (.trace ⟨b, src.conj⟩ pairs) (by rw [Action.resolve, hb]; rfl) ?_
    exact checkTrace_of_checked hdims (hranks _ hm) hrange.1 hrange.2 hc hpairs hreceived
  | contract a b axesA axesB =>
    rw [ha] at hsummed hranks hbuffers hrange hc compute
    obtain ⟨⟨⟩, hpairs, hsummed⟩ := bind_eq_ok.1 hsummed
    cases hsummed
    have hma : a.operand ∈ [a.operand, b.operand] := List.mem_cons_self
    have hmb : b.operand ∈ [a.operand, b.operand] :=
      List.mem_cons_of_mem _ (List.mem_singleton_self _)
    obtain ⟨u, hu, hudims⟩ := hbuffers _ hma
    obtain ⟨v, hv, hvdims⟩ := hbuffers _ hmb
    refine compute (.contract ⟨u, a.conj⟩ ⟨v, b.conj⟩ axesA axesB)
      (by rw [Action.resolve, hu, ok_bind, hv]; rfl) ?_
    exact checkContract_of_checked hudims hvdims (hranks _ hma) (hranks _ hmb) hrange.2.1
      hrange.2.2 hc.1 hrange.1 hc.2 hpairs hreceived

/-! ### What is known of the operands -/

theorem Fits.noted_input (hf : x.Fits) {i : Nat} (hi : i < x.plan.network.numFactors) :
    x.Noted (.input i) :=
  ⟨hf.ranked.rank i hi, fun _ _ h => nomatch h⟩

theorem Fits.noted_stored (hf : x.Fits) {v : Located} {fs : List Nat} (hv : v.Of x.plan.network fs)
    (hs : Lowering.Stored x.plan.network x.plan.temporaries v) : x.Noted v.source.operand := by
  cases hs with
  | input hi => exact hf.noted_input hi
  | @temporary slot labels extents hm =>
    have ht := hf.plan.temporary? hm
    have hlen : labels.length = extents.length := hv.length
    constructor
    · simp only [dimsOf, ht, Plan.rankOf, Plan.labelsOf, Option.map_some, Option.getD_some,
        List.length_map, hlen]
    · rintro slot' t ⟨rfl⟩ ht' e he
      obtain rfl := Option.some.inj (ht.symm.trans ht')
      -- The extents of a result are noted with their labels.
      have hsnd : (labels.zip extents).map (·.2) = extents :=
        List.map_snd_zip (Nat.le_of_eq hlen.symm)
      obtain ⟨a, ha, rfl⟩ := List.mem_map.1 (hsnd ▸ he)
      exact hasAxis_of_place hf.ranked (hv.axes.places a ha)

variable (hd : x.dstDims.length = x.plan.network.output.length)
include hd

theorem Fits.noted_dst (hf : x.Fits) {rest : List (Label × (Nat × Nat))} (hs : s ∈ x.plan.steps)
    (h : x.plan.StepOf s rest) : x.Noted s.dst := by
  rcases hf.plan.dst_cases hs with ⟨slot, hdst⟩ | hdst
  · obtain ⟨t, ht, hext⟩ := h.extents slot hdst
    obtain ⟨fs, haxes⟩ := h.axes
    constructor
    · have hdims : x.dimsOf s.dst = t.extents.map x.inputExtent := by simp only [hdst, dimsOf, ht]
      have hmem : ∀ l ∈ x.plan.labelsOf s.dst, l ∈ rest.map (·.1) := fun l hl =>
        h.labels.mem_iff.1 hl
      rw [hdims, hext, List.length_map, List.length_map, Lowering.length_positions hmem]
      rfl
    · intro slot' t' hslot ht' e he
      rw [hdst] at hslot
      cases hslot
      obtain rfl := Option.some.inj (ht.symm.trans ht')
      rw [hext] at he
      obtain ⟨j, hj, rfl⟩ := List.mem_map.1 he
      have hlt := Lowering.lt_of_mem_positions hj
      rw [List.length_map] at hlt
      rw [List.getD_eq_getElem?_getD, List.getElem?_eq_getElem hlt, Option.getD_some]
      exact hasAxis_of_place hf.ranked (haxes.places _ (List.getElem_mem hlt))
  · rw [hdst]
    refine ⟨hd, fun slot t h => ?_⟩
    cases h

omit hd in
theorem Fits.noted_source (hf : x.Fits) {rest : List (Label × (Nat × Nat))}
    (h : x.plan.StepOf s rest) : ∀ o ∈ s.sources, x.Noted o := by
  rw [Instruction.sources]
  cases h.does with
  | trace valid action perm =>
    rcases action with ha | ⟨ha, -⟩ <;>
    · rw [ha]
      intro o ho
      exact List.mem_singleton.1 ho ▸ hf.noted_input valid
  | contract sides left right action perm =>
    rw [action]
    intro o ho
    rcases List.mem_cons.1 ho with rfl | ho
    · exact hf.noted_stored sides.left sides.storedLeft
    · exact List.mem_singleton.1 ho ▸ hf.noted_stored sides.right sides.storedRight

/-- The temporaries that are held, by slot. -/
def slotsOf {τ : Type} (temps : List (Nat × τ)) : Set Nat := {slot | ∃ b, temps.lookup slot = some b}

omit hd in
theorem Fits.exists_source (hf : x.Fits) (ht : Sized x temps) {o : Operand}
    (h : x.plan.Readable (slotsOf temps) o) :
    ∃ b, x.source temps o = .ok b ∧ b.dims = x.dimsOf o := by
  cases o with
  | input i =>
    have hlen : i < x.inputs.length := by
      have hi : i < x.plan.network.numFactors := h
      rwa [← hf.ranked.length, hf.dims, List.length_map] at hi
    have hsrc : x.source temps (.input i) = .ok x.inputs[i] := by
      simp only [source, List.getElem?_eq_getElem hlen]
    exact ⟨_, hsrc, hf.dims_operand ht hsrc⟩
  | temporary slot =>
    obtain ⟨b, hb⟩ := h
    have hsrc : x.source temps (.temporary slot) = .ok b := by rw [source, hb]
    exact ⟨b, hsrc, hf.dims_operand ht hsrc⟩
  | destination => exact h.elim

/-- **What a step of the plan finds**, if what it reads is held. -/
theorem Fits.inRange (hf : x.Fits) (ht : Sized x temps) (hs : s ∈ x.plan.steps)
    (hread : ∀ o ∈ s.sources, x.plan.Readable (slotsOf temps) o) : x.InRange s temps := by
  obtain ⟨rest, h⟩ := hf.plan.stepOf hs
  refine ⟨h.inRange hf.plan, h.length_perm, fun o ho => ?_, fun o ho => ?_⟩
  · rcases List.mem_cons.1 ho with rfl | ho
    · exact hf.noted_dst hd hs h
    · exact hf.noted_source h o ho
  · exact hf.exists_source ht (hread o ho)

/-! ### Runs -/

/-- A run reaches a step in some state: the steps before it have succeeded. -/
def Reaches [DecidableEq κ] [∀ k, Element (A k)] (x : Execution κ (Tensors A) k σ (A k))
    (r : RunState (Tensors A) k σ) (s : Instruction) (r' : RunState (Tensors A) k σ) : Prop :=
  ∃ pre post, x.plan.steps = pre ++ s :: post ∧ x.steps pre r = (none, r')

omit hd in
theorem heldAfter_temporary {τ : Type} {temps : List (Nat × τ)} {slot : Nat}
    (hdst : s.dst = .temporary slot) (b : τ) : heldAfter (slotsOf temps) s ⊆
      slotsOf (s.sources.foldl dropRead ((slot, b) :: temps.filter fun u => u.1 != slot)) := by
  rintro j ⟨hheld, hread⟩
  show ∃ c, _
  rw [lookup_dropRead_foldl hread]
  by_cases hj : j = slot
  · exact ⟨b, hj ▸ List.lookup_cons_self⟩
  · have hb : (j == slot) = false := by simpa using hj
    rw [List.lookup_cons, hb]
    dsimp only
    rw [lookup_filter_ne, if_neg hj]
    refine hheld.resolve_right fun hs => hj ?_
    exact (Operand.temporary.inj (hdst.symm.trans hs)).symm

omit hd in
theorem heldAfter_destination {τ : Type} {temps : List (Nat × τ)} (hdst : s.dst = .destination) :
    heldAfter (slotsOf temps) s ⊆ slotsOf (s.sources.foldl dropRead temps) := by
  rintro j ⟨hheld, hread⟩
  show ∃ c, _
  rw [lookup_dropRead_foldl hread]
  exact hheld.resolve_right fun hs => nomatch hdst.symm.trans hs

variable [∀ k, Element (A k)] [DecidableEq κ] (hx : x.backend = .dense σ (A k))
variable {r : RunState (Tensors A) k σ} {q : Prop}

omit hd in
include hx in
/-- **A step whose extents were checked succeeds**, and holds what it wrote. -/
theorem Fits.step_checked (hf : x.Fits) (h : Held x q r) (hr : r.dst.dims = x.dstDims)
    (hs : s ∈ x.plan.steps) (hi : x.InRange s r.temps) (hchk : x.checkExtents s = .ok ()) :
    ∃ r', x.step s r = (none, r') ∧ r'.dst.dims = x.dstDims ∧
      heldAfter (slotsOf r.temps) s ⊆ slotsOf r'.temps := by
  obtain ⟨rest, hof⟩ := hf.plan.stepOf hs
  obtain ⟨f, hf'⟩ := hi.exists_compute (hof.complete hf.plan) hchk
  rcases hf.plan.dst_cases hs with ⟨slot, hdst⟩ | hdst
  · obtain ⟨b, c, hacq, hb, -⟩ := x.acquire_spec hx (fun hon => h.sound (h.enabled hon)) slot
    have hperf := perform_eq hx hchk r.temps b r.state
    rw [hb, ← hdst, hf'] at hperf
    refine ⟨_, by simp only [step, hchk, hdst, writeTemporary, hacq, hperf, finishStep]; rfl, ?_, ?_⟩
    · rw [dst_foldl_giveBackRead]
      exact hr
    · rw [temps_foldl_giveBackRead]
      exact heldAfter_temporary hdst _
  · have hperf := perform_eq hx hchk r.temps r.dst r.state
    have hdims : x.dimsOf s.dst = r.dst.dims := by rw [hdst, hr, dimsOf]
    rw [← hdims, hf'] at hperf
    refine ⟨_, by simp only [step, hchk, hdst, writeDestination, hperf, finishStep]; rfl, ?_, ?_⟩
    · rw [dst_foldl_giveBackRead]
      exact hr
    · rw [temps_foldl_giveBackRead]
      exact heldAfter_destination hdst

omit hd in
theorem step_unchecked {e : Error} (h : x.checkExtents s = .error e) :
    x.step s r = (some e, r) := by
  rw [step, h]

include hx in
/-- **Steps fail when the check of one of them fails**, with its failure. Each step that is reached
finds what it needs. -/
theorem Fits.steps_checked (hf : x.Fits) {ss : List Instruction} (hss : ∀ s ∈ ss, s ∈ x.plan.steps)
    {held : Set Nat} (hsup : x.plan.Supplied held ss) (hheld : held ⊆ slotsOf r.temps)
    (h : Held x q r) (hr : r.dst.dims = x.dstDims) :
    (x.steps ss r).1 = failureOf (ss.forM x.checkExtents) ∧
      ∀ pre s post r', ss = pre ++ s :: post → x.steps pre r = (none, r') →
        x.InRange s r'.temps := by
  induction ss generalizing r held with
  | nil => exact ⟨rfl, fun pre s post r' he => by simp at he⟩
  | cons s ss ih =>
    obtain ⟨hread, hsup⟩ := hsup
    have hs := hss s List.mem_cons_self
    have hi : x.InRange s r.temps := hf.inRange hd h.dims hs fun o ho =>
      (hread o ho).mono fun _ _ hslot => hheld hslot
    rw [forM_cons, steps]
    cases hchk : x.checkExtents s with
    | error e =>
      rw [step_unchecked hchk]
      refine ⟨rfl, fun pre s' post r' he hpre => ?_⟩
      cases pre with
      | nil =>
        cases hpre
        cases he
        exact hi
      | cons s'' pre =>
        cases he
        rw [steps, step_unchecked hchk] at hpre
        cases hpre
    | ok u =>
      obtain ⟨r₁, hstep, hr₁, hheld₁⟩ := hf.step_checked hx h hr hs hi hchk
      have h₁ := h.step hx s
      rw [hstep] at h₁
      have hheld' : heldAfter held s ⊆ slotsOf r₁.temps := fun slot hslot =>
        hheld₁ ⟨hslot.1.imp_left fun hm => hheld hm, hslot.2⟩
      obtain ⟨hfail, hreach⟩ := ih (fun s' hs' => hss s' (List.mem_cons_of_mem _ hs')) hsup hheld'
        h₁ hr₁
      rw [hstep]
      refine ⟨hfail, fun pre s' post r' he hpre => ?_⟩
      cases pre with
      | nil =>
        cases hpre
        cases he
        exact hi
      | cons s'' pre =>
        cases he
        rw [steps, hstep] at hpre
        exact hreach pre s' post r' rfl hpre

include hx in
/-- **A run fails when the check of one of its steps fails**, with its failure, and each step that
is reached finds what it needs. The cache may be in any state in which it hands out buffers of the
right extents. -/
theorem Fits.run_checked (hf : x.Fits) {c : Cache (Tensors A)} (hc : c.enabled = true → c.Fitting)
    {dst : Tensor (A k)} (hdst : dst.dims = x.dstDims) (t : σ) :
    (x.run c dst t).1.failure = failureOf (x.plan.steps.forM x.checkExtents) ∧
      ∀ s r, x.Reaches ⟨c, [], dst, t⟩ s r → x.InRange s r.temps := by
  have hheld : Held x (c.enabled = true) ⟨c, [], dst, t⟩ := .start hc id dst t
  obtain ⟨hfail, hreach⟩ := hf.steps_checked hd hx (fun s hs => hs) hf.plan.supplied
    (Set.empty_subset _) hheld hdst
  exact ⟨hfail, fun s r ⟨pre, post, hsplit, hpre⟩ => hreach pre s post r hsplit hpre⟩

end Execution

end TensorNet
