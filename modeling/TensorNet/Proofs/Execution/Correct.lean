import Mathlib
import TensorNet.Proofs.Execution.Aligned
import TensorNet.Proofs.Execution.Calls
import TensorNet.Proofs.Tree.Value

/-!
# What a plan computes

By induction on the tree: after the steps of a subtree, the buffer of its result shows the nested
sums of the subtree, and the temporaries of other nodes are as they were. The last step blends the
value of the whole tree into the destination, and this value is the sum of the product of all
factors over all contracted labels.
-/

namespace TensorNet

namespace Execution

open Lowering

theorem source_temporary {κ : Type} {β : κ → Type} {k : κ} {σ α : Type} {x : Execution κ β k σ α}
    {temps : List (Nat × β k)} {slot : Nat} {b : β k} (h : temps.lookup slot = some b) :
    x.source temps (.temporary slot) = .ok b := by
  rw [source, h]

variable {κ : Type} {A : κ → Type} [∀ k, Element (A k)] {k : κ} {σ : Type}
variable {x : Execution κ (Tensors A) k σ (A k)} {dim : Label → Nat}
variable {temps : List (Nat × Tensor (A k))}

/-- What is read for a result has the values of a function. -/
def Reads (x : Execution κ (Tensors A) k σ (A k)) (dim : Label → Nat)
    (temps : List (Nat × Tensor (A k))) (v : Located) (f : Values → A k) : Prop :=
  ∃ t, x.source temps v.source.operand = .ok t ∧ Shows dim t v.source.conj v.labels f

theorem Reads.mono {temps' : List (Nat × Tensor (A k))} {v : Located} {f : Values → A k}
    (h : Reads x dim temps v f) (hlook : ∀ slot, v.source.operand = .temporary slot →
      temps'.lookup slot = temps.lookup slot) : Reads x dim temps' v f := by
  obtain ⟨t, ht, hshow⟩ := h
  refine ⟨t, ?_, hshow⟩
  rw [← ht]
  cases ho : v.source.operand with
  | temporary slot => rw [source, hlook slot ho, source]
  | input i => rfl
  | destination => rfl

/-- A tensor made from a function shows it. -/
theorem shows_ofFn [LawfulElement (A k)] {ls : List Label} {g : List Nat → A k} {f : Values → A k}
    (h : ∀ a : Values, (∀ l ∈ ls, a l < dim l) → g (ls.map a) = f a) :
    Shows dim (Tensor.ofFn (ls.map dim) fun i => 1 * g i) false ls f := by
  refine ⟨rfl, fun a ha => ?_⟩
  have hin : Index.inRange (ls.map a) (ls.map dim) = true := Index.inRange_map.2 ha
  have hget := Tensor.get?_ofFn (fun i => 1 * g i) hin
  rw [Tensor.get?_eq_read _ hin] at hget
  exact (Option.some.inj hget).trans ((LawfulElement.one_mul _).trans (h a ha))

/-- **A step that writes a temporary** with what it computes. -/
theorem hold_spec [LawfulElement (A k)] {s : Instruction} {id : Nat} {ls : List Label}
    {g : List Nat → A k} {f : Values → A k} (hdst : s.dst = .temporary id)
    (hdims : x.dimsOf (.temporary id) = ls.map dim)
    (hcomp : x.compute s temps (ls.map dim) = .ok g)
    (hg : ∀ a : Values, (∀ l ∈ ls, a l < dim l) → g (ls.map a) = f a)
    (hread : .temporary id ∉ s.sources) :
    ∃ temps', x.hold temps s = .ok temps' ∧
      (∃ t, temps'.lookup id = some t ∧ Shows dim t false ls f) ∧
      ∀ slot, slot ≠ id → .temporary slot ∉ s.sources → temps'.lookup slot = temps.lookup slot := by
  have hhold : x.hold temps s = .ok (s.sources.foldl dropRead
      ((id, Tensor.ofFn (ls.map dim) fun i => 1 * g i) :: temps.filter fun u => u.1 != id)) := by
    rw [hold, hdst]
    dsimp only
    rw [hdims, hcomp]
    rfl
  refine ⟨_, hhold, ⟨_, ?_, shows_ofFn hg⟩, fun slot hne hs => ?_⟩
  · rw [lookup_dropRead_foldl hread, List.lookup_cons_self]
  · have hb : (slot == id) = false := by simpa using hne
    rw [lookup_dropRead_foldl hs, List.lookup_cons, hb]
    dsimp only
    rw [lookup_filter_ne, if_neg hne]

/-- The inputs show the values of the factors. -/
theorem Aligned.reads_input (h : x.Aligned dim) {i : Nat} (hi : i < x.plan.network.numFactors) :
    ∃ t, x.source temps (.input i) = .ok t ∧
      Shows dim t (x.plan.network.factor i).conj (x.plan.network.factor i).labels
        (x.plan.network.factorValue x.inputs i) := by
  have hlen : x.inputs.length = x.plan.network.numFactors := by
    have := h.fits.ranked.length
    rwa [h.fits.dims, List.length_map] at this
  have hget := List.getElem?_eq_getElem (hlen.symm ▸ hi : i < x.inputs.length)
  have hdims : x.inputs[i].dims = (x.plan.network.factor i).labels.map dim := by
    rw [← h.dims_input hi, h.fits.dims, List.getD_eq_getElem?_getD, List.getElem?_map, hget]
    rfl
  refine ⟨x.inputs[i], ?_, hdims, fun a ha => ?_⟩
  · simp only [source, hget]
  · have hin : Index.inRange ((x.plan.network.factor i).labels.map a) x.inputs[i].dims = true :=
      hdims ▸ Index.inRange_map.2 ha
    rw [Network.factorValue, List.getD_eq_getElem?_getD, hget, Option.getD_some,
      Tensor.entry_eq_read _ hin]

/-- A traced factor in a temporary. -/
theorem Aligned.hold_trace [LawfulElement (A k)] (h : x.Aligned dim) {i id : Nat}
    (hi : i < x.plan.network.numFactors) {ls : List Label}
    (hls : ls = (traceAxes (x.plan.network.factor i) i).map (·.1))
    (hdims : x.dimsOf (.temporary id) = ls.map dim) (temps : List (Nat × Tensor (A k))) :
    ∃ temps', x.hold temps ⟨.trace ⟨.input i, (x.plan.network.factor i).conj⟩
        (pairsFrom 0 (x.plan.network.factor i).labels), .temporary id,
        tracePerm (x.plan.network.factor i) i ls, .one, .zero⟩ = .ok temps' ∧
      (∃ t, temps'.lookup id = some t ∧ Shows dim t false ls
        (sumOver dim (tracedLabels (x.plan.network.factor i).labels)
          (x.plan.network.factorValue x.inputs i))) ∧
      ∀ slot, slot ≠ id → temps'.lookup slot = temps.lookup slot := by
  obtain ⟨u, hu, hshow⟩ := h.reads_input hi
  have hu' : x.source temps (.input i) = .ok u := hu
  obtain ⟨F, hF, hval⟩ := h.compute_trace (s := ⟨.trace ⟨.input i, (x.plan.network.factor i).conj⟩
    (pairsFrom 0 (x.plan.network.factor i).labels), .temporary id,
    tracePerm (x.plan.network.factor i) i ls, .one, .zero⟩) hi (hls ▸ List.Perm.refl _) (.inl rfl)
    rfl hdims hu' hshow
  have hread : ∀ slot, Operand.temporary slot ∉ [Operand.input i] := fun slot => by simp
  obtain ⟨temps', h1, h2, h3⟩ := hold_spec rfl hdims hF hval (hread id)
  exact ⟨temps', h1, h2, fun slot hne => h3 slot hne (hread slot)⟩

/-- A contraction in a temporary. -/
theorem Aligned.hold_join [LawfulElement (A k)] (h : x.Aligned dim) {a b : Located}
    {fs gs : List Nat} {cs ls : List Label}
    (hs : Sides x.plan.network x.plan.temporaries fs gs a b cs)
    (hls : ls = (joinAxes a b cs).map (·.1)) {id : Nat}
    (hdims : x.dimsOf (.temporary id) = ls.map dim) {f g : Values → A k}
    (hf : Reads x dim temps a f) (hg : Reads x dim temps b g)
    (hread : .temporary id ∉ [a.source.operand, b.source.operand]) :
    ∃ temps', x.hold temps ⟨.contract a.source b.source (positions cs a.labels)
        (positions cs b.labels), .temporary id,
        positions ls ((joinAxes a b cs).map (·.1)), .one, .zero⟩ = .ok temps' ∧
      (∃ t, temps'.lookup id = some t ∧
        Shows dim t false ls (sumOver dim cs fun v => f v * g v)) ∧
      ∀ slot, slot ≠ id → .temporary slot ∉ [a.source.operand, b.source.operand] →
        temps'.lookup slot = temps.lookup slot := by
  obtain ⟨u, hu, hfu⟩ := hf
  obtain ⟨w, hw, hgw⟩ := hg
  obtain ⟨F, hF, hval⟩ := h.compute_contract (s := ⟨.contract a.source b.source
    (positions cs a.labels) (positions cs b.labels), .temporary id,
    positions ls ((joinAxes a b cs).map (·.1)), .one, .zero⟩) hs
    (hls ▸ List.Perm.refl _) rfl rfl hdims hu hw hfu hgw
  exact hold_spec rfl hdims hF hval hread

/-- **What the steps of a subtree do**: they leave its value in the buffer of its result, and leave
the buffers of other nodes alone. -/
def Evaluates (x : Execution κ (Tensors A) k σ (A k)) (dim : Label → Nat) (t : TreeNode) : Prop :=
  ∀ temps, ∃ temps', (lowerNode x.plan.network false t).steps.foldlM x.hold temps = .ok temps' ∧
    Reads x dim temps' (lowerNode x.plan.network false t).result
      (t.value x.plan.network dim x.inputs) ∧
    ∀ slot, slot ∉ t.ids → temps'.lookup slot = temps.lookup slot

/-- One side after the other. The second leaves the result of the first alone. -/
theorem Evaluates.sides {l r : TreeNode} (hl : Evaluates x dim l) (hr : Evaluates x dim r)
    (hs : Stored x.plan.network (lowerNode x.plan.network false l).temporaries
      (lowerNode x.plan.network false l).result)
    (hd : ∀ i ∈ l.ids, ∀ j ∈ r.ids, i ≠ j) (temps : List (Nat × Tensor (A k))) :
    ∃ temps', ((lowerNode x.plan.network false l).steps ++
        (lowerNode x.plan.network false r).steps).foldlM x.hold temps = .ok temps' ∧
      Reads x dim temps' (lowerNode x.plan.network false l).result
        (l.value x.plan.network dim x.inputs) ∧
      Reads x dim temps' (lowerNode x.plan.network false r).result
        (r.value x.plan.network dim x.inputs) ∧
      ∀ slot, slot ∉ l.ids → slot ∉ r.ids → temps'.lookup slot = temps.lookup slot := by
  obtain ⟨temps₁, h₁, hread₁, hother₁⟩ := hl temps
  obtain ⟨temps₂, h₂, hread₂, hother₂⟩ := hr temps₁
  refine ⟨temps₂, ?_, hread₁.mono fun slot hslot => ?_, hread₂, fun slot hsl hsr => ?_⟩
  · rw [List.foldlM_append, h₁]
    exact h₂
  · exact hother₂ slot fun hm => hd slot (mem_ids_of_stored hs hslot) slot hm rfl
  · rw [hother₂ slot hsr, hother₁ slot hsl]

/-- A leaf is evaluated. -/
theorem Aligned.evaluates_leaf [LawfulElement (A k)] (h : x.Aligned dim) {costs : List Cost}
    {id i : Nat} {s : LabelSet}
    (ht : Listed x.plan.network costs x.plan.temporaries (.leaf id i s)) :
    Evaluates x dim (.leaf id i s) := by
  intro temps
  obtain ⟨hb, hn, -, hsub⟩ := ht
  obtain ⟨hof, -⟩ := of_lowerNode h.fits.plan.network hb hn
  obtain ⟨hi⟩ := hb
  rw [lowerNode, lowerLeaf] at hsub hof ⊢
  cases hp : pairsFrom 0 (x.plan.network.factor i).labels with
  | nil =>
    obtain ⟨u, hu, hshow⟩ := h.reads_input hi
    have hvalue : x.plan.network.factorValue x.inputs i =
        sumOver dim (tracedLabels (x.plan.network.factor i).labels)
          (x.plan.network.factorValue x.inputs i) := by
      funext a
      rw [tracedLabels, hp]
      rfl
    rw [hvalue] at hshow
    exact ⟨temps, rfl, ⟨u, hu, hshow⟩, fun _ _ => rfl⟩
  | cons p ps =>
    simp only [hp] at hsub hof ⊢
    rw [← hp, traceInput_eq] at hsub hof ⊢
    have hdims := h.dimsOf_temporary hof (hsub _ (List.mem_singleton_self _))
    obtain ⟨temps', hhold, ⟨t, ht, hshow⟩, hother⟩ := h.hold_trace hi rfl hdims temps
    exact ⟨temps', foldlM_single hhold, ⟨t, source_temporary ht, hshow⟩,
      fun slot hs => hother slot fun he => hs (List.mem_singleton.2 he)⟩

/-- A join is evaluated when its sides are. -/
theorem Aligned.evaluates_join [LawfulElement (A k)] (h : x.Aligned dim) {costs : List Cost}
    {id : Nat} {l r : TreeNode} {c : Cost} {s : LabelSet}
    (ht : Listed x.plan.network costs x.plan.temporaries
      (.join id l r ((l.openSet.inter r.openSet).toList.map x.plan.network.label) c s))
    (hj : Joined x.plan.network costs x.plan.temporaries l r) (hl : Evaluates x dim l)
    (hr : Evaluates x dim r) : Evaluates x dim
      (.join id l r ((l.openSet.inter r.openSet).toList.map x.plan.network.label) c s) := by
  intro temps
  have hnet := h.fits.plan.network
  have hsides := hj.sides hnet
  obtain ⟨-, hls⟩ := of_lowerNode hnet hj.left.built hj.left.factors
  obtain ⟨-, hrs⟩ := of_lowerNode hnet hj.right.built hj.right.factors
  obtain ⟨hof, -⟩ := of_lowerNode hnet ht.built ht.factors
  have hsub := ht.temporaries
  have hids := ht.ids
  rw [TreeNode.ids_join, List.nodup_append] at hids
  rw [lowerNode] at hsub hof ⊢
  simp only [joinResults_eq] at hsub hof ⊢
  have hdims := h.dimsOf_temporary hof
    (hsub _ (List.mem_append_right _ (List.mem_singleton_self _)))
  obtain ⟨temps₁, h₁, hreadl, hreadr, hother₁⟩ := hl.sides hr hls hj.ids temps
  have hslots : ∀ slot, .temporary slot ∈
      [(lowerNode x.plan.network false l).result.source.operand,
        (lowerNode x.plan.network false r).result.source.operand] → slot ∈ l.ids ++ r.ids := by
    intro slot hm
    rcases List.mem_cons.1 hm with he | hm
    · exact List.mem_append_left _ (mem_ids_of_stored hls he.symm)
    · exact List.mem_append_right _ (mem_ids_of_stored hrs (List.mem_singleton.1 hm).symm)
  obtain ⟨temps₂, hhold, ⟨t, ht, hshow⟩, hother₂⟩ := h.hold_join hsides rfl hdims hreadl hreadr
    fun hm => hids.2.2 id (hslots id hm) id (List.mem_singleton_self id) rfl
  refine ⟨temps₂, ?_, ⟨t, source_temporary ht, hshow⟩, fun slot hs => ?_⟩
  · rw [List.foldlM_append, h₁]
    exact foldlM_single hhold
  · rw [TreeNode.ids_join, List.mem_append, not_or, List.mem_append, not_or] at hs
    rw [hother₂ slot (fun he => hs.2 (List.mem_singleton.2 he)) fun hm => ?_,
      hother₁ slot hs.1.1 hs.1.2]
    exact (List.mem_append.1 (hslots slot hm)).elim hs.1.1 hs.1.2

/-- **Every subtree is evaluated.** -/
theorem Aligned.evaluates [LawfulElement (A k)] (h : x.Aligned dim) {costs : List Cost}
    {t : TreeNode} (ht : Listed x.plan.network costs x.plan.temporaries t) :
    Evaluates x dim t := by
  obtain ⟨hb, hn, hids, hsub⟩ := id ht
  induction hb with
  | leaf hi => exact h.evaluates_leaf ht
  | join hl hr hc ihl ihr =>
    have hj := ht.joined
    exact h.evaluates_join ht hj
      (ihl hj.left hj.left.factors hj.left.ids hj.left.temporaries)
      (ihr hj.right hj.right.factors hj.right.ids hj.right.temporaries)

/-! ### The whole plan -/

/-- **The last step of a plan** computes the value of the whole tree, from what the steps before it
leave. -/
theorem Aligned.exists_compute [LawfulElement (A k)] (h : x.Aligned dim) {init : List Instruction}
    {last : Instruction} (hs : x.plan.steps = init ++ [last]) :
    ∃ temps F, init.foldlM x.hold [] = .ok temps ∧
      x.compute last temps (x.plan.network.output.map dim) = .ok F ∧
      ∀ v : Values, (∀ l ∈ x.plan.network.output, v l < dim l) →
        F (x.plan.network.output.map v) =
          x.plan.tree.root.value x.plan.network dim x.inputs v := by
  have hnet := h.fits.plan.network
  have hall : ∀ i < x.plan.network.numFactors, i ∈ x.plan.tree.root.factors := fun i hi =>
    h.fits.plan.mem_factors hi
  cases h.fits.plan.ends hs with
  | trace root valid init dst action perm =>
    rw [root] at hall ⊢
    subst init
    obtain ⟨u, hu, hshow⟩ := h.reads_input valid
    obtain ⟨F, hF, hval⟩ := h.compute_trace (s := last) valid
      (hnet.perm_output hall (axesOf_traceAxes hnet valid)) action perm (dst ▸ h.dstDims) hu hshow
    exact ⟨[], F, rfl, hF, hval⟩
  | contract root joined sides init dst action perm =>
    rw [root] at hall ⊢
    subst init
    obtain ⟨-, hls⟩ := of_lowerNode hnet joined.left.built joined.left.factors
    obtain ⟨temps, hfold, ⟨u, hu, hfu⟩, ⟨w, hw, hgw⟩, -⟩ :=
      (h.evaluates joined.left).sides (h.evaluates joined.right) hls joined.ids []
    obtain ⟨F, hF, hval⟩ := h.compute_contract (s := last) sides
      (hnet.perm_output hall (sides.axes hnet)) action perm (dst ▸ h.dstDims) hu hw hfu hgw
    exact ⟨temps, F, hfold, hF, hval⟩

end Execution

/-! ### The sum over all contracted labels -/

namespace Network

/-- **What a network stands for**, at a multi-index of the output: the sum over all values of the
contracted labels of the product of all factors, each conjugated when its own flag and the flag for
the whole expression differ. -/
def contraction {α : Type} [Element α] (net : Network) (dim : Label → Nat)
    (inputs : List (Tensor α)) (conj : Bool) (index : List Nat) : α :=
  sumOver dim net.contracted
    (fun a => ((net.factors.zip inputs).map fun p =>
      conjIf (p.1.conj ^^ conj) (p.2.entry (p.1.labels.map a))).prod)
    (Values.set (fun _ => 0) net.output index)

theorem product_range {α : Type} [Element α] {net : Network} {inputs : List (Tensor α)}
    (h : inputs.length = net.numFactors) (a : Values) :
    TreeNode.product net inputs (List.range net.numFactors) a =
      ((net.factors.zip inputs).map fun p =>
        conjIf p.1.conj (p.2.entry (p.1.labels.map a))).prod := by
  refine congrArg List.prod (List.ext_getElem ?_ fun i h₁ h₂ => ?_)
  · rw [List.length_map, List.length_range, List.length_map, List.length_zip, h]
    exact (Nat.min_self _).symm
  · have hi : i < net.numFactors := by simpa using h₁
    have hin : i < inputs.length := h ▸ hi
    have hfac : net.factors[i]? = some (net.factor i) := getElem?_factors hi
    rw [List.getElem_map, List.getElem_range, List.getElem_map, List.getElem_zip, factorValue,
      List.getD_eq_getElem?_getD, List.getElem?_eq_getElem hin, Option.getD_some,
      (List.getElem?_eq_some_iff.1 hfac).2]

end Network

namespace Plan

open Network

section

attribute [local instance] LawfulElement.commSemiring

/-- **The value of the tree is what the network stands for.** -/
theorem Proper.value_eq {α : Type} [Element α] [LawfulElement α] {p : Plan} (hp : p.Proper)
    {inputs : List (Tensor α)} (hlen : inputs.length = p.network.numFactors) (dim : Label → Nat)
    (index : List Nat) :
    p.tree.root.value p.network dim inputs (Values.set (fun _ => 0) p.network.output index) =
      p.network.contraction dim inputs false index := by
  obtain ⟨costs, htree⟩ := hp.tree
  have hn := htree.factors.nodup_iff.2 List.nodup_range
  have hall : ∀ i < p.network.numFactors, i ∈ p.tree.root.factors := fun i hi =>
    htree.factors.mem_iff.2 (List.mem_range.2 hi)
  obtain ⟨hsn, hsm⟩ := TreeNode.summed_spec hp.network htree.built hn
  have hperm : (p.tree.root.summed p.network).Perm p.network.contracted := by
    refine (List.perm_ext_iff_of_nodup hsn hp.network.nodup_contracted).2 fun l => ?_
    rw [hsm, hp.network.mem_contracted, timesIn_all hall]
  have hprod : TreeNode.product p.network inputs p.tree.root.factors =
      fun a => ((p.network.factors.zip inputs).map fun q =>
        conjIf (q.1.conj ^^ false) (q.2.entry (q.1.labels.map a))).prod := by
    funext a
    simp only [Bool.xor_false]
    rw [← product_range hlen]
    exact (htree.factors.map _).prod_eq
  rw [TreeNode.value_eq hp.network htree.built hn, sumOver_perm hperm hsn, hprod]
  rfl

end

theorem contraction_conjugated {α : Type} [Element α] (net : Network) (dim : Label → Nat)
    (inputs : List (Tensor α)) (conj : Bool) (index : List Nat) :
    (if conj then net.conjugated else net).contraction dim inputs false index =
      net.contraction dim inputs conj index := by
  cases conj with
  | false => rfl
  | true =>
    have hprod : ∀ a : Values, ((net.conjugated.factors.zip inputs).map fun p =>
        conjIf (p.1.conj ^^ false) (p.2.entry (p.1.labels.map a))).prod =
          ((net.factors.zip inputs).map fun p =>
            conjIf (p.1.conj ^^ true) (p.2.entry (p.1.labels.map a))).prod := by
      intro a
      rw [Network.conjugated, List.zip_map_left, List.map_map]
      refine congrArg List.prod (List.map_congr_left fun q _ => ?_)
      simp only [Function.comp_apply, Prod.map_fst, Prod.map_snd, id_eq, Bool.xor_false,
        Bool.xor_true]
    exact congrArg (fun f => sumOver dim net.contracted f _) (funext hprod)

variable {κ : Type} {A : κ → Type} [∀ k, Element (A k)] {k : κ} {σ : Type}

/-- A blend obeys the law that it stands for. -/
theorem blend_eq {α : Type} [Element α] [LawfulElement α] (alpha beta old x : α) :
    Tensor.blend alpha beta old x = beta * old + alpha * x := by
  rw [Tensor.blend]
  split
  · next h =>
    rw [(LawfulElement.isZero_iff beta).1 h, LawfulElement.zero_mul, LawfulElement.zero_add]
  · rfl

/-- Inputs on which every label has one extent have the ranks of the factors. -/
theorem ranked_of_dims {p : Plan} {dim : Label → Nat} {ds : List (List Nat)}
    (hin : ds = p.network.factors.map fun f => f.labels.map dim) : p.Ranked ds := by
  subst hin
  refine ⟨List.length_map .., fun i hi => ?_⟩
  rw [List.getD_eq_getElem?_getD, List.getElem?_map, getElem?_factors hi]
  exact List.length_map ..

/-- The answer to an aligned run is blended from the old destination and the sum that the network
stands for. -/
theorem Proper.answer_eq [LawfulElement (A k)] {p : Plan} (hp : p.Proper) {dim : Label → Nat}
    {inputs : List (Tensor (A k))}
    (hin : inputs.map Tensor.dims = p.network.factors.map fun f => f.labels.map dim)
    {init : List Instruction} {last : Instruction} (hs : p.steps = init ++ [last])
    (context : ExecutionContext) (model : Tensor (A k)) (alpha beta : A k) {dst : Tensor (A k)}
    (hd : dst.dims = p.network.output.map dim) :
    ∃ result, (p.running σ context inputs model dst.dims alpha beta).answer init last dst =
        ⟨result, none⟩ ∧
      result.dims = dst.dims ∧ ∀ o, Index.inRange o dst.dims = true → result.get? o =
        some (beta * dst.entry o + alpha * p.network.contraction dim inputs false o) := by
  have hlen : inputs.length = p.network.numFactors := by
    have := congrArg List.length hin
    rwa [List.length_map, List.length_map] at this
  have haligned : (p.running σ context inputs model dst.dims alpha beta).Aligned dim :=
    ⟨⟨hp, rfl, ranked_of_dims hin⟩, hin, hd⟩
  obtain ⟨temps, F, hfold, hcomp, hval⟩ := haligned.exists_compute hs
  replace hcomp : (p.running σ context inputs model dst.dims alpha beta).compute last temps
    (p.network.output.map dim) = .ok F := hcomp
  replace hval : ∀ v : Values, (∀ l ∈ p.network.output, v l < dim l) →
    F (p.network.output.map v) = p.tree.root.value p.network dim inputs v := hval
  refine ⟨dst.blendFn alpha beta F, Execution.answer_eq_iff.2 ⟨temps, F, hfold, hd ▸ hcomp, rfl⟩,
    rfl, fun o ho => ?_⟩
  -- An index of the destination is the list of the values that it gives to the output labels.
  have holen : o.length = p.network.output.length := by
    rw [Index.length_of_inRange ho, hd, List.length_map]
  have hback := Values.map_set (a := fun _ => 0) hp.network.nodup_output holen
  have hrange : ∀ l ∈ p.network.output, Values.set (fun _ => 0) p.network.output o l < dim l := by
    rw [← Index.inRange_map, hback, ← hd]
    exact ho
  have hF : F o = p.network.contraction dim inputs false o := by
    rw [← hp.value_eq hlen, ← hval _ hrange, hback]
  rw [Tensor.get?_blendFn alpha beta dst F ho, blend_eq, hF]

/-- A plan has the network that it was made for, conjugated if its settings say so. -/
theorem network_of_create {α : Type} [Element α] {ids ids' : PlanIds} {net : Network}
    {config : PlanConfig} {p : Plan} (hp : create ids net config = .ok (p, ids'))
    (dim : Label → Nat) (inputs : List (Tensor α)) :
    p.network.output = net.output ∧
      (p.network.factors.map fun f => f.labels.map dim) =
        net.factors.map (fun f => f.labels.map dim) ∧
      ∀ o, p.network.contraction dim inputs false o =
        net.contraction dim inputs config.conjugate o := by
  rw [(create_eq hp).1]
  refine ⟨?_, ?_, contraction_conjugated net dim inputs config.conjugate⟩
  · split
    · rfl
    · rfl
  · split
    · exact List.map_map
    · rfl

/-- **A plan computes what its network stands for.** With a cache that is empty or switched off,
and inputs on which every label has one extent, both kinds of calls succeed. -/
theorem computes_contraction [DecidableEq κ] [LawfulElement (A k)] {factors : List Factor}
    {output : Option (List Label)} {net : Network} (hnet : Network.build factors output = .ok net)
    {ids ids' : PlanIds} {config : PlanConfig} {p : Plan}
    (hp : create ids net config = .ok (p, ids')) {dim : Label → Nat}
    {inputs : List (Tensor (A k))}
    (hin : inputs.map Tensor.dims = net.factors.map fun f => f.labels.map dim)
    {c : Cache (Tensors A)} (hc : c.enabled = false ∨ c.isEmpty = true)
    (context : ExecutionContext) (alpha : A k) (t : σ) :
    (∀ (beta : A k) (dst : Tensor (A k)), dst.dims = net.output.map dim → ∃ result,
      (p.executeInto (.dense σ (A k)) context inputs alpha beta c dst t).1 = ⟨result, none⟩ ∧
        result.dims = dst.dims ∧
        ∀ o, Index.inRange o dst.dims = true → result.get? o =
          some (beta * dst.entry o + alpha * net.contraction dim inputs config.conjugate o)) ∧
    ∃ result, (p.execute (.dense σ (A k)) context inputs alpha c t).1 = .ok result ∧
      result.dims = net.output.map dim ∧
      ∀ o, Index.inRange o result.dims = true → result.get? o =
        some (alpha * net.contraction dim inputs config.conjugate o) := by
  obtain ⟨hlaw, -⟩ := Network.lawful_of_build hnet
  obtain ⟨init, last, hs, hi, hf⟩ := exists_steps_of_create hp
  have hproper := proper_of_create hlaw hp
  have hzero : Element.isZero (0 : A k) = true := (LawfulElement.isZero_iff 0).2 rfl
  have hfit : c.enabled = true → c.Fitting := fun hon => hc.elim
    (fun hoff => absurd (hon.symm.trans hoff) nofun) Cache.sound_of_isEmpty
  obtain ⟨houtput, hfactors, hsum⟩ := network_of_create hp dim inputs
  have hin' := hin.trans hfactors.symm
  have hinputs : inputs ≠ [] := by
    rintro rfl
    have hpos := hlaw.pos
    rw [Network.numFactors, List.map_eq_nil_iff.1 hin.symm] at hpos
    exact Nat.lt_irrefl 0 hpos
  obtain ⟨model, hm⟩ : ∃ model, inputs.head? = some model := ⟨_, List.head?_eq_some_head hinputs⟩
  have hranked := ranked_of_dims hin'
  constructor
  · intro beta dst hd
    rw [← houtput] at hd
    have hlen : dst.dims.length = p.network.output.length := by rw [hd, List.length_map]
    obtain ⟨result, hans, hdims, hget⟩ :=
      hproper.answer_eq (σ := σ) hin' hs context model alpha beta hd
    refine ⟨result, ?_, hdims, fun o ho => ?_⟩
    · rw [p.executeInto_eq_run context inputs alpha beta hm hranked hlen,
        run_running hzero hs hi hf hfit, hans]
    · rw [hget o ho, hsum]
  · have haligned : (p.running σ context inputs model (p.network.output.map dim) alpha 0).Aligned
        dim :=
      ⟨⟨hproper, rfl, hranked⟩, hin', rfl⟩
    obtain ⟨temps, F, hfold, hcomp, -⟩ := haligned.exists_compute hs
    have hdims : p.outputDims (inputs.map Tensor.dims) = .ok (p.network.output.map dim) :=
      haligned.fits.outputDims_of_compute hs (Execution.sized_foldlM hfold) hcomp
    obtain ⟨_, rfl, hrun⟩ := p.execute_eq_run context inputs alpha hm hdims c t
    have hd : (Tensor.zeros (p.network.output.map dim) : Tensor (A k)).dims =
      p.network.output.map dim := rfl
    obtain ⟨result, hans, hrd, hget⟩ :=
      hproper.answer_eq (σ := σ) hin' hs context model alpha 0 hd
    refine ⟨result, ?_, hrd.trans (houtput ▸ rfl), fun o ho => ?_⟩
    · rw [hrun, run_running hzero hs hi hf hfit]
      exact congrArg returned hans
    · rw [hget o (hrd ▸ ho), hsum, LawfulElement.zero_mul, LawfulElement.zero_add]

/-- A product of three matrices of integers, blended into a destination. -/
theorem computes_contraction_chain :
    let inputs : List (Tensor Int) := [.fill [1, 2] 1, .fill [2, 1] 3, .fill [1, 2] 2]
    ∃ result : Tensor Int,
      (chain.executeInto (k := ()) (.dense Unit Int) default inputs 5 3
        (.disabled : Cache (Tensors fun _ : Unit => Int)) (.fill [1, 2] 7) ()).1 =
          ⟨result, none⟩ ∧
        result.get? [0, 1] = some (3 * 7 + 5 * 12) := by
  intro inputs
  have hin : inputs.map Tensor.dims = Network.chain.factors.map fun f =>
      f.labels.map fun l => if l = .int 1 ∨ l = .int (-2) then 2 else 1 := rfl
  obtain ⟨result, hrun, -, hget⟩ := (computes_contraction (k := ()) (A := fun _ : Unit => Int)
    Network.build_chain create_chain hin (c := .disabled) (.inl rfl) default 5 ()).1 3
      (.fill [1, 2] 7) rfl
  refine ⟨result, hrun, (hget [0, 1] rfl).trans ?_⟩
  cbv

end Plan

end TensorNet
