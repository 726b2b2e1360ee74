import Mathlib.Algebra.BigOperators.Ring.List
import TensorNet.Proofs.Backend.Values

/-!
# The value of a tree

A tree stands for nested sums: a leaf sums its factor over the labels that stand twice on it, and a
join sums the product of its sides over their common labels. All these sums together run over the
labels that occur twice in the factors of the tree, each of them once, and the nested sums are one
sum of the product of all factors.
-/

namespace TensorNet

/-- The values of a factor, read off its tensor. -/
def Network.factorValue {α : Type} [Element α] (net : Network) (inputs : List (Tensor α)) (i : Nat)
    (a : Values) : α :=
  conjIf (net.factor i).conj ((inputs.getD i (.zeros [])).entry ((net.factor i).labels.map a))

/-- Of the labels of a factor, those that stand twice on it are the traced ones. -/
theorem Network.Lawful.mem_tracedLabels {net : Network} (hnet : net.Lawful) {i id : Nat}
    (hi : i < net.numFactors) (hid : id < net.numLabels)
    (hm : net.label id ∈ (net.factor i).labels) :
    net.label id ∈ tracedLabels (net.factor i).labels ↔ net.isTraced id = true := by
  have hpos := List.count_pos_iff.2 hm
  rw [← timesIn_singleton hi] at hpos
  have hone := hnet.timesIn_eq_one hid hpos
  have hle := hnet.timesIn_le_two [i] (net.label id)
  rw [TensorNet.mem_tracedLabels (hnet.count_le_two i), ← timesIn_singleton hi,
    ← Bool.not_eq_false, ← hone]
  omega

namespace TreeNode

variable {α : Type} [Element α] (net : Network) (dim : Label → Nat) (inputs : List (Tensor α))

/-- The nested sums of a tree. -/
def value : TreeNode → Values → α
  | leaf _ i _ => sumOver dim (tracedLabels (net.factor i).labels) (net.factorValue inputs i)
  | join _ l r cs _ _ => sumOver dim cs fun a => l.value a * r.value a

/-- The labels of all the sums. -/
def summed : TreeNode → List Label
  | leaf _ i _ => tracedLabels (net.factor i).labels
  | join _ l r cs _ _ => cs ++ (l.summed ++ r.summed)

/-- The product of some factors. -/
def product (fs : List Nat) (a : Values) : α :=
  (fs.map fun i => net.factorValue inputs i a).prod

variable {net dim inputs}

theorem mem_common (hnet : net.Lawful) {costs : List Cost} {l r : TreeNode}
    (hl : l.Built net costs) (hr : r.Built net costs) (hln : l.factors.Nodup)
    (hrn : r.factors.Nodup) (lab : Label) :
    lab ∈ (l.openSet.inter r.openSet).toList.map net.label ↔
      net.timesIn l.factors lab = 1 ∧ net.timesIn r.factors lab = 1 := by
  obtain ⟨hla, -⟩ := Lowering.of_lowerNode hnet hl hln
  obtain ⟨hra, -⟩ := Lowering.of_lowerNode hnet hr hrn
  rw [(Lowering.common_of_built hnet hl hr hln hrn hla hra).mem, hla.mem, hra.mem]

theorem nodup_common (hnet : net.Lawful) {costs : List Cost} {l r : TreeNode}
    (hl : l.Built net costs) (hr : r.Built net costs) (hln : l.factors.Nodup)
    (hrn : r.factors.Nodup) : ((l.openSet.inter r.openSet).toList.map net.label).Nodup := by
  obtain ⟨hla, -⟩ := Lowering.of_lowerNode hnet hl hln
  obtain ⟨hra, -⟩ := Lowering.of_lowerNode hnet hr hrn
  exact (Lowering.common_of_built hnet hl hr hln hrn hla hra).nodup

/-- **The sums run over the labels that occur twice**, each of them once. -/
theorem summed_spec (hnet : net.Lawful) {costs : List Cost} {t : TreeNode}
    (h : t.Built net costs) (hn : t.factors.Nodup) :
    (t.summed net).Nodup ∧ ∀ l, l ∈ t.summed net ↔ net.timesIn t.factors l = 2 := by
  induction h with
  | @leaf id i hi =>
    have hcount := hnet.count_le_two i
    refine ⟨nodup_tracedLabels hcount, fun l => ?_⟩
    rw [summed, mem_tracedLabels hcount]
    show _ ↔ net.timesIn [i] l = 2
    rw [Network.timesIn_singleton hi]
  | @join id l r c hl hr hc ihl ihr =>
    obtain ⟨hln, hrn, -⟩ := List.nodup_append.1 hn
    obtain ⟨hsl, hml⟩ := ihl hln
    obtain ⟨hsr, hmr⟩ := ihr hrn
    have hcs := mem_common hnet hl hr hln hrn
    have htimes : ∀ lab, net.timesIn (l.factors ++ r.factors) lab =
        net.timesIn l.factors lab + net.timesIn r.factors lab :=
      Network.timesIn_append (disjoint_of_nodup hn)
    have hle : ∀ lab, net.timesIn l.factors lab + net.timesIn r.factors lab ≤ 2 := fun lab =>
      htimes lab ▸ hnet.timesIn_le_two _ lab
    refine ⟨?_, fun lab => ?_⟩
    · refine List.nodup_append.2 ⟨nodup_common hnet hl hr hln hrn,
        List.nodup_append.2 ⟨hsl, hsr, ?_⟩, ?_⟩
      · rintro a ha b hb rfl
        have := hle a
        rw [hml] at ha
        rw [hmr] at hb
        omega
      · rintro a ha b hb rfl
        have := hle a
        rw [hcs] at ha
        rw [List.mem_append, hml, hmr] at hb
        omega
    · rw [summed, List.mem_append, List.mem_append, hcs, hml, hmr, TreeNode.factors, htimes]
      have := hle lab
      omega

/-! ### Labels that do not matter -/

theorem ignores_factorValue {i : Nat} {l : Label} (h : l ∉ (net.factor i).labels) :
    Ignores (net.factorValue inputs i) l := by
  intro a v
  have hmap : (net.factor i).labels.map (Function.update a l v) =
      (net.factor i).labels.map a := by
    refine List.map_congr_left fun m hm => ?_
    have hne : m ≠ l := fun he => h (he ▸ hm)
    rw [Function.update_of_ne hne]
  rw [Network.factorValue, Network.factorValue, hmap]

theorem ignores_product {fs : List Nat} (hfs : ∀ i ∈ fs, i < net.numFactors) {l : Label}
    (h : net.timesIn fs l = 0) : Ignores (product net inputs fs) l := by
  intro a v
  refine congrArg List.prod (List.map_congr_left fun i hi => ?_)
  refine ignores_factorValue (fun hl => ?_) a v
  have := Network.timesIn_pos.2 ⟨i, hi, hfs i hi, hl⟩
  omega

/-! ### One sum -/

variable [LawfulElement α]

attribute [local instance] LawfulElement.commSemiring

/-- **The nested sums are one sum** of the product of all factors. -/
theorem value_eq (hnet : net.Lawful) {costs : List Cost} {t : TreeNode} (h : t.Built net costs)
    (hn : t.factors.Nodup) (a : Values) :
    t.value net dim inputs a = sumOver dim (t.summed net) (product net inputs t.factors) a := by
  induction h generalizing a with
  | @leaf id i hi =>
    rw [value, summed]
    refine congrArg (fun f => sumOver dim _ f a) (funext fun b => ?_)
    show _ = ([i].map fun i => net.factorValue inputs i b).prod
    rw [List.map_singleton, List.prod_singleton]
  | @join id l r c hl hr hc ihl ihr =>
    obtain ⟨hln, hrn, -⟩ := List.nodup_append.1 hn
    obtain ⟨-, hml⟩ := summed_spec hnet hl hln
    obtain ⟨-, hmr⟩ := summed_spec hnet hr hrn
    have hle : ∀ lab, net.timesIn l.factors lab + net.timesIn r.factors lab ≤ 2 := by
      intro lab
      rw [← Network.timesIn_append (disjoint_of_nodup hn)]
      exact hnet.timesIn_le_two _ lab
    have hright : ∀ m ∈ l.summed net, Ignores (r.value net dim inputs) m := by
      intro m hm b v
      have := hle m
      rw [hml] at hm
      rw [ihr hrn, ihr hrn]
      exact (ignores_product hr.factors_lt (by omega)).sumOver _ b v
    have hleft : ∀ m ∈ r.summed net, Ignores (product net inputs l.factors) m := by
      intro m hm
      have := hle m
      rw [hmr] at hm
      exact ignores_product hl.factors_lt (by omega)
    have hprod : product net inputs (l.factors ++ r.factors) =
        fun b => product net inputs l.factors b * product net inputs r.factors b := by
      funext b
      rw [product, List.map_append, List.prod_append, product, product]
    have hboth : ∀ b, l.value net dim inputs b * r.value net dim inputs b =
        sumOver dim (l.summed net ++ r.summed net)
          (product net inputs (l.factors ++ r.factors)) b := by
      intro b
      calc l.value net dim inputs b * r.value net dim inputs b
          = sumOver dim (l.summed net) (product net inputs l.factors) b *
              r.value net dim inputs b := by rw [ihl hln]
        _ = sumOver dim (l.summed net)
              (fun d => product net inputs l.factors d * r.value net dim inputs d) b :=
            sumOver_mul hright b
        _ = sumOver dim (l.summed net) (sumOver dim (r.summed net)
              (product net inputs (l.factors ++ r.factors))) b := by
            refine congrArg (fun f => sumOver dim _ f b) (funext fun d => ?_)
            rw [ihr hrn, mul_sumOver hleft, hprod]
        _ = _ := (sumOver_append ..).symm
    rw [value, summed, sumOver_append]
    exact congrArg (fun f => sumOver dim _ f a) (funext hboth)

end TreeNode

end TensorNet
