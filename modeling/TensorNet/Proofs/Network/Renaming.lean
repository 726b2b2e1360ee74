import TensorNet.Proofs.Network.Open
import TensorNet.Proofs.Renaming

/-!
# Networks under other names

The labels of a network are numbered in the order in which they first appear, and this order does
not depend on what the labels are. So the table of renamed factors is the table of the factors with
its labels renamed, and the checks accept the one exactly if they accept the other; what they report
is the same fault of the renamed label.

A network and its renamed copy (`Renamed`) have the same numbers, places and open labels. Whether
the labels follow the signs is not among what they share: an integer may be renamed to a name.
-/

namespace TensorNet

variable {f : Label → Label}

/-- The factor with its labels renamed. -/
def Factor.rename (f : Label → Label) (x : Factor) : Factor := { x with labels := x.labels.map f }

@[simp] theorem Factor.labels_rename (x : Factor) : (x.rename f).labels = x.labels.map f := rfl

@[simp] theorem Factor.conj_rename (x : Factor) : (x.rename f).conj = x.conj := rfl

@[simp] theorem Factor.rank_rename (x : Factor) : (x.rename f).rank = x.rank := List.length_map f

namespace Network

/-! ### Tables -/

namespace Table

/-- The table with its labels renamed. -/
def rename (f : Label → Label) (t : Table) : Table := ⟨t.labels.map f, t.occurrences⟩

theorem record_rename (hf : f.Injective) (t : Table) (l : Label) (o : Occurrence) :
    (t.rename f).record (f l) o = (t.record l o).rename f := by
  unfold record rename
  rw [idxOf?_map hf]
  split
  · rfl
  · simp only [List.map_append, List.map_cons, List.map_nil]

theorem readings_rename (factors : List Factor) :
    readings (factors.map (Factor.rename f)) = (readings factors).map (Prod.map f id) := by
  simp only [readings, List.mapIdx_eq_zipIdx_map, List.zipIdx_map, List.map_map, List.map_flatten,
    Prod.map_fst, Prod.map_snd, Factor.labels_rename, Function.comp_def]
  rfl

theorem ofFactors_rename (hf : f.Injective) (factors : List Factor) :
    ofFactors (factors.map (Factor.rename f)) = (ofFactors factors).rename f := by
  have go : ∀ (rs : List (Label × Occurrence)) (t : Table),
      (rs.map (Prod.map f id)).foldl (fun t r => t.record r.1 r.2) (t.rename f) =
        (rs.foldl (fun t r => t.record r.1 r.2) t).rename f := by
    intro rs
    induction rs with
    | nil => exact fun t => rfl
    | cons r rs ih =>
      intro t
      rw [List.map_cons, List.foldl_cons, List.foldl_cons, Prod.map_fst, Prod.map_snd, id_eq,
        record_rename hf, ih]
  rw [ofFactors, readings_rename]
  exact go _ {}

/-! ### The checks -/

variable (t : Table)

theorem entries_rename : (t.rename f).entries = t.entries.map (Prod.map f id) :=
  List.zip_map_left

theorem count_rename (hf : f.Injective) (l : Label) : (t.rename f).count (f l) = t.count l := by
  unfold count rename
  rw [idxOf?_map hf]

theorem free_rename : (t.rename f).free = t.free.map f := by
  rw [free, entries_rename, List.filter_map, List.map_map, free, List.map_map]
  rfl

theorem agree_checkCounts : Agree f Eq t.checkCounts (t.rename f).checkCounts := by
  unfold checkCounts
  rw [entries_rename, List.find?_map]
  have hp : (fun e : Label × List Occurrence => decide (2 < e.2.length)) ∘ Prod.map f id =
      fun e => decide (2 < e.2.length) := rfl
  rw [hp]
  cases t.entries.find? fun e => decide (2 < e.2.length) with
  | none => exact .ok rfl
  | some e => exact .error (.malformed e.1 e.2.length .tooOften)

theorem agree_checkOutput (hf : f.Injective) (seen out : List Label) :
    Agree f Eq (t.checkOutput seen out) ((t.rename f).checkOutput (seen.map f) (out.map f)) := by
  induction out generalizing seen with
  | nil => exact .ok rfl
  | cons l out ih =>
    rw [List.map_cons]
    unfold checkOutput
    rw [count_rename t hf]
    by_cases hseen : l ∈ seen
    · rw [if_pos hseen, if_pos (List.mem_map_of_mem hseen)]
      exact .error _
    · rw [if_neg hseen, if_neg (mt (List.mem_map_of_injective hf).1 hseen)]
      split
      · exact .error _
      · split
        · exact .error _
        · exact ih (l :: seen)

theorem agree_checkFree (hf : f.Injective) (out : List Label) :
    Agree f Eq (t.checkFree out) ((t.rename f).checkFree (out.map f)) := by
  unfold checkFree
  rw [free_rename, List.find?_map]
  have hp : (fun l => !(out.map f).contains l) ∘ f = fun l => !out.contains l :=
    funext fun l => congrArg not (contains_map hf l out)
  rw [hp]
  cases t.free.find? fun l => !out.contains l with
  | none => exact .ok rfl
  | some l => exact .error (.malformed l 1 .missingFromOutput)

end Table

/-! ### Networks -/

/-- **A network and its renamed copy.** -/
structure Renamed (f : Label → Label) (net net' : Network) : Prop where
  factors : net'.factors = net.factors.map (Factor.rename f)
  output : net'.output = net.output.map f
  labels : net'.labels = net.labels.map f
  occurrences : net'.occurrences = net.occurrences

/-- **Building agrees under a renaming**, if the output is given. -/
theorem agree_build (hf : f.Injective) (factors : List Factor) (output : List Label) :
    Agree f (Renamed f) (build factors (some output))
      (build (factors.map (Factor.rename f)) (some (output.map f))) := by
  have hempty : (factors.map (Factor.rename f)).isEmpty = factors.isEmpty := by
    cases factors with
    | nil => rfl
    | cons x xs => rfl
  unfold build
  rw [hempty, Table.ofFactors_rename hf]
  split
  · exact .error .emptyNetwork
  · refine (Table.agree_checkCounts _).bind fun _ _ _ => ?_
    refine Agree.bind (R := fun out out' => out' = out.map f) ?_ ?_
    · refine (Table.agree_checkOutput _ hf [] output).bind fun _ _ _ => ?_
      exact (Table.agree_checkFree _ hf output).bind fun _ _ _ => .ok rfl
    · rintro out _ rfl
      exact .ok ⟨rfl, rfl, rfl, rfl⟩

namespace Renamed

variable {net net' : Network} (h : Renamed f net net')
include h

theorem numFactors : net'.numFactors = net.numFactors := by
  rw [Network.numFactors, h.factors, List.length_map, Network.numFactors]

theorem numLabels : net'.numLabels = net.numLabels := by
  rw [Network.numLabels, h.labels, List.length_map, Network.numLabels]

theorem factor (i : Nat) : net'.factor i = (net.factor i).rename f := by
  rw [Network.factor, h.factors]
  exact List.getD_map net.factors default (Factor.rename f)

theorem label {id : Nat} (hid : id < net.numLabels) : net'.label id = f (net.label id) := by
  rw [Network.label, h.labels]
  exact getD_map_of_lt hid _ _

theorem idOf? (hf : f.Injective) (l : Label) : net'.idOf? (f l) = net.idOf? l := by
  rw [Network.idOf?, h.labels, idxOf?_map hf, Network.idOf?]

theorem occurrencesOf : net'.occurrencesOf = net.occurrencesOf := by
  funext id
  rw [Network.occurrencesOf, h.occurrences, Network.occurrencesOf]

theorem isContracted : net'.isContracted = net.isContracted := by
  funext id
  rw [Network.isContracted, h.occurrencesOf, Network.isContracted]

theorem isTraced : net'.isTraced = net.isTraced := by
  funext id
  rw [Network.isTraced, h.occurrencesOf, Network.isTraced]

theorem contractedIds : net'.contractedIds = net.contractedIds := by
  rw [Network.contractedIds, h.numLabels, h.isContracted, Network.contractedIds]

theorem openSetOf (hf : f.Injective) : net'.openSetOf = net.openSetOf := by
  funext i
  have hids : net'.idOf? ∘ f = net.idOf? := funext (h.idOf? hf)
  rw [Network.openSetOf, h.factor, Factor.labels_rename, List.filterMap_map, hids, h.isTraced,
    Network.openSetOf]

theorem conjugated : Renamed f net.conjugated net'.conjugated where
  factors := by
    simp only [Network.conjugated, h.factors, List.map_map]
    rfl
  output := h.output
  labels := h.labels
  occurrences := h.occurrences

end Renamed

/-- Labels that are open on a factor have a number. -/
theorem lt_of_contains_openSetOf {net : Network} {i id : Nat}
    (h : (net.openSetOf i).contains id = true) : id < net.numLabels := by
  rw [openSetOf, LabelSet.contains_ofList, decide_eq_true_eq] at h
  obtain ⟨l, -, hl⟩ := List.mem_filterMap.1 (List.mem_of_mem_filter h)
  exact (label_eq_of_getElem? (getElem?_of_idxOf? hl)).1

end Network

end TensorNet
