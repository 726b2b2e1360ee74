import Mathlib.Data.List.Nodup
import TensorNet.Proofs.Network.Occurrences

/-!
# The rules of a network

Which factors and outputs make a network, said of the labels on the axes and not of the table that
is made of them: there is a factor, no label stands more than twice, and an output lists the labels
that stand once, each of them once.

The builder makes several checks, one after the other. Each of them passes, and then its rule holds,
or it reports a label that breaks the rule (`Judges`). So the checks together accept exactly what
the rules admit, and what they report is true.
-/

namespace TensorNet.Network

/-- The labels of all axes, in factor order and then axis order. -/
def labelsOn (factors : List Factor) : List Label := factors.flatMap Factor.labels

/-- How often a label stands on the axes of the factors. -/
def timesOn (factors : List Factor) (l : Label) : Nat := (labelsOn factors).count l

/-- **The rules** for factors and an output. -/
structure Admissible (factors : List Factor) (output : Option (List Label)) : Prop where
  nonempty : factors ≠ []
  atMostTwice : ∀ l, timesOn factors l ≤ 2
  output : ∀ out ∈ output, out.Nodup ∧ ∀ l, l ∈ out ↔ timesOn factors l = 1

/-- The label breaks a rule in the way that is reported. -/
def Breaks (factors : List Factor) (output : Option (List Label)) (l : Label) : LabelFault → Prop
  | .tooOften => 2 < timesOn factors l
  | .repeatedInOutput => ∃ out ∈ output, 2 ≤ out.count l
  | .unknownInOutput => ∃ out ∈ output, l ∈ out ∧ timesOn factors l = 0
  | .contractedInOutput => ∃ out ∈ output, l ∈ out ∧ timesOn factors l = 2
  | .missingFromOutput => ∃ out ∈ output, l ∉ out ∧ timesOn factors l = 1
  | .noOccurrence => False
  | .sharedInProduct => False

theorem Admissible.not_breaks {factors : List Factor} {output : Option (List Label)}
    (h : Admissible factors output) {l : Label} {fault : LabelFault} :
    ¬ Breaks factors output l fault := by
  intro hb
  cases fault with
  | tooOften =>
    have hle := h.atMostTwice l
    simp only [Breaks] at hb
    omega
  | repeatedInOutput =>
    obtain ⟨out, ho, hb⟩ := hb
    have hle := List.nodup_iff_count_le_one.1 (h.output out ho).1 l
    omega
  | unknownInOutput =>
    obtain ⟨out, ho, hl, hb⟩ := hb
    have h1 := ((h.output out ho).2 l).1 hl
    omega
  | contractedInOutput =>
    obtain ⟨out, ho, hl, hb⟩ := hb
    have h1 := ((h.output out ho).2 l).1 hl
    omega
  | missingFromOutput =>
    obtain ⟨out, ho, hl, hb⟩ := hb
    exact hl (((h.output out ho).2 l).2 hb)
  | noOccurrence => exact hb
  | sharedInProduct => exact hb

/-! ### Counting labels -/

theorem length_places (rs : List (Label × Occurrence)) (l : Label) :
    (places rs l).length = (rs.map (·.1)).count l := by
  rw [places, List.length_map, ← List.countP_eq_length_filter, List.count, List.countP_map]
  refine List.countP_congr fun r _ => ?_
  simp

/-- The labels are read in the order in which they stand on the factors. -/
theorem map_fst_readings (factors : List Factor) :
    (Table.readings factors).map (·.1) = labelsOn factors := by
  have hrow : ∀ (i : Nat) (f : Factor),
      (f.labels.mapIdx fun k l => (l, Occurrence.mk i k)).map (·.1) = f.labels := by
    intro i f
    refine List.ext_getElem? fun k => ?_
    simp [Function.comp_def]
  rw [Table.readings, List.map_flatten, labelsOn, List.flatMap]
  refine congrArg List.flatten (List.ext_getElem? fun i => ?_)
  simp [Function.comp_def, hrow]

theorem length_places_readings (factors : List Factor) (l : Label) :
    (places (Table.readings factors) l).length = timesOn factors l := by
  rw [length_places, map_fst_readings, timesOn]

theorem length_placesOf (net : Network) (l : Label) :
    (net.placesOf l).length = timesOn net.factors l :=
  length_places_readings net.factors l

/-! ### The checks -/

/-- A check passes, and then a rule holds, or it reports a label that breaks a rule, and how often
this label stands. -/
def Judges (times : Label → Nat) (broken : Label → LabelFault → Prop) (rule : Prop)
    (check : Except Error Unit) : Prop :=
  (check = .ok () ∧ rule) ∨
    ∃ l fault, check = .error (.malformed l (times l) fault) ∧ broken l fault

namespace Table

variable {t : Table} {factors : List Factor}

/-- A table that holds what is read off the factors. -/
abbrev Of (t : Table) (factors : List Factor) : Prop := t.Holds (readings factors)

theorem Holds.count_eq_timesOn (h : t.Of factors) (l : Label) : t.count l = timesOn factors l := by
  rw [h.count_eq, length_places_readings]

theorem Holds.judges_checkCounts (h : t.Of factors) :
    Judges (timesOn factors) (fun l fault => fault = .tooOften ∧ 2 < timesOn factors l)
      (∀ l, timesOn factors l ≤ 2) t.checkCounts := by
  cases hc : t.checkCounts with
  | ok _ =>
    refine .inl ⟨rfl, fun l => ?_⟩
    rw [← length_places_readings]
    exact h.length_le_two hc l
  | error e =>
    right
    unfold checkCounts at hc
    split at hc
    · next x hx =>
      cases hc
      have hlt : 2 < x.2.length := by simpa using List.find?_some hx
      have hlen : x.2.length = timesOn factors x.1 := by
        rw [(h.mem_entries.1 (List.mem_of_find?_eq_some hx)).2, length_places_readings]
      exact ⟨x.1, .tooOften, by rw [hlen], rfl, hlen ▸ hlt⟩
    · cases hc

/-- What is wrong with a label of the output. The labels before it are those already seen. -/
theorem judges_checkOutput (t : Table) (seen out : List Label) :
    Judges t.count
      (fun l fault => (fault = .repeatedInOutput ∧ 2 ≤ (seen ++ out).count l) ∨
        (fault = .unknownInOutput ∧ l ∈ out ∧ t.count l = 0) ∨
        (fault = .contractedInOutput ∧ l ∈ out ∧ t.count l = 2))
      (out.Nodup ∧ ∀ l ∈ out, l ∉ seen ∧ t.count l ≠ 0 ∧ t.count l ≠ 2)
      (t.checkOutput seen out) := by
  induction out generalizing seen with
  | nil => exact .inl ⟨rfl, by simp⟩
  | cons l rest ih =>
    cases hc : t.checkOutput seen (l :: rest) with
    | ok _ => exact .inl ⟨rfl, nodup_of_checkOutput hc⟩
    | error e =>
      right
      rw [checkOutput] at hc
      split at hc
      · next hs =>
        cases hc
        have h1 : 0 < seen.count l := List.count_pos_iff.2 hs
        refine ⟨l, _, rfl, .inl ⟨rfl, ?_⟩⟩
        rw [List.count_append, List.count_cons_self]
        omega
      · split at hc
        · next h0 =>
          cases hc
          exact ⟨l, _, by rw [h0], .inr (.inl ⟨rfl, by simp, h0⟩)⟩
        · split at hc
          · next h2 =>
            cases hc
            exact ⟨l, _, by rw [h2], .inr (.inr ⟨rfl, by simp, h2⟩)⟩
          · rcases ih (l :: seen) with ⟨hok, -⟩ | ⟨k, fault, he, hb⟩
            · rw [hok] at hc
              cases hc
            · rw [he] at hc
              cases hc
              refine ⟨k, fault, rfl, ?_⟩
              rcases hb with ⟨rfl, hb⟩ | ⟨rfl, hk, hb⟩ | ⟨rfl, hk, hb⟩
              · refine .inl ⟨rfl, ?_⟩
                have hp : (seen ++ l :: rest).Perm (l :: seen ++ rest) := List.perm_middle
                rwa [hp.count_eq]
              · exact .inr (.inl ⟨rfl, List.mem_cons_of_mem _ hk, hb⟩)
              · exact .inr (.inr ⟨rfl, List.mem_cons_of_mem _ hk, hb⟩)

theorem Holds.judges_checkFree (h : t.Of factors) (out : List Label) :
    Judges (timesOn factors)
      (fun l fault => fault = .missingFromOutput ∧ l ∉ out ∧ timesOn factors l = 1)
      (∀ l, timesOn factors l = 1 → l ∈ out) (t.checkFree out) := by
  have hfree : ∀ l, l ∈ t.free ↔ timesOn factors l = 1 := fun l => by
    rw [h.mem_free, length_places_readings]
  cases hc : t.checkFree out with
  | ok _ => exact .inl ⟨rfl, fun l hl => mem_of_checkFree hc ((hfree l).2 hl)⟩
  | error e =>
    right
    unfold checkFree at hc
    split at hc
    · next l hl =>
      cases hc
      have h1 := (hfree l).1 (List.mem_of_find?_eq_some hl)
      have hout : l ∉ out := by simpa using List.find?_some hl
      exact ⟨l, _, by rw [h1], rfl, hout, h1⟩
    · cases hc

/-- **The output** is chosen, and then it obeys the rules, or a label is reported. -/
theorem Holds.chooseOutput_cases (h : t.Of factors) (hle : ∀ l, timesOn factors l ≤ 2)
    (output : Option (List Label)) :
    (∃ out, t.chooseOutput output = .ok out ∧
        ∀ out ∈ output, out.Nodup ∧ ∀ l, l ∈ out ↔ timesOn factors l = 1) ∨
      ∃ l fault, t.chooseOutput output = .error (.malformed l (timesOn factors l) fault) ∧
        Breaks factors output l fault := by
  cases output with
  | none => exact .inl ⟨_, rfl, nofun⟩
  | some out =>
    have hcount := h.count_eq_timesOn
    rw [chooseOutput]
    rcases t.judges_checkOutput [] out with ⟨h1, hn, hm⟩ | ⟨l, fault, he, hb⟩
    · rw [h1, ok_bind]
      rcases h.judges_checkFree out with ⟨h2, hf⟩ | ⟨l, fault, he, rfl, hb⟩
      · rw [h2, ok_bind]
        refine .inl ⟨out, rfl, fun o ho => ?_⟩
        obtain rfl := Option.some.inj ho
        refine ⟨hn, fun l => ⟨fun hl => ?_, hf l⟩⟩
        obtain ⟨-, h3, h4⟩ := hm l hl
        rw [hcount] at h3 h4
        have := hle l
        omega
      · rw [he, error_bind]
        exact .inr ⟨l, _, rfl, out, rfl, hb⟩
    · right
      rw [he, error_bind, hcount]
      refine ⟨l, fault, rfl, ?_⟩
      rcases hb with ⟨rfl, hb⟩ | ⟨rfl, hl, hb⟩ | ⟨rfl, hl, hb⟩
      · exact ⟨out, rfl, hb⟩
      · exact ⟨out, rfl, hl, hcount l ▸ hb⟩
      · exact ⟨out, rfl, hl, hcount l ▸ hb⟩

end Table

/-! ### The builder -/

variable {factors : List Factor} {output : Option (List Label)}

/-- **A network is built, or a label is reported** that breaks a rule, those that stand too often
before all others. -/
theorem build_cases (hne : factors ≠ []) (output : Option (List Label)) :
    (∃ net, build factors output = .ok net ∧ Admissible factors output) ∨
      ∃ l fault, build factors output = .error (.malformed l (timesOn factors l) fault) ∧
        Breaks factors output l fault ∧
        ((∃ k, 2 < timesOn factors k) → fault = .tooOften) := by
  have ht := Table.holds_ofFactors factors
  have hempty : ¬ factors.isEmpty = true := fun he => hne (List.isEmpty_iff.1 he)
  rw [build, if_neg hempty]
  dsimp only
  rcases ht.judges_checkCounts with ⟨hc, hle⟩ | ⟨l, fault, hc, rfl, hb⟩
  · rw [hc]
    rcases ht.chooseOutput_cases hle output with ⟨out, ho, hout⟩ | ⟨l, fault, ho, hb⟩
    · rw [ho]
      exact .inl ⟨_, rfl, hne, hle, hout⟩
    · rw [ho]
      refine .inr ⟨l, fault, rfl, hb, ?_⟩
      rintro ⟨k, hk⟩
      have := hle k
      omega
  · rw [hc]
    exact .inr ⟨l, _, rfl, hb, fun _ => rfl⟩

theorem Admissible.of_build {net : Network} (h : build factors output = .ok net) :
    Admissible factors output := by
  rcases build_cases (build_eq_ok.1 h).1 output with ⟨_, -, ha⟩ | ⟨l, fault, he, -⟩
  · exact ha
  · rw [h] at he
    cases he

/-- **The builder accepts what the rules admit, and what it reports is true.** -/
theorem build_judges (factors : List Factor) (output : Option (List Label)) :
    ((∃ net, build factors output = .ok net) ↔ Admissible factors output) ∧
    (factors = [] → build factors output = .error .emptyNetwork) ∧
    ∀ e, factors ≠ [] → build factors output = .error e → ∃ l fault,
      e = .malformed l (timesOn factors l) fault ∧ Breaks factors output l fault ∧
      ((∃ k, 2 < timesOn factors k) → fault = .tooOften) := by
  refine ⟨⟨?_, ?_⟩, ?_, ?_⟩
  · rintro ⟨net, hnet⟩
    exact .of_build hnet
  · intro ha
    rcases build_cases ha.nonempty output with ⟨net, hnet, -⟩ | ⟨l, fault, -, hb, -⟩
    · exact ⟨net, hnet⟩
    · exact absurd hb ha.not_breaks
  · rintro rfl
    rfl
  · intro e hne he
    rcases build_cases hne output with ⟨net, hnet, -⟩ | ⟨l, fault, he', h⟩
    · rw [hnet] at he
      cases he
    · rw [he'] at he
      cases he
      exact ⟨l, fault, rfl, h⟩

/-- Three factors that share a label. -/
def starred : List Factor :=
  [{ labels := [.name "i", .name "j"] }, { labels := [.name "j", .name "k"] },
    { labels := [.name "j", .name "l"] }]

/-- With an output that lists an unknown label twice it is the shared label that is reported, with
its count. -/
theorem build_judges_starred :
    starred ≠ [] ∧
    build starred (some [.name "z", .name "z"]) = .error (.malformed (.name "j") 3 .tooOften) ∧
    ¬ Admissible starred (some [.name "z", .name "z"]) ∧
    ∃ l fault, Error.malformed (.name "j") 3 .tooOften =
        .malformed l (timesOn starred l) fault ∧
      Breaks starred (some [.name "z", .name "z"]) l fault ∧ fault = .tooOften := by
  have hne : starred ≠ [] := by decide
  have hbuild : build starred (some [.name "z", .name "z"]) =
      .error (.malformed (.name "j") 3 .tooOften) := by
    decide
  have hcount : 2 < timesOn starred (.name "j") := by decide
  obtain ⟨hok, -, herror⟩ := build_judges starred (some [.name "z", .name "z"])
  refine ⟨hne, hbuild, fun ha => ?_, ?_⟩
  · obtain ⟨net, hnet⟩ := hok.2 ha
    rw [hbuild] at hnet
    cases hnet
  · obtain ⟨l, fault, he, hb, hfirst⟩ := herror _ hne hbuild
    exact ⟨l, fault, he, hb, hfirst ⟨_, hcount⟩⟩

end TensorNet.Network
