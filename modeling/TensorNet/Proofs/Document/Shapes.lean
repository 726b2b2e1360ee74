import TensorNet.Document.Values
import TensorNet.Proofs.Document.Parsing

/-!
# What documents denote

A document denotes a value for a reader if it is a written one and the reader gets the value from it
(`Json.Denotes`); then the text of the document is read as the value. Here is how what a document
denotes follows from what its parts denote, for each kind of layout.
-/

namespace TensorNet

/-- A list is read item by item. -/
theorem mapM_eq_some {α γ : Type} {f : α → Option γ} {g : α → γ} {l : List α}
    (h : ∀ a ∈ l, f a = some (g a)) : l.mapM f = some (l.map g) := by
  induction l with
  | nil => rfl
  | cons a l ih =>
    rw [List.mapM_cons, h a List.mem_cons_self, ih fun b hb => h b (List.mem_cons_of_mem _ hb)]
    rfl

namespace Json

variable {α : Type} {read : Json → Option α} {j : Json} {x : α}

/-- The document is a written one, and it is read as the value. -/
structure Denotes (read : Json → Option α) (j : Json) (x : α) : Prop where
  written : j.Written
  read_eq : read j = some x

/-- **The text of a document is read as what the document denotes.** -/
theorem Denotes.read?_text (h : Denotes read j x) : read? read j.text = some x := by
  rw [read?, text, String.toList_ofList, h.written.parse?_print, Option.bind_some, h.read_eq]

/-! ### Texts and numbers -/

theorem decoded?_encode (s : String) : decoded? (Escape.encode s.toList) = some s := by
  rw [decoded?, Escape.decode_encode, Option.map_some, String.ofList_toList]

theorem denotes_text (s : String) : Denotes text? (ofText s) s :=
  ⟨.string _, decoded?_encode s⟩

theorem ofNat_eq_ofInt (n : Nat) : ofNat n = ofInt n := by
  rw [ofNat, ofInt, if_neg (by omega), Int.natAbs_natCast]

theorem denotes_nat {max n : Nat} (h : n ≤ max) : Denotes (nat? max) (ofNat n) n :=
  ⟨ofNat_eq_ofInt n ▸ .number n, Digits.read?_ofNat h⟩

theorem denotes_size {n : Nat} (h : n ≤ maxWord) : Denotes size? (ofNat n) n := denotes_nat h

theorem denotes_int64 (v : Int64) : Denotes int64? (ofInt v.toInt) v := by
  refine ⟨.number _, ?_⟩
  have hlow : -(2 ^ 63 : Int) ≤ v.toInt := Int64.le_toInt v
  have hhigh : v.toInt < 2 ^ 63 := Int64.toInt_lt v
  rw [ofInt]
  split
  · next hneg =>
    have hread : Digits.read? halfWord (Digits.ofNat v.toInt.natAbs) = some v.toInt.natAbs :=
      Digits.read?_ofNat (by simp only [halfWord]; omega)
    have hne : v.toInt.natAbs ≠ 0 := by omega
    have hback : -(v.toInt.natAbs : Int) = v.toInt := by omega
    simp only [int64?, hread, hne, if_false, hback, Int64.ofInt_toInt]
  · next hneg =>
    have hread : Digits.read? (halfWord - 1) (Digits.ofNat v.toInt.natAbs) = some v.toInt.natAbs :=
      Digits.read?_ofNat (by simp only [halfWord]; omega)
    have hback : (v.toInt.natAbs : Int) = v.toInt := by omega
    rw [int64?, hread]
    · show some (Int64.ofInt (v.toInt.natAbs : Int)) = some v
      rw [hback, Int64.ofInt_toInt]
    intro cs hcs
    obtain ⟨c, s, he, hc, -⟩ := Digits.ofNat_eq_cons v.toInt.natAbs
    rw [he] at hcs
    cases hcs
    exact absurd hc (by decide)

theorem denotes_bool (b : Bool) : Denotes bool? (.bool b) b := ⟨.bool b, rfl⟩

/-! ### Lists and absent values -/

theorem denotes_list {write : α → Json} {xs : List α} (h : ∀ x ∈ xs, Denotes read (write x) x) :
    Denotes (list? read) (ofList write xs) xs := by
  refine ⟨.array fun y hy => ?_, ?_⟩
  · obtain ⟨x, hx, rfl⟩ := List.mem_map.1 hy
    exact (h x hx).written
  · rw [ofList, list?, List.mapM_map]
    exact (mapM_eq_some fun x hx => (h x hx).read_eq).trans (congrArg some (List.map_id xs))

theorem denotes_none : Denotes (option? read) .null none := ⟨.null, rfl⟩

theorem Denotes.some (h : Denotes read j x) (hj : j ≠ .null) :
    Denotes (option? read) j (some x) := by
  refine ⟨h.written, ?_⟩
  rw [option?, h.read_eq, Option.map_some]
  exact hj

theorem denotes_option {write : α → Json} {o : Option α} (h : ∀ x ∈ o, Denotes read (write x) x)
    (hw : ∀ x, write x ≠ .null) : Denotes (option? read) (ofOption write o) o := by
  cases o with
  | none => exact denotes_none
  | some x => exact (h x rfl).some (hw x)

/-! ### Cases -/

theorem case?_ofCase (name : String) : (ofCase name).case? = some (name, none) := by
  rw [ofCase, ofText, case?, decoded?_encode, Option.map_some]

theorem case?_ofCaseOf (name : String) (content : Json) :
    (ofCaseOf name content).case? = some (name, some content) := by
  rw [ofCaseOf, case?, decoded?_encode, Option.map_some]

theorem plainCase?_ofCase {cases : List (String × α)} {name : String}
    (h : cases.lookup name = some x) : plainCase? cases (ofCase name) = some x := by
  simp only [plainCase?, case?_ofCase, h, Option.bind_eq_bind, Option.bind_some, noContent,
    Option.pure_def]

theorem written_ofCase (name : String) : (ofCase name).Written := .string _

theorem written_ofCaseOf (name : String) (h : j.Written) : (ofCaseOf name j).Written := by
  refine .object (fun m hm => ?_) fun m hm => List.mem_singleton.1 hm ▸ h
  rw [List.mem_singleton.1 hm]
  exact ⟨_, rfl⟩

/-! ### Records -/

theorem Denotes.field (h : Denotes read j x) : field? read (Option.some j) = Option.some x := by
  rw [field?, Option.bind_some, h.read_eq]

theorem Denotes.optionField {x : Option α} (h : Denotes (option? read) j x) :
    optionField? read (Option.some j) = Option.some x := h.read_eq

/-- What a field that may be absent holds has been read. -/
theorem exists_of_optionField {y : Option Json} (h : optionField? read y = some (some x)) :
    ∃ j, read j = some x := by
  cases y with
  | none => cases h
  | some j =>
    rw [optionField?] at h
    unfold option? at h
    split at h
    · cases h
    · obtain ⟨x', hx, he⟩ := Option.map_eq_some_iff.1 h
      cases he
      exact ⟨j, hx⟩

variable {fields : List (String × Json)}

theorem written_ofRecord (h : ∀ f ∈ fields, f.2.Written) : (ofRecord fields).Written := by
  refine .object (fun m hm => ?_) fun m hm => ?_
  · obtain ⟨f, -, rfl⟩ := List.mem_map.1 hm
    exact ⟨_, rfl⟩
  · obtain ⟨f, hf, rfl⟩ := List.mem_map.1 hm
    exact h f hf

theorem valuesOf_of_mem (hn : (fields.map (·.1)).Nodup) {f : String × Json} (hf : f ∈ fields) :
    valuesOf f.1 fields = [f.2] := by
  induction fields with
  | nil => cases hf
  | cons g fields ih =>
    rw [List.map_cons, List.nodup_cons] at hn
    rw [valuesOf, List.filter_cons]
    rcases List.mem_cons.1 hf with rfl | hf
    · have hrest : (fields.filter fun m => m.1 == f.1) = [] := by
        refine List.filter_eq_nil_iff.2 fun m hm he => hn.1 ?_
        exact List.mem_map.2 ⟨m, hm, eq_of_beq he⟩
      rw [beq_self_eq_true, if_pos rfl, hrest]
      rfl
    · have hne : ¬ (g.1 == f.1) = true := fun he =>
        hn.1 (eq_of_beq he ▸ List.mem_map_of_mem hf)
      rw [if_neg hne]
      exact ih hn.2 hf

/-- **The fields of a record are found under their names**, if no two have one name. -/
theorem record?_ofRecord (hn : (fields.map (·.1)).Nodup) :
    (ofRecord fields).record? (fields.map (·.1)) = some (fields.map fun f => some f.2) := by
  have hmembers : (fields.map fun f => (Escape.encode f.1.toList, f.2)).mapM
      (fun m => (decoded? m.1).map (·, m.2)) = some fields := by
    rw [List.mapM_map]
    refine (mapM_eq_some (g := id) fun f _ => ?_).trans (congrArg some (List.map_id fields))
    simp only [Function.comp_apply, decoded?_encode, Option.map_some]
    rfl
  rw [ofRecord, record?, hmembers]
  show (fields.map (·.1)).mapM (fun name => single? (valuesOf name fields)) = _
  rw [List.mapM_map]
  refine mapM_eq_some fun f hf => ?_
  rw [Function.comp_apply, valuesOf_of_mem hn hf]
  rfl

end Json

end TensorNet
