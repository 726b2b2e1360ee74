import TensorNet.Proofs.Document.Shapes

/-!
# Documents of labels, costs and strategies

Every label, every cost and every strategy has a document that denotes it. Terms are an object from
exponents to coefficients; a reader puts them together one by one, and as they come in ascending
order each goes to the end.
-/

namespace TensorNet

open Json (Denotes)

/-! ### Labels -/

theorem Label.denotes_toJson (l : Label) : Denotes Label.ofJson? l.toJson l := by
  cases l with
  | int v =>
    have hv := Json.denotes_int64 v
    refine ⟨Json.written_ofCaseOf _ hv.written, ?_⟩
    simp only [toJson, ofJson?, Json.case?_ofCaseOf, hv.read_eq, Option.map_some]
  | name s =>
    have hs := Json.denotes_text s
    refine ⟨Json.written_ofCaseOf _ hs.written, ?_⟩
    simp only [toJson, ofJson?, Json.case?_ofCaseOf, hs.read_eq, Option.map_some]

/-! ### Terms -/

theorem Saturating.denotes_val {limit : Nat} (c : Saturating limit) :
    Denotes (Saturating.ofJson? limit) (.ofNat c.val) c := by
  have hc := Json.denotes_nat c.val_le
  refine ⟨hc.written, ?_⟩
  rw [ofJson?, hc.read_eq, Option.map_some, ofNat_val]

/-- No digit is escaped. -/
theorem Escape.encode_ofNat (n : Nat) : encode (Digits.ofNat n) = Digits.ofNat n := by
  have hdigit : ∀ m < 10, encodeChar (Digits.digit m) = [Digits.digit m] := by decide
  fun_induction Digits.ofNat n with
  | case1 n h => exact (List.flatMap_singleton _ _).trans (hdigit n h)
  | case2 n h ih =>
    rw [encode, List.flatMap_append, ← encode, ih, List.flatMap_singleton,
      hdigit _ (Nat.mod_lt n (by decide))]

namespace Terms

/-- A term of higher degree than all others goes to the end. -/
theorem alterList_of_lt {e : Exponent} {f : Option Coefficient → Coefficient}
    {l : List (Exponent × Coefficient)} (h : ∀ t ∈ l, t.1 < e) :
    alterList e f l = l ++ [(e, f none)] := by
  induction l with
  | nil => rfl
  | cons t l ih =>
    obtain ⟨d, c⟩ := t
    have hlt : d < e := h (d, c) List.mem_cons_self
    have hnot : ¬ e < d := Nat.lt_asymm hlt
    have hne : e ≠ d := fun he => Nat.lt_irrefl _ (he ▸ hlt)
    rw [alterList, if_neg hnot, if_neg hne, ih fun t ht => h t (List.mem_cons_of_mem _ ht),
      List.cons_append]

/-- Terms in ascending order, set one by one, are appended. -/
theorem toList_foldl_setAt {l : List (Exponent × Coefficient)} {t : Terms}
    (h : (t.toList ++ l).Pairwise fun x y => x.1 < y.1) :
    (l.foldl (fun t x => t.setAt x.1 x.2) t).toList = t.toList ++ l := by
  induction l generalizing t with
  | nil => exact (List.append_nil _).symm
  | cons x l ih =>
    have hset : (t.setAt x.1 x.2).toList = t.toList ++ [x] :=
      alterList_of_lt fun y hy => (List.pairwise_append.1 h).2.2 y hy x List.mem_cons_self
    rw [List.foldl_cons, ih, hset, List.append_assoc, List.singleton_append]
    rwa [hset, List.append_assoc, List.singleton_append]

theorem denotes_toJson (t : Terms) : Denotes ofJson? t.toJson t := by
  refine ⟨.object (fun m hm => ?_) fun m hm => ?_, ?_⟩
  · obtain ⟨x, -, rfl⟩ := List.mem_map.1 hm
    exact ⟨_, (Escape.encode_ofNat _).symm⟩
  · obtain ⟨x, -, rfl⟩ := List.mem_map.1 hm
    exact x.2.denotes_val.written
  · have hterms : (t.toList.map fun x => (Digits.ofNat x.1.val, Json.ofNat x.2.val)).mapM
        termOfJson? = some t.toList := by
      rw [List.mapM_map]
      refine (mapM_eq_some (g := id) fun x _ => ?_).trans (congrArg some (List.map_id _))
      simp only [Function.comp_apply, termOfJson?, Digits.read?_ofNat x.1.val_le,
        x.2.denotes_val.read_eq, Option.pure_def, Option.bind_eq_bind, Option.bind_some,
        Saturating.ofNat_val, id]
    rw [toJson, ofJson?, hterms, Option.map_some]
    exact congrArg some (Terms.ext (toList_foldl_setAt (t := ∅) t.ascending))

end Terms

/-! ### Costs -/

theorem Poly.denotes_toJson (p : Poly) : Denotes Poly.ofJson? p.toJson p := by
  have hsymbol := Json.denotes_text p.symbol
  have hterms := p.terms.denotes_toJson
  have hfields : p.toJson.record? ["symbol", "terms"] =
      some [some (.ofText p.symbol), some p.terms.toJson] := Json.record?_ofRecord (by simp)
  refine ⟨Json.written_ofRecord (by simp [hsymbol.written, hterms.written]), ?_⟩
  simp only [ofJson?, hfields, hsymbol.field, hterms.field]
  rfl

theorem Cost.denotes_toJson (c : Cost) : Denotes Cost.ofJson? c.toJson c := by
  cases c with
  | integer n =>
    have hn := n.denotes_val
    refine ⟨Json.written_ofCaseOf _ hn.written, ?_⟩
    simp only [toJson, ofJson?, Json.case?_ofCaseOf, hn.read_eq, Option.map_some]
  | polynomial p =>
    have hp := p.denotes_toJson
    refine ⟨Json.written_ofCaseOf _ hp.written, ?_⟩
    simp only [toJson, ofJson?, Json.case?_ofCaseOf, hp.read_eq, Option.map_some]

/-! ### Strategies -/

theorem Strategy.denotes_toJson (s : Strategy) : Denotes Strategy.ofJson? s.toJson s := by
  cases s with
  | auto => exact ⟨Json.written_ofCase _, Json.plainCase?_ofCase rfl⟩
  | optimal => exact ⟨Json.written_ofCase _, Json.plainCase?_ofCase rfl⟩
  | bySign => exact ⟨Json.written_ofCase _, Json.plainCase?_ofCase rfl⟩
  | leftToRight => exact ⟨Json.written_ofCase _, Json.plainCase?_ofCase rfl⟩
  | explicit order =>
    have horder : Denotes (Json.list? Label.ofJson?) (.ofList Label.toJson order) order :=
      Json.denotes_list fun l _ => l.denotes_toJson
    refine ⟨Json.written_ofCaseOf _ horder.written, ?_⟩
    simp only [toJson, ofJson?, Json.case?_ofCaseOf, horder.read_eq, Option.map_some]

end TensorNet
