import TensorNet.Proofs.Document.Costs

/-!
# Cost models and settings of plans as documents

A cost model is meant to be kept as a document, and so are the settings of a plan that has one. The
costs of single labels stand in the way: they would be members of an object, and a label is no
text. Main statement: a model has a document exactly if no label has a cost of its own, and then
the text of the document is read back as the model; otherwise there is no text at all that is read
as the model. The same holds of the settings of a plan with the model that they carry.
-/

namespace TensorNet

open Json (Denotes)

/-- The value has a document exactly under a condition. The text of the document is read back as
the value, and where there is no document no text is read as the value. -/
structure PersistedIff {α : Type} (toJson? : α → Option Json) (ofJson? : Json → Option α) (x : α)
    (condition : Prop) : Prop where
  writes : (∃ j, toJson? x = some j) ↔ condition
  readsBack : ∀ j, toJson? x = some j → Json.read? ofJson? j.text = some x
  reads : (∃ text, Json.read? ofJson? text = some x) ↔ condition

/-- It is enough that a document that denotes the value is written under the condition, and that
whatever is written or read satisfies the condition. -/
theorem PersistedIff.of_denotes {α : Type} {toJson? : α → Option Json} {ofJson? : Json → Option α}
    {x : α} {condition : Prop} (hdoc : condition → ∃ j, toJson? x = some j ∧ Denotes ofJson? j x)
    (hwrite : ∀ j, toJson? x = some j → condition) (hread : ∀ j, ofJson? j = some x → condition) :
    PersistedIff toJson? ofJson? x condition where
  writes := by
    refine ⟨fun ⟨j, hj⟩ => hwrite j hj, fun h => ?_⟩
    obtain ⟨j, hj, -⟩ := hdoc h
    exact ⟨j, hj⟩
  readsBack j hj := by
    obtain ⟨j', hj', h⟩ := hdoc (hwrite j hj)
    obtain rfl := Option.some.inj (hj.symm.trans hj')
    exact h.read?_text
  reads := by
    constructor
    · rintro ⟨text, ht⟩
      obtain ⟨j, -, hj⟩ := Option.bind_eq_some_iff.1 ht
      exact hread j hj
    · intro h
      obtain ⟨j, -, hj⟩ := hdoc h
      exact ⟨_, hj.read?_text⟩

/-! ### Cost models -/

namespace CostModel

variable {m : CostModel}

theorem costs_eq_nil_of_write {j : Json} (h : m.toJson? = some j) : m.costs = [] := by
  obtain ⟨j', hj', -⟩ := Option.bind_eq_some_iff.1 h
  unfold costsToJson? at hj'
  split at hj'
  · next he => exact he
  · cases hj'

/-- The costs that are read for labels are none. -/
theorem costs_eq_nil_of_read {j : Json} (h : ofJson? j = some m) : m.costs = [] := by
  unfold ofJson? at h
  split at h
  · next costs rest _ =>
    obtain ⟨l, hl, h⟩ := Option.bind_eq_some_iff.1 h
    obtain ⟨c, -, h⟩ := Option.bind_eq_some_iff.1 h
    cases h
    obtain ⟨j', -, hj'⟩ := Option.bind_eq_some_iff.1 hl
    unfold costsOfJson? at hj'
    split at hj'
    · cases hj'
      rfl
    · cases hj'
  · cases h

theorem denotes_of_eq_nil (h : m.costs = []) :
    ∃ j, m.toJson? = some j ∧ j ≠ .null ∧ Denotes ofJson? j m := by
  obtain ⟨costs, rest⟩ := m
  subst h
  have hrest := rest.denotes_toJson
  have hfields : (Json.ofRecord [("costs", .object []), ("default", rest.toJson)]).record?
      ["costs", "default"] = some [some (.object []), some rest.toJson] :=
    Json.record?_ofRecord (by simp)
  refine ⟨_, rfl, nofun, Json.written_ofRecord ?_, ?_⟩
  · have hcosts : (Json.object []).Written := .object nofun nofun
    simp [hcosts, hrest.written]
  · simp only [ofJson?, hfields, hrest.field]
    rfl

theorem persistedIff (m : CostModel) : PersistedIff toJson? ofJson? m (m.costs = []) := by
  refine .of_denotes (fun h => ?_) (fun j => costs_eq_nil_of_write) fun j => costs_eq_nil_of_read
  obtain ⟨j, hj, -, hdoc⟩ := denotes_of_eq_nil h
  exact ⟨j, hj, hdoc⟩

/-! Of the models made from a list, only that of the empty list has no costs. -/

theorem withCost_ne_nil (m : CostModel) (l : Label) (c : Cost) : (m.withCost l c).costs ≠ [] := by
  show setCost l c m.costs ≠ []
  cases m.costs with
  | nil => exact List.cons_ne_nil _ _
  | cons x rest =>
    rw [setCost]
    split
    · exact List.cons_ne_nil _ _
    · exact List.cons_ne_nil _ _

theorem costs_explicit_eq_nil_iff {pairs : List (Label × Cost)} :
    (explicit pairs).costs = [] ↔ pairs = [] := by
  constructor
  · intro h
    rcases List.eq_nil_or_concat pairs with rfl | ⟨init, p, rfl⟩
    · rfl
    · rw [explicit, List.concat_eq_append, List.foldl_append] at h
      exact absurd h (withCost_ne_nil _ _ _)
  · rintro rfl
    rfl

end CostModel

/-! ### Settings of plans -/

namespace PlanConfig

variable {c : PlanConfig}

/-- No label has a cost of its own in the model that the settings carry. -/
def CarriesNoCosts (c : PlanConfig) : Prop := ∀ m, c.costModel = some m → m.costs = []

theorem denotes_planId (id : UInt64) : Denotes planIdOfJson? (.ofNat id.toNat) id := by
  have hid := Json.denotes_size (n := id.toNat) (Nat.le_of_lt_succ id.toNat_lt)
  refine ⟨hid.written, ?_⟩
  rw [planIdOfJson?, hid.read_eq, Option.map_some]
  exact congrArg some (UInt64.ofNat_toNat)

theorem carriesNoCosts_of_write {j : Json} (h : c.toJson? = some j) : c.CarriesNoCosts := by
  intro m hm
  obtain ⟨j', hj', -⟩ := Option.bind_eq_some_iff.1 h
  rw [hm, CostModel.optionToJson?] at hj'
  exact CostModel.costs_eq_nil_of_write hj'

theorem carriesNoCosts_of_read {j : Json} (h : ofJson? j = some c) : c.CarriesNoCosts := by
  unfold ofJson? at h
  split at h
  · obtain ⟨strategy, -, h⟩ := Option.bind_eq_some_iff.1 h
    obtain ⟨model, hmodel, h⟩ := Option.bind_eq_some_iff.1 h
    obtain ⟨conjugate, -, h⟩ := Option.bind_eq_some_iff.1 h
    obtain ⟨prune, -, h⟩ := Option.bind_eq_some_iff.1 h
    obtain ⟨planId, -, h⟩ := Option.bind_eq_some_iff.1 h
    cases h
    rintro m rfl
    obtain ⟨j', hj'⟩ := Json.exists_of_optionField hmodel
    exact CostModel.costs_eq_nil_of_read hj'
  · cases h

theorem denotes_model (h : c.CarriesNoCosts) :
    ∃ j, CostModel.optionToJson? c.costModel = some j ∧
      Denotes (Json.option? CostModel.ofJson?) j c.costModel := by
  cases hm : c.costModel with
  | none => exact ⟨_, rfl, Json.denotes_none⟩
  | some m =>
    obtain ⟨j, hj, hne, hdoc⟩ := CostModel.denotes_of_eq_nil (h m hm)
    exact ⟨j, hj, hdoc.some hne⟩

theorem denotes_of_carriesNoCosts (h : c.CarriesNoCosts) :
    ∃ j, c.toJson? = some j ∧ Denotes ofJson? j c := by
  obtain ⟨model, hmodel, hm⟩ := denotes_model h
  have hs := c.strategy.denotes_toJson
  have hc := Json.denotes_bool c.conjugate
  have hp := Json.denotes_bool c.prune
  have hid := Json.denotes_option (o := c.planId) (fun id _ => denotes_planId id) nofun
  obtain ⟨j, hj⟩ : ∃ j, j = Json.ofRecord [("strategy", c.strategy.toJson), ("cost_model", model),
      ("conjugate", .bool c.conjugate), ("prune", .bool c.prune),
      ("plan_id", .ofOption (fun id => .ofNat id.toNat) c.planId)] := ⟨_, rfl⟩
  have hfields : j.record? ["strategy", "cost_model", "conjugate", "prune", "plan_id"] =
      some [some c.strategy.toJson, some model, some (.bool c.conjugate), some (.bool c.prune),
        some (.ofOption (fun id => .ofNat id.toNat) c.planId)] := by
    rw [hj]
    exact Json.record?_ofRecord (by simp)
  refine ⟨j, ?_, ?_, ?_⟩
  · rw [toJson?, hmodel, hj]
    rfl
  · rw [hj]
    exact Json.written_ofRecord
      (by simp [hs.written, hm.written, hc.written, hp.written, hid.written])
  · simp only [ofJson?, hfields, hs.field, hm.optionField, hc.field, hp.field, hid.optionField]
    rfl

theorem persistedIff (c : PlanConfig) : PersistedIff toJson? ofJson? c c.CarriesNoCosts :=
  .of_denotes denotes_of_carriesNoCosts (fun _ => carriesNoCosts_of_write)
    fun _ => carriesNoCosts_of_read

/-- **A cost model has a document exactly if no label has a cost of its own**, and the settings of
a plan that carry the model have one under the same condition. The text of a document is read back
as the value, and no text is read as a value that has no document. -/
theorem persisted_iff (m : CostModel) (c : PlanConfig) :
    PersistedIff CostModel.toJson? CostModel.ofJson? m (m.costs = []) ∧
      PersistedIff toJson? ofJson? { c with costModel := some m } (m.costs = []) := by
  have hcarries : CarriesNoCosts { c with costModel := some m } ↔ m.costs = [] := by
    constructor
    · intro h
      exact h m rfl
    · rintro h _ ⟨⟩
      exact h
  exact ⟨m.persistedIff, propext hcarries ▸ persistedIff { c with costModel := some m }⟩

/-- A model that lists one label cannot be written, nor can settings that carry it, and there is
nothing that is read as either. -/
theorem not_persisted_listed :
    ∃ (m : CostModel) (c : PlanConfig), m = .explicit [(.name "a", .ofNat 2)] ∧
      c = { costModel := some m } ∧ m.toJson? = none ∧ c.toJson? = none ∧
      (∀ text, Json.read? CostModel.ofJson? text ≠ some m) ∧
      ∀ text, Json.read? ofJson? text ≠ some c := by
  obtain ⟨m, hm⟩ : ∃ m : CostModel, m = .explicit [(.name "a", .ofNat 2)] := ⟨_, rfl⟩
  have hcosts : m.costs ≠ [] := by
    rw [hm]
    exact fun h => nomatch CostModel.costs_explicit_eq_nil_iff.1 h
  have hcarries : ¬ CarriesNoCosts { costModel := some m } := fun h => hcosts (h m rfl)
  refine ⟨m, _, hm, rfl, ?_, ?_, fun text h => hcosts (m.persistedIff.reads.1 ⟨text, h⟩),
    fun text h => hcarries ((persistedIff _).reads.1 ⟨text, h⟩)⟩
  · exact Option.eq_none_iff_forall_ne_some.2 fun j h => hcosts (m.persistedIff.writes.1 ⟨j, h⟩)
  · exact Option.eq_none_iff_forall_ne_some.2 fun j h =>
      hcarries ((persistedIff _).writes.1 ⟨j, h⟩)

end PlanConfig

end TensorNet
