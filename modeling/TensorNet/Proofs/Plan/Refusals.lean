import Mathlib
import TensorNet.Plan.Basic
import TensorNet.Proofs.Network.Tables
import TensorNet.Proofs.Tree.Faults
import TensorNet.Proofs.Tree.Priced

/-!
# When planning fails

A plan is refused for one of three reasons, which are all known before any tree is priced: the
search is asked for too many factors, the order of the signs is asked for and the labels do not
have them, or a given order is not a permutation of the contracted labels. `Refused` lists them with
the errors they are reported by, and `Admits` says what a configuration asks of a network so that
there is none. Each of the two is the complement of the other (`admits_or_refused`,
`Refused.not_admits`).

A refusal is reported whatever the labels cost. Where nothing is refused there is a plan as soon as
the costs can be combined, which costs in one variable can. Taken together, planning succeeds
exactly for what is admitted and fails exactly by what is refused (`create_iff_admits`).
-/

namespace TensorNet

/-- **The sign convention**: every label is a nonzero integer, negative exactly when it stands
once. -/
def Network.FollowsSigns (net : Network) : Prop :=
  ∀ l ∈ Network.labelsOn net.factors,
    ∃ v : Int64, l = .int v ∧ v ≠ 0 ∧ (v < 0 ↔ Network.timesOn net.factors l = 1)

namespace Plan

/-- **What a configuration asks of a network.** -/
def Admits (net : Network) (config : PlanConfig) : Prop :=
  match config.strategy with
  | .auto => config.costModel.isSome → net.numFactors ≤ 30
  | .optimal => net.numFactors ≤ 30
  | .bySign => net.FollowsSigns
  | .leftToRight => True
  | .explicit order => order.Perm net.contracted

/-- **Why planning is refused**, and how this is reported. -/
inductive Refused (net : Network) (config : PlanConfig) : Error → Prop
  /-- The cheapest tree is asked for, by name or by giving costs, and the factors are too many. -/
  | tooMany (asked : config.strategy = .optimal ∨
      config.strategy = .auto ∧ config.costModel.isSome) (many : 30 < net.numFactors) :
      Refused net config (.tooManyFactors net.numFactors 30)
  /-- The order of the signs is asked for where the labels do not follow them. -/
  | unsigned (asked : config.strategy = .bySign) (unsigned : ¬ net.FollowsSigns) :
      Refused net config (.invalidOrder .unsigned)
  /-- The given order has a fault. -/
  | order {order : List Label} {fault : OrderFault} (asked : config.strategy = .explicit order)
      (faulty : ContractionTree.Faulty net.labels net.contracted order fault) :
      Refused net config (.invalidOrder fault)

variable {net : Network} {config : PlanConfig}

/-! ### Admitted or refused -/

theorem admits_or_refused (hnet : net.Lawful) (config : PlanConfig) :
    Admits net config ∨ ∃ e, Refused net config e := by
  unfold Admits
  cases hs : config.strategy with
  | auto =>
    by_cases hmany : 30 < net.numFactors
    · cases hm : config.costModel.isSome with
      | true => exact .inr ⟨_, .tooMany (.inr ⟨hs, hm⟩) hmany⟩
      | false => exact .inl fun hsome => absurd hsome Bool.false_ne_true
    · exact .inl fun _ => Nat.not_lt.1 hmany
  | optimal =>
    by_cases hmany : 30 < net.numFactors
    · exact .inr ⟨_, .tooMany (.inl hs) hmany⟩
    · exact .inl (Nat.not_lt.1 hmany)
  | bySign =>
    by_cases hsigns : net.FollowsSigns
    · exact .inl hsigns
    · exact .inr ⟨_, .unsigned hs hsigns⟩
  | leftToRight => exact .inl trivial
  | explicit order =>
    by_cases hp : order.Perm net.contracted
    · exact .inl hp
    · obtain ⟨fault, hf⟩ := ContractionTree.exists_faulty net.labels hnet.nodup_contracted hp
      exact .inr ⟨_, .order hs hf⟩

theorem Refused.not_admits (hnet : net.Lawful) {e : Error} (h : Refused net config e) :
    ¬ Admits net config := by
  intro ha
  unfold Admits at ha
  cases h with
  | tooMany asked many =>
    rcases asked with hs | ⟨hs, hm⟩
    · rw [hs] at ha
      exact Nat.not_le.2 many ha
    · rw [hs] at ha
      exact Nat.not_le.2 many (ha hm)
  | unsigned asked unsigned =>
    rw [asked] at ha
    exact unsigned ha
  | order asked faulty =>
    rw [asked] at ha
    exact faulty.not_perm hnet.nodup_contracted ContractionTree.mem_labels_of_contracted ha

/-! ### Conjugation

What is asked of a network is asked of its labels alone. -/

theorem followsSigns_conjugated (h : net.Tabulated) (hconj : net.conjugated.Tabulated) :
    net.conjugated.FollowsSigns ↔ net.FollowsSigns :=
  hconj.signed_iff.symm.trans h.signed_iff

theorem numFactors_conjugated (net : Network) : net.conjugated.numFactors = net.numFactors :=
  List.length_map _

theorem Admits.conjugated (h : net.Tabulated) (hconj : net.conjugated.Tabulated)
    (ha : Admits net config) : Admits net.conjugated config := by
  unfold Admits at ha ⊢
  rw [numFactors_conjugated, followsSigns_conjugated h hconj]
  exact ha

theorem Refused.conjugated (h : net.Tabulated) (hconj : net.conjugated.Tabulated) {e : Error}
    (hr : Refused net config e) : Refused net.conjugated config e := by
  cases hr with
  | tooMany asked many =>
    rw [← numFactors_conjugated net] at many ⊢
    exact .tooMany asked many
  | unsigned asked unsigned =>
    exact .unsigned asked ((followsSigns_conjugated h hconj).not.2 unsigned)
  | order asked faulty => exact .order asked faulty

/-! ### The tree that is chosen -/

/-- **A refusal is reported**, whatever the labels cost. -/
theorem Refused.chooseTree_eq (hnet : net.Lawful) (htab : net.Tabulated) {e : Error}
    (h : Refused net config e) (model : CostModel) (prune : Bool) :
    chooseTree net model prune (resolveStrategy net config) = .error e := by
  cases h with
  | tooMany asked many =>
    have hresolve : resolveStrategy net config = .optimal := by
      rcases asked with hs | ⟨hs, hm⟩
      · simp only [resolveStrategy, hs]
      · simp only [resolveStrategy, hs, hm, if_true]
    have hmax : maxSearchFactors < net.numFactors := many
    rw [hresolve, chooseTree, ContractionTree.optimal, if_pos hmax]
    rfl
  | unsigned asked unsigned =>
    have hsigned : ¬ net.signed = true := htab.signed_iff.not.2 unsigned
    simp only [resolveStrategy, asked, chooseTree, if_neg hsigned]
  | order asked faulty =>
    simp only [resolveStrategy, asked, chooseTree]
    exact ContractionTree.explicit_of_faulty hnet model faulty

/-- **What is admitted has a tree** if its costs are in one variable. -/
theorem Admits.exists_tree (hnet : net.Lawful) (htab : net.Tabulated) (h : Admits net config)
    {s : String} (hcosts : ∀ c ∈ (config.costModel.getD .standard).resolve net, c.Over s) :
    ∃ tree, chooseTree net (config.costModel.getD .standard) config.prune
      (resolveStrategy net config) = .ok tree := by
  have hleft : ∃ tree, ContractionTree.leftToRight net (config.costModel.getD .standard) =
      .ok tree := by
    obtain ⟨tree, ht, -⟩ := ContractionTree.exists_leftToRight hnet hcosts
    exact ⟨tree, ht⟩
  have hsign : ∃ tree, ContractionTree.bySign net (config.costModel.getD .standard) = .ok tree :=
    ContractionTree.exists_ordered_of_over hcosts _
  unfold Admits at h
  unfold resolveStrategy
  cases hs : config.strategy with
  | auto =>
    rw [hs] at h
    dsimp only at h ⊢
    split
    · next hm => exact ContractionTree.exists_optimal_of_over hcosts hnet (h hm) config.prune
    · split
      · next hsigned =>
        simp only [chooseTree, if_pos hsigned]
        exact hsign
      · exact hleft
  | optimal =>
    rw [hs] at h
    exact ContractionTree.exists_optimal_of_over hcosts hnet h config.prune
  | bySign =>
    rw [hs] at h
    have hsigned : net.signed = true := htab.signed_iff.2 h
    simp only [chooseTree, if_pos hsigned]
    exact hsign
  | leftToRight => exact hleft
  | explicit order =>
    rw [hs] at h
    rcases ContractionTree.explicit_cases hnet order (config.costModel.getD .standard) with
      ⟨hnot, -⟩ | ⟨ids, -, -, he⟩
    · exact absurd h hnot
    · obtain ⟨tree, ht⟩ := ContractionTree.exists_ordered_of_over hcosts ids
      exact ⟨tree, he.trans ht⟩

/-! ### The plan -/

/-- The tree that planning chooses, for the network or its conjugate. -/
def chosenTree (net : Network) (config : PlanConfig) : Except Error ContractionTree :=
  let net := if config.conjugate then net.conjugated else net
  chooseTree net (config.costModel.getD .standard) config.prune (resolveStrategy net config)

/-- Planning succeeds or fails as the choice of the tree does. -/
theorem create_cases (ids : PlanIds) (net : Network) (config : PlanConfig) :
    (∃ p ids' tree, create ids net config = .ok (p, ids') ∧ chosenTree net config = .ok tree) ∨
      ∃ e, create ids net config = .error e ∧ chosenTree net config = .error e := by
  have hcreate : create ids net config = chosenTree net config >>= fun tree => _ := rfl
  rw [hcreate]
  cases chosenTree net config with
  | error e => exact .inr ⟨e, rfl, rfl⟩
  | ok tree =>
    refine .inl ?_
    rw [ok_bind]
    cases config.planId with
    | some id => exact ⟨_, _, tree, rfl, rfl⟩
    | none => exact ⟨_, _, tree, rfl, rfl⟩

theorem Refused.create_eq (hnet : net.Lawful) (htab : net.Tabulated)
    (hconj : net.conjugated.Tabulated) {e : Error} (h : Refused net config e) (ids : PlanIds) :
    create ids net config = .error e := by
  have htree : chosenTree net config = .error e := by
    unfold chosenTree
    dsimp only
    split
    · exact (h.conjugated htab hconj).chooseTree_eq hnet.conjugated hconj _ _
    · exact h.chooseTree_eq hnet htab _ _
  rcases create_cases ids net config with ⟨p, ids', tree, -, ht⟩ | ⟨e', hc, ht⟩
  · cases ht.symm.trans htree
  · rwa [← Except.error.inj (ht.symm.trans htree)]

theorem Admits.exists_create (hnet : net.Lawful) (htab : net.Tabulated)
    (hconj : net.conjugated.Tabulated) (h : Admits net config) {s : String}
    (hcosts : ∀ c ∈ (config.costModel.getD .standard).resolve net, c.Over s) (ids : PlanIds) :
    ∃ p ids', create ids net config = .ok (p, ids') := by
  obtain ⟨tree, htree⟩ : ∃ tree, chosenTree net config = .ok tree := by
    unfold chosenTree
    dsimp only
    split
    · exact (h.conjugated htab hconj).exists_tree hnet.conjugated hconj hcosts
    · exact h.exists_tree hnet htab hcosts
  rcases create_cases ids net config with ⟨p, ids', -, hc, -⟩ | ⟨e, -, ht⟩
  · exact ⟨p, ids', hc⟩
  · cases htree.symm.trans ht

/-- Every label costs the variable if no costs are given. -/
theorem over_standard (net : Network) :
    ∀ c ∈ CostModel.standard.resolve net, c.Over defaultSymbol := by
  intro c hc
  obtain ⟨l, -, rfl⟩ := List.mem_map.1 hc
  exact Cost.over_power defaultSymbol 1 1

/-- **Planning succeeds exactly for what is admitted**, and fails exactly by what is refused, if the
given costs are in one variable. So costs are no reason to fail, and a plan is always found if
neither a strategy nor costs are given. -/
theorem create_iff_admits {factors : List Factor} {output : Option (List Label)}
    (hbuild : Network.build factors output = .ok net)
    (hcosts : ∀ model, config.costModel = some model →
      ∃ s, ∀ c ∈ model.resolve net, c.Over s) (ids : PlanIds) :
    ((∃ p ids', create ids net config = .ok (p, ids')) ↔ Admits net config) ∧
    (∀ e, create ids net config = .error e ↔ Refused net config e) ∧
    (config.strategy = .auto → config.costModel = none →
      ∃ p ids', create ids net config = .ok (p, ids')) ∧
    ∀ x y, create ids net config ≠ .error (.incomparableCost x y) := by
  obtain ⟨hnet, -⟩ := Network.lawful_of_build hbuild
  obtain ⟨-, htab, -, hconj, -⟩ := Network.tables_of_build hbuild
  obtain ⟨s, hover⟩ : ∃ s, ∀ c ∈ (config.costModel.getD .standard).resolve net, c.Over s := by
    cases hm : config.costModel with
    | none => exact ⟨_, over_standard net⟩
    | some model => exact hcosts model hm
  have hrefused : ∀ e, Refused net config e → create ids net config = .error e :=
    fun e he => he.create_eq hnet htab hconj ids
  have hadmits : Admits net config → ∃ p ids', create ids net config = .ok (p, ids') :=
    fun ha => ha.exists_create hnet htab hconj hover ids
  have herror : ∀ e, create ids net config = .error e ↔ Refused net config e := by
    refine fun e => ⟨fun he => ?_, hrefused e⟩
    rcases admits_or_refused hnet config with ha | ⟨e', he'⟩
    · obtain ⟨p, ids', hc⟩ := hadmits ha
      cases hc.symm.trans he
    · rwa [Except.error.inj (he.symm.trans (hrefused e' he'))]
  refine ⟨⟨?_, hadmits⟩, herror, fun hs hm => hadmits ?_, fun x y hxy => ?_⟩
  · rintro ⟨p, ids', hc⟩
    refine (admits_or_refused hnet config).resolve_right ?_
    rintro ⟨e, he⟩
    cases hc.symm.trans (hrefused e he)
  · rw [Admits, hs, hm]
    exact fun h => absurd h Bool.false_ne_true
  · cases (herror _).1 hxy

/-- A label that is summed on one factor has to be listed like any other. -/
theorem create_iff_admits_looped :
    Network.build Network.looped.factors (some Network.looped.output) = .ok .looped ∧
    (∀ c ∈ CostModel.standard.resolve .looped, c.Over defaultSymbol) ∧
    create {} .looped { strategy := .explicit [.int 2], costModel := some .standard } =
      .error (.invalidOrder (.missing (.int 1))) ∧
    ∃ p ids', create {} .looped
      { strategy := .explicit [.int 2, .int 1], costModel := some .standard } = .ok (p, ids') := by
  have hover := over_standard .looped
  have hcosts : ∀ model, some CostModel.standard = some model →
      ∃ s, ∀ c ∈ model.resolve .looped, c.Over s := by
    rintro model ⟨⟩
    exact ⟨defaultSymbol, hover⟩
  refine ⟨Network.build_looped, hover, ?_, ?_⟩
  · refine ((create_iff_admits Network.build_looped hcosts {}).2.1 _).2 (.order rfl ?_)
    exact .missing ⟨by decide, by decide⟩ (by decide)
  · refine (create_iff_admits Network.build_looped hcosts {}).1.2 ?_
    show [Label.int 2, .int 1].Perm Network.looped.contracted
    decide

end Plan

end TensorNet
