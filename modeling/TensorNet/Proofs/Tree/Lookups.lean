import TensorNet.Proofs.Tree.Failures
import TensorNet.Proofs.Tree.Fallback
import TensorNet.Proofs.Tree.Strategies

/-!
# The search finds all that it looks up

The search reads its table in four places: the open labels of the two halves of a set that it
starts to solve, those of the two parts of a split that it prices, the choices of these parts, and
at the end the choices from which the tree is read off. Only the third may find nothing, as bounds
leave sets without a choice; such a split is passed over. Main statement: the others always find
what they look for, for any costs, so costs that do not combine are the only way to fail.

## Why

* Sets are solved by increasing size, so all parts of a set have been through before it
  (`parts_mem_of_schedule`), and a set that has been through has its open labels noted, with or
  without a choice.
* A choice is made from two parts that have choices, and choices are never taken back. So the
  choices below a choice are there down to the single factors (`Readable`), and a part is smaller
  than its set.
-/

namespace TensorNet

namespace Search

variable {net : Network} {p : Problem} {t t' : Table}

/-! ### Failures -/

theorem failsByCost_hopeless (prune : Bool) (parts : Cost) (best : Option Choice) :
    FailsByCost (hopeless prune parts best) := by
  unfold hopeless
  split
  · exact (Cost.failsByCost_lt _ _).bind fun _ => .ok _
  · exact .ok _

theorem failsByCost_aboveBound (total : Cost) : FailsByCost (aboveBound p total) := by
  unfold aboveBound
  split
  · exact Cost.failsByCost_lt _ _
  · exact .ok _

theorem failsByCost_improves (total : Cost) (best : Option Choice) :
    FailsByCost (improves total best) := by
  unfold improves
  split
  · exact Cost.failsByCost_lt _ _
  · exact .ok _

/-- Where the open labels of both parts are noted, a split fails by costs only. -/
theorem failsByCost_consider {l r : Nat} (hl : ∃ o, t.openSets[l]? = some o)
    (hr : ∃ o, t.openSets[r]? = some o) (best : Option Choice) :
    FailsByCost (consider p t best l r) := by
  obtain ⟨o, ho⟩ := hl
  obtain ⟨o', ho'⟩ := hr
  have hjoin : FailsByCost (Search.joinCost p t l r) := by
    simp only [Search.joinCost, ho, ho']
    exact failsByCost_joinCost _ _ _
  unfold consider
  split
  · refine (Cost.failsByCost_add _ _).bind fun parts => ?_
    refine (failsByCost_hopeless _ _ _).bind fun skip => ?_
    split
    · exact .ok _
    · refine hjoin.bind fun join => (Cost.failsByCost_add _ _).bind fun total => ?_
      refine (failsByCost_aboveBound total).bind fun above => ?_
      split
      · exact .ok _
      · refine (failsByCost_improves total best).bind fun better => ?_
        split
        · exact .ok _
        · exact .ok _
  · exact .ok _

theorem failsByCost_best {s : Nat} (h : ∀ x ∈ splits s,
    (∃ o, t.openSets[x.1]? = some o) ∧ ∃ o, t.openSets[x.2]? = some o) :
    FailsByCost (best p t s) := by
  refine (FailsWith.foldlM_along (fun _ _ => True) (fun pre x post b hsplit _ => ?_) trivial).1
  have hx : x ∈ splits s := hsplit ▸ List.mem_append_right _ List.mem_cons_self
  exact ⟨failsByCost_consider (h x hx).1 (h x hx).2 b, fun _ _ => trivial⟩

/-! ### What the table holds on the way -/

variable {done : Nat → Prop} {u : Shape}

theorem openSets_of_noteOpen {s : Nat} (h : noteOpen t s = .ok t') :
    (∃ o, t.openSets[Subset.lowest s]? = some o) ∧
      ∃ o, t.openSets[Subset.dropLowest s]? = some o := by
  unfold noteOpen at h
  split at h
  · next a b ha hb => exact ⟨⟨a, ha⟩, ⟨b, hb⟩⟩
  · cases h

theorem Filled.exists_openSet (h : Filled net p done t) (hu : u.Within net.numFactors)
    {x : Nat × Nat} (hx : x ∈ splits u.mask) (hd : done x.1 ∧ done x.2) :
    (∃ o, t.openSets[x.1]? = some o) ∧ ∃ o, t.openSets[x.2]? = some o := by
  obtain ⟨⟨v, hv, hvm, -⟩, ⟨w, hw, hwm, -⟩⟩ := hu.exists_parts hx
  obtain ⟨o, ho, -⟩ := h.opens v hv (hvm ▸ hd.1)
  obtain ⟨o', ho', -⟩ := h.opens w hw (hwm ▸ hd.2)
  exact ⟨⟨o, hvm ▸ ho⟩, ⟨o', hwm ▸ ho'⟩⟩

/-- **A set whose parts have been through fails by costs only.** -/
theorem Filled.failsByCost_solve (hnet : net.Lawful) (h : Filled net p done t)
    (hu : u.Within net.numFactors) (hlen : 2 ≤ u.factors.length)
    (hd : ∀ x ∈ splits u.mask, done x.1 ∧ done x.2) : FailsByCost (Search.solve p t u.mask) := by
  obtain ⟨o, ho, hoi⟩ := h.exists_noteOpen hnet hu hlen hd
  have hopen := h.insertOpen hoi
  unfold Search.solve
  rw [ho, ok_bind]
  refine (failsByCost_best fun x hx => hopen.exists_openSet hu hx ?_).bind fun b => ?_
  · exact ⟨.inl (hd x hx).1, .inl (hd x hx).2⟩
  · cases b with
    | none => exact .ok _
    | some c => exact .ok _

/-- **On the way through the sets** the table is filled with those that have been through. -/
theorem filled_of_isPrefix (hnet : net.Lawful) (p : Problem) {solved : List Nat}
    (hpre : solved <+: schedule net.numFactors) :
    FailsByCost (solved.foldlM (Search.solve p) (start net)) ∧
      ∀ t, solved.foldlM (Search.solve p) (start net) = .ok t →
        Filled net p (Through net solved) t ∧ Divides t := by
  obtain ⟨rest, hrest⟩ := hpre
  have hstart : Filled net p (Through net []) (start net) :=
    through_nil net ▸ filled_start hnet p
  refine FailsWith.foldlM_along
    (fun pre t => Filled net p (Through net pre) t ∧ Divides t) ?_ ⟨hstart, divides_start net⟩
  intro pre s post t hsplit ⟨hfilled, hdivides⟩
  have hsched : schedule net.numFactors = pre ++ s :: (post ++ rest) := by
    rw [← hrest, hsplit, List.append_assoc, List.cons_append]
  obtain ⟨u, hu, rfl, h2, hnew, hparts⟩ := parts_mem_of_schedule hsched
  refine ⟨hfilled.failsByCost_solve hnet hu h2 hparts, fun t' ht' => ⟨?_, hdivides.solve ht'⟩⟩
  rw [through_concat]
  exact hfilled.solve hnet hu h2 hnew hparts ht'

/-! ### Choices below choices -/

/-- The left part of a choice is a proper part of its set that has the lowest factor, and both
parts have choices of their own. -/
structure Halves (t : Table) (s : Nat) (c : Choice) : Prop where
  isPart : Subset.IsPart c.left s
  ne_self : c.left ≠ s
  ne_zero : c.left ≠ 0
  lowest : Subset.IsPart (Subset.lowest s) c.left
  left : t.choices.contains c.left = true
  right : t.choices.contains (s ^^^ c.left) = true

/-- Following choices from a set down to single factors comes to an end, and every choice on the
way is there. -/
inductive Readable (t : Table) : Nat → Prop
  | single (f : Nat) : Readable t (Subset.single f)
  | join {s : Nat} {c : Choice} (h : t.choices[s]? = some c) (hl : Readable t c.left)
      (hr : Readable t (s ^^^ c.left)) : Readable t s

theorem contains_of_getElem? {s : Nat} {c : Choice} (h : t.choices[s]? = some c) :
    t.choices.contains s = true := by
  rw [Std.HashMap.contains_eq_isSome_getElem?, h]
  rfl

theorem Noted.readable (h : Noted net p t u) (hu : u.Within net.numFactors) :
    Readable t u.mask := by
  induction u with
  | leaf f =>
    rw [Shape.mask_leaf]
    exact .single f
  | join l r ihl ihr =>
    obtain ⟨hl, hr, k, -, hc⟩ := h
    refine .join hc (ihl hl hu.left) ?_
    rw [hu.mask_xor_left]
    exact ihr hr hu.right

theorem Filled.halves (h : Filled net p done t) (hd : Divides t) {s : Nat} {c : Choice}
    (hc : t.choices[s]? = some c) :
    (∃ f < net.numFactors, s = Subset.single f) ∨ Halves t s c := by
  obtain ⟨u, hu, rfl, hn⟩ := h.noted s c hc
  cases u with
  | leaf f => exact .inl ⟨f, hu.lt f (List.mem_singleton_self f), Shape.mask_leaf f⟩
  | join l r =>
    obtain ⟨hl, hr, k, -, hc'⟩ := hn
    obtain rfl := Option.some.inj (hc.symm.trans hc')
    obtain ⟨x, hx⟩ := (hd _ _ hc).resolve_left fun ⟨f, hf⟩ => Shape.mask_join_ne_single hu f hf
    obtain ⟨m, hm⟩ := Subset.exists_hasLowest (Shape.join l r).mask_ne_zero
    obtain ⟨hpart, hlow, hne, -⟩ := hm.mem_splits.1 hx
    obtain ⟨_, -, hlc⟩ := hl.exists_choice
    obtain ⟨_, -, hrc⟩ := hr.exists_choice
    refine .inr ⟨hpart, hne, l.mask_ne_zero, fun i hi => ?_, contains_of_getElem? hlc, ?_⟩
    · rw [hm.lowest_eq] at hi
      rwa [Subset.mem_single.1 hi]
    · rw [hu.mask_xor_left]
      exact contains_of_getElem? hrc

/-! ### Reading the tree -/

theorem failsByCost_assemble (u : Shape) (a : Assembly) : FailsByCost (u.assemble net a) := by
  induction u generalizing a with
  | leaf f => exact .ok _
  | join l r ihl ihr =>
    refine (ihl a).bind fun x => (ihr x.2).bind fun y => ?_
    exact Assembly.failsByCost_join _ _ _

theorem Filled.failsByCost_rebuild (h : Filled net p done t) {s : Nat} {c : Choice}
    (hc : t.choices[s]? = some c) {depth : Nat} (hdepth : net.numFactors ≤ depth) (a : Assembly) :
    rebuild net t depth s a = rebuild net t net.numFactors s a ∧
      FailsByCost (rebuild net t depth s a) := by
  obtain ⟨u, hu, rfl, hn⟩ := h.noted s c hc
  have hlen := hu.length_le
  rw [hn.rebuild_eq hu (by omega), hn.rebuild_eq hu hlen]
  exact ⟨rfl, failsByCost_assemble u a⟩

/-! ### The whole search -/

/-- **All lookups succeed** in a table in which the given sets have been solved. -/
structure Complete (net : Network) (solved : List Nat) (t : Table) : Prop where
  /-- To solve the next set, all open labels that are read are noted. -/
  opens : ∀ s, solved ++ [s] <+: schedule net.numFactors →
    (∃ o, t.openSets[Subset.lowest s]? = some o) ∧
      (∃ o, t.openSets[Subset.dropLowest s]? = some o) ∧
      ∀ x ∈ splits s, (∃ o, t.openSets[x.1]? = some o) ∧ ∃ o, t.openSets[x.2]? = some o
  /-- A choice for more than one factor has two parts with choices. -/
  halves : ∀ s c, t.choices[s]? = some c →
    (∃ f < net.numFactors, s = Subset.single f) ∨ Halves t s c
  readable : ∀ s c, t.choices[s]? = some c → Readable t s
  /-- Reading a tree neither runs out of steps nor meets a set without a choice. -/
  rebuild : ∀ s c, t.choices[s]? = some c → ∀ a depth, net.numFactors ≤ depth →
    rebuild net t depth s a = rebuild net t net.numFactors s a ∧
      FailsByCost (rebuild net t depth s a)

theorem complete_of_isPrefix (hnet : net.Lawful) {solved : List Nat}
    (hpre : solved <+: schedule net.numFactors)
    (h : solved.foldlM (Search.solve p) (start net) = .ok t) : Complete net solved t := by
  obtain ⟨hfilled, hdivides⟩ := (filled_of_isPrefix hnet p hpre).2 t h
  refine ⟨fun s hs => ?_, fun s c hc => hfilled.halves hdivides hc, fun s c hc => ?_,
    fun s c hc a depth hdepth => hfilled.failsByCost_rebuild hc hdepth a⟩
  · obtain ⟨rest, hrest⟩ := hs
    rw [List.append_assoc, List.singleton_append] at hrest
    obtain ⟨u, hu, rfl, h2, -, hparts⟩ := parts_mem_of_schedule hrest.symm
    obtain ⟨o, ho, -⟩ := hfilled.exists_noteOpen hnet hu h2 hparts
    obtain ⟨hlow, hdrop⟩ := openSets_of_noteOpen ho
    exact ⟨hlow, hdrop, fun x hx => hfilled.exists_openSet hu hx (hparts x hx)⟩
  · obtain ⟨u, hu, rfl, hn⟩ := hfilled.noted s c hc
    exact hn.readable hu

theorem failsByCost_solveAll (hnet : net.Lawful) (p : Problem) : FailsByCost (solveAll p net) := by
  rw [solveAll_eq]
  exact (filled_of_isPrefix hnet p (List.prefix_refl _)).1

end Search

namespace ContractionTree

open Search

variable {net : Network}

theorem failsByCost_leftToRight (model : CostModel) : FailsByCost (leftToRight net model) := by
  refine (FailsByCost.foldlM (fun acc factor => ?_) _ _).bind fun last => .ok _
  exact Assembly.failsByCost_join _ _ _

/-- Up to the largest number of factors, the search fails by costs only. -/
theorem failsByCost_optimal (hnet : net.Lawful) (hn : net.numFactors ≤ maxSearchFactors)
    (model : CostModel) (prune : Bool) : FailsByCost (optimal net model prune) := by
  unfold optimal
  dsimp only
  rw [if_neg (Nat.not_lt.2 hn)]
  refine (failsByCost_leftToRight model).bind fun reference => ?_
  split
  · exact .ok _
  intro e he
  cases ht : solveAll ⟨model.resolve net, reference.cost, prune⟩ net with
  | error e' =>
    rw [ht, error_bind] at he
    cases he
    exact failsByCost_solveAll hnet _ e ht
  | ok t =>
    rw [ht, ok_bind] at he
    split at he
    · next hall =>
      rw [Std.HashMap.contains_eq_isSome_getElem?, Option.isSome_iff_exists] at hall
      obtain ⟨c, hc⟩ := hall
      rw [solveAll_eq] at ht
      have hcomplete := complete_of_isPrefix hnet (List.prefix_refl _) ht
      exact ((hcomplete.rebuild _ c hc _ _ (Nat.le_refl _)).2.bind fun last => .ok _) e he
    · cases he

/-- **The search finds all that it looks up.** For any costs, with and without pruning, it fails
only for too many factors or by costs that do not combine. On the way through the sets, all open
labels that are read are noted, and every choice for more than one factor has two parts with
choices of their own. -/
theorem optimal_complete {factors : List Factor} {output : Option (List Label)}
    (hbuild : Network.build factors output = .ok net) (model : CostModel) (prune : Bool) :
    (∀ e, optimal net model prune = .error e →
      e = .tooManyFactors net.numFactors 30 ∨ ∃ x y, e = .incomparableCost x y) ∧
    (optimal net model prune = .error (.tooManyFactors net.numFactors 30) ↔
      30 < net.numFactors) ∧
    (∀ p, solveAll p net = (schedule net.numFactors).foldlM (solve p) (start net)) ∧
    ∀ bound solved t, solved <+: schedule net.numFactors →
      solved.foldlM (solve ⟨model.resolve net, bound, prune⟩) (start net) = .ok t →
      Complete net solved t := by
  obtain ⟨hnet, -⟩ := Network.lawful_of_build hbuild
  have hmany : 30 < net.numFactors →
      optimal net model prune = .error (.tooManyFactors net.numFactors 30) := fun h => if_pos h
  have hfew : ¬ 30 < net.numFactors → FailsByCost (optimal net model prune) := fun h =>
    failsByCost_optimal hnet (Nat.not_lt.1 h) model prune
  refine ⟨fun e he => ?_, ⟨fun h => ?_, hmany⟩, fun p => solveAll_eq p net,
    fun bound solved t hpre ht => complete_of_isPrefix hnet hpre ht⟩
  · by_cases h : 30 < net.numFactors
    · rw [hmany h] at he
      cases he
      exact .inl rfl
    · exact .inr (hfew h e he)
  · by_contra hn
    obtain ⟨_, _, he⟩ := hfew hn _ h
    cases he

/-- The product of three matrices, with costs in two variables: pricing fails, nothing else does. -/
theorem optimal_complete_chain :
    ∃ model : CostModel, model = ⟨[(.int 1, .var "D")], .var "χ"⟩ ∧
      ∃ x y, optimal .chain model true = .error (.incomparableCost x y) := by
  refine ⟨_, rfl, ?_⟩
  obtain ⟨herr, hmany, -, -⟩ := optimal_complete Network.build_chain
    ⟨[(.int 1, .var "D")], .var "χ"⟩ true
  obtain ⟨e, he⟩ : ∃ e, optimal .chain ⟨[(.int 1, .var "D")], .var "χ"⟩ true = .error e :=
    ⟨_, by cbv⟩
  obtain ⟨x, y, rfl⟩ := (herr e he).resolve_left fun h => absurd (hmany.1 (h ▸ he)) (by decide)
  exact ⟨x, y, he⟩

end ContractionTree

end TensorNet
