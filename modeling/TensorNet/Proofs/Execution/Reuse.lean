import TensorNet.Proofs.Cache.Unevicted
import TensorNet.Proofs.Execution.Maintained
import TensorNet.Proofs.Execution.Mismatch
import TensorNet.Proofs.Execution.Recorded

/-!
# Calls again

## 1. The first call

The entry of a slot that was written is in use while its temporary is held, and has the buffer once
that is back. If nothing was evicted, a call that succeeds leaves a cache with a buffer for every
slot of the plan.

## 2. The second call

A cache with a buffer for every slot serves every request of a second call on the same extents.
Since the plan writes no slot twice, no request comes while the buffer is out. Nothing is allocated
but the result, and the bytes stay what they were, so nothing is evicted either.
-/

namespace TensorNet

namespace Execution

section

variable {κ : Type} {β : κ → Type} {k : κ} {σ α : Type} {x : Execution κ β k σ α} {c : Cache β}
variable {r : RunState β k σ}

/-! ### Entries of temporaries -/

theorem mem_slots_filter {slot slot' : Nat} : (slot' ∈ (r.temps.filter fun t => t.1 != slot).map
    (·.1)) ↔ slot' ∈ r.temps.map (·.1) ∧ slot' ≠ slot := by
  simp only [List.mem_map, List.mem_filter, bne_iff_ne]
  constructor
  · rintro ⟨t, ⟨ht, hne⟩, rfl⟩
    exact ⟨⟨t, ht, rfl⟩, hne⟩
  · rintro ⟨⟨t, ht, rfl⟩, hne⟩
    exact ⟨t, ⟨ht, hne⟩, rfl⟩

/-- **The entry of a slot** has its shape. It is in use as long as the temporary is held, and it has
a buffer of the right kind otherwise. -/
structure Shelved (x : Execution κ β k σ α) (r : RunState β k σ) (slot : Nat)
    (e : CacheEntry β) : Prop where
  entry : r.cache.entry? (x.key slot) = some e
  spec : e.spec = x.spec slot
  held : slot ∈ r.temps.map (·.1) → e.inUse = true
  free : slot ∉ r.temps.map (·.1) → ∃ b : β k, e.buffer = some ⟨k, b⟩

/-- All of these slots have entries. -/
def Shelves (x : Execution κ β k σ α) (r : RunState β k σ) (slots : List Nat) : Prop :=
  ∀ slot ∈ slots, ∃ e, x.Shelved r slot e

variable {slots : List Nat} {slot : Nat}

/-- The destination and the state of the backend do not matter. -/
theorem Shelves.congr (h : x.Shelves r slots) (dst : β k) (t : σ) :
    x.Shelves { r with dst, state := t } slots := fun slot hm =>
  (h slot hm).imp fun _ he => ⟨he.entry, he.spec, he.held, he.free⟩

theorem Shelves.giveBack (h : x.Shelves r slots) {b : β k} (hb : r.temps.lookup slot = some b)
    (hback : Cache.TakesBack r.cache (x.key slot) b (r.cache.release k (x.key slot) b)) :
    x.Shelves (x.giveBack r slot) slots := by
  rw [giveBack_of_some hb]
  intro slot' hm
  obtain ⟨e, he⟩ := h slot' hm
  by_cases hs : slot' = slot
  · subst hs
    have hheld : slot' ∈ r.temps.map (·.1) := List.mem_map_of_mem (mem_of_lookup hb)
    exact ⟨_, hback.own e he.entry (he.held hheld), he.spec,
      fun hm => absurd rfl (mem_slots_filter.1 hm).2, fun _ => ⟨b, rfl⟩⟩
  · have hentry := hback.others (x.key slot') fun hk => hs (x.key_inj hk)
    exact ⟨e, hentry.trans he.entry, he.spec, fun hm => he.held (mem_slots_filter.1 hm).1,
      fun hm => he.free fun hm' => hm (mem_slots_filter.2 ⟨hm', hs⟩)⟩

theorem Shelves.hold (h : x.Shelves r slots) {cache : Cache β}
    (hlend : Cache.Lends r.cache (x.key slot) (x.spec slot) cache) (b : β k) (t : σ) :
    x.Shelves (withTemporary r slot b cache t) (slots ++ [slot]) := by
  intro slot' hm
  by_cases hs : slot' = slot
  · subst hs
    obtain ⟨e, he, hu, hspec⟩ := hlend.own
    exact ⟨e, he, hspec, fun _ => hu, fun hnot => absurd List.mem_cons_self hnot⟩
  · have hm : slot' ∈ slots :=
      (List.mem_append.1 hm).resolve_right fun h => hs (List.mem_singleton.1 h)
    obtain ⟨e, he⟩ := h slot' hm
    have hentry := hlend.others (x.key slot') fun hk => hs (x.key_inj hk)
    have hheld : slot' ∈ (withTemporary r slot b cache t).temps.map (·.1) ↔
        slot' ∈ r.temps.map (·.1) :=
      List.mem_cons.trans ((or_iff_right hs).trans (mem_slots_filter.trans (and_iff_left hs)))
    exact ⟨e, hentry.trans he.entry, he.spec, fun hm => he.held (hheld.1 hm),
      fun hm => he.free fun hm' => hm (hheld.2 hm')⟩

/-- **A cache has a buffer for every slot** that a run writes. -/
def Stocks (x : Execution κ β k σ α) (c : Cache β) : Prop :=
  ∀ slot ∈ writtenSlots x.plan.steps, ∃ e, ∃ b : β k,
    c.entry? (x.key slot) = some e ∧ e.spec = x.spec slot ∧ e.buffer = some ⟨k, b⟩

/-- Which buffers are needed depends on the plan, the context and the extents of the inputs. -/
theorem Stocks.congr (h : x.Stocks c) {y : Execution κ β k σ α} (hplan : y.plan = x.plan)
    (hcontext : y.context = x.context) (hdims : y.inputDims = x.inputDims)
    (htype : y.backend.elementType y.model = x.backend.elementType x.model) : y.Stocks c := by
  have hextent : y.inputExtent = x.inputExtent := funext fun p => by
    rw [inputExtent, hdims, inputExtent]
  have hspec : ∀ slot, y.spec slot = x.spec slot := fun slot => by
    simp only [spec, dimsOf, hplan, hextent, htype]
  have hkey : ∀ slot, y.key slot = x.key slot := fun slot => by rw [key, hplan, hcontext, key]
  intro slot hm
  rw [hspec, hkey]
  exact h slot (hplan ▸ hm)

/-! ### The first call -/

variable [DecidableEq κ] [Zero α] [One α]

/-- **A run on a used cache that is enabled.** As long as nothing has been evicted, the slots that
were written have entries. -/
structure Stocking (x : Execution κ β k σ α) (settings : CacheConfig) (evictions : Nat)
    (done : List Nat) (r : RunState β k σ) : Prop where
  used : r.cache.Used settings
  on : r.cache.enabled = true
  since : evictions ≤ r.cache.stats.evictions
  shelves : r.cache.stats.evictions = evictions → x.Shelves r done

variable {settings : CacheConfig} {evictions : Nat}

theorem maintains_stocking : x.Maintains (x.Stocking settings evictions) where
  giveBack {done r slot b} h hb := by
    have hcache : (x.giveBack r slot).cache = r.cache.release k (x.key slot) b := by
      rw [giveBack_of_some hb]
    have hle := r.cache.evictions_le_release (x.key slot) b
    refine ⟨hcache ▸ h.used.release k _ b, hcache ▸ (Cache.enabled_release ..).trans h.on,
      hcache ▸ h.since.trans hle, fun hn => ?_⟩
    rw [hcache] at hn
    have hsame : r.cache.stats.evictions = evictions := Nat.le_antisymm (hn ▸ hle) h.since
    exact (h.shelves hsame).giveBack hb
      (h.used.tidy.takesBack_release h.on (hn.trans hsame.symm))
  write h s := ⟨h.used, h.on, h.since, fun hn => (h.shelves hn).congr _ _⟩
  hold {done slot rest r b cache t} h hslots hacq s := by
    have hused : (x.acquire slot r).2.1.Used settings :=
      h.used.acquire (x.backend.allocate x.model (x.dimsOf (.temporary slot))) r.state
    have hcases := (x.acquired_acquire slot r).1
    rw [hacq] at hused hcases
    have hle := hcases.evictions_le
    refine ⟨hused, hcases.enabled.trans h.on, h.since.trans hle, fun hn => ?_⟩
    have hsame : r.cache.stats.evictions = evictions := Nat.le_antisymm (hn ▸ hle) h.since
    exact (h.shelves hsame).hold (Cache.lends_acquire h.used.tidy h.on hacq (hn.trans hsame.symm))
      _ _

/-- **A run that succeeds leaves a buffer for every slot**, if nothing was evicted. -/
theorem stocks_run (hc : c.Used settings) (hon : c.enabled = true) {dst : β k} {t : σ}
    (hok : (x.run c dst t).1.failure = none)
    (hn : (x.run c dst t).2.1.stats.evictions = c.stats.evictions) :
    x.Stocks (x.run c dst t).2.1 ∧ (x.run c dst t).2.1.enabled = true := by
  have hstart : x.Stocking settings c.stats.evictions [] ⟨c, [], dst, t⟩ :=
    ⟨hc, hon, Nat.le_refl _, fun _ _ h => absurd h List.not_mem_nil⟩
  obtain ⟨r, hr, htemps, hcache, -⟩ := maintains_stocking.run hstart hok
  rw [← hcache] at hn ⊢
  refine ⟨fun slot hm => ?_, hr.on⟩
  obtain ⟨e, he⟩ := hr.shelves hn slot hm
  obtain ⟨b, hb⟩ := he.free (by rw [htemps]; exact List.not_mem_nil)
  exact ⟨e, b, he.entry, he.spec, hb⟩

/-! ### The second call -/

/-- **A run on a cache with a buffer for every slot**, within the budget. Each slot that was written
was one hit, and `kept` holds of the state of the backend. -/
structure Serving (x : Execution κ β k σ α) (c : Cache β) (kept : σ → Prop) (done : List Nat)
    (r : RunState β k σ) : Prop where
  on : r.cache.enabled = true
  shelves : x.Shelves r (writtenSlots x.plan.steps)
  held : ∀ t ∈ r.temps, t.1 ∈ done
  stats : r.cache.stats = { c.stats with hits := c.stats.hits + done.length }
  total : r.cache.totalBytes = c.totalBytes
  budget : r.cache.budget = c.budget
  state : kept r.state

variable {kept : σ → Prop}

theorem maintains_serving (hle : c.totalBytes.val ≤ c.budget)
    (honce : (writtenSlots x.plan.steps).Nodup)
    (hkept : ∀ alpha beta action perm dst t, kept t →
      kept (x.backend.perform alpha beta action perm dst t).2) :
    x.Maintains (x.Serving c kept) := by
  have hperform : ∀ s temps dst t, kept t → kept (x.perform s temps dst t).2 := by
    intro s temps dst t ht
    unfold perform
    split
    · exact ht
    · exact hkept _ _ _ _ _ _ ht
  have hwithin : ∀ {done r}, x.Serving c kept done r → r.cache.totalBytes.val ≤ r.cache.budget :=
    fun h => by rwa [h.total, h.budget]
  constructor
  case giveBack =>
    intro done r slot b h hb
    have hshelves := h.shelves.giveBack hb (Cache.takesBack_of_le h.on (hwithin h))
    obtain ⟨hstats, htotal, hbudget⟩ := Cache.release_of_le h.on (hwithin h) (x.key slot) b
    have hon := (r.cache.enabled_release k (x.key slot) b).trans h.on
    rw [giveBack_of_some hb] at hshelves ⊢
    have hheld : ∀ t ∈ r.temps.filter (fun t => t.1 != slot), t.1 ∈ done := fun t ht =>
      h.held t (List.mem_filter.1 ht).1
    exact ⟨hon, hshelves, hheld, hstats.trans h.stats, htotal.trans h.total,
      hbudget.trans h.budget, h.state⟩
  case write =>
    exact fun h s => ⟨h.on, h.shelves.congr _ _, h.held, h.stats, h.total, h.budget,
      hperform _ _ _ _ h.state⟩
  case hold =>
    intro done slot rest r b cache t h hslots hacq s
    have hm : slot ∈ writtenSlots x.plan.steps :=
      hslots ▸ List.mem_append_right _ List.mem_cons_self
    have hnew : slot ∉ done := fun hd =>
      (List.nodup_append.1 (hslots ▸ honce)).2.2 slot hd slot List.mem_cons_self rfl
    obtain ⟨e, he⟩ := h.shelves slot hm
    obtain ⟨b', hb'⟩ := he.free fun hheld => by
      obtain ⟨u, hu, rfl⟩ := List.mem_map.1 hheld
      exact hnew (h.held u hu)
    have hhit : x.acquire slot r = (.ok b', r.cache.handOut (x.key slot) e, r.state) := by
      have hrests : Cache.Rests (x.key slot) e r.cache := ⟨he.entry, hwithin h⟩
      unfold Execution.acquire
      dsimp only
      rw [show (⟨x.dimsOf (.temporary slot), x.backend.elementType x.model⟩ : BufferSpec) = e.spec
        from he.spec.symm]
      exact hrests.acquire_eq hb' h.on _ _
    cases hhit.symm.trans hacq
    have hlend := he.spec ▸ Cache.lends_handOut r.cache (x.key slot) e
    refine ⟨h.on, fun s hs => h.shelves.hold hlend _ _ s (List.mem_append_left _ hs),
      fun u hu => ?_, ?_, h.total, h.budget, hperform _ _ _ _ h.state⟩
    · rcases List.mem_cons.1 hu with rfl | hu
      · exact List.mem_append_right _ (List.mem_singleton_self _)
      · exact List.mem_append_left _ (h.held u (List.mem_filter.1 hu).1)
    · show ({ r.cache.stats with hits := r.cache.stats.hits + 1 } : CacheStats) = _
      rw [h.stats, List.length_append]
      rfl

/-- **A run that succeeds on such a cache takes everything from it.** -/
theorem Stocks.run (h : x.Stocks c) (hon : c.enabled = true) (hle : c.totalBytes.val ≤ c.budget)
    (honce : (writtenSlots x.plan.steps).Nodup)
    (hkept : ∀ alpha beta action perm dst t, kept t →
      kept (x.backend.perform alpha beta action perm dst t).2) {dst : β k} {t : σ} (ht : kept t)
    (hok : (x.run c dst t).1.failure = none) :
    (x.run c dst t).2.1.stats =
        { c.stats with hits := c.stats.hits + (writtenSlots x.plan.steps).length } ∧
      (x.run c dst t).2.1.totalBytes = c.totalBytes ∧ kept (x.run c dst t).2.2 := by
  have hshelves : x.Shelves ⟨c, [], dst, t⟩ (writtenSlots x.plan.steps) := fun slot hm => by
    obtain ⟨e, b, he, hspec, hb⟩ := h slot hm
    exact ⟨e, he, hspec, nofun, fun _ => ⟨b, hb⟩⟩
  obtain ⟨r, hr, -, hcache, hstate⟩ := (maintains_serving hle honce hkept).run
    ⟨hon, hshelves, nofun, rfl, rfl, rfl, ht⟩ hok
  rw [← hcache, ← hstate]
  exact ⟨hr.stats, hr.total, hr.state⟩

end

end Execution

/-! ### Calls -/

section

variable {κ : Type} {A : κ → Type} [∀ k, Element (A k)] [DecidableEq κ] {settings : CacheConfig}

theorem CacheEvent.served_apply (e : CacheEvent A) {c : Cache (Tensors A)}
    (hc : c.Served settings) : (apply c e).Served settings := by
  cases e with
  | execute k p context inputs alpha => exact hc.execute p _ context inputs alpha ()
  | executeInto k p context inputs alpha beta dst =>
    exact hc.executeInto p _ context inputs alpha beta dst ()
  | clear => exact hc.clear
  | evict => exact hc.evict
  | setEnabled on => exact hc.setEnabled on

/-- Calls lead to the cache after a history. -/
theorem Cache.served_after (settings : CacheConfig) (history : List (CacheEvent A)) :
    (after settings history).Served settings :=
  List.foldlRecOn history CacheEvent.apply .start fun _ hc e _ => e.served_apply hc

end

namespace Plan

section

variable {κ : Type} {β : κ → Type} [DecidableEq κ] {k : κ} {σ α : Type} [Zero α] [One α] {p : Plan}
variable {backend : Backend σ (β k) α} {context : ExecutionContext} {inputs : List (β k)}
variable {alpha : α} {c : Cache β} {t : σ}

/-- A call that returned a buffer is a run that succeeded. -/
theorem execute_eq_ok {result : β k}
    (h : (p.execute backend context inputs alpha c t).1 = .ok result) :
    ∃ model dims dst t', p.outputDims (inputs.map backend.dims) = .ok dims ∧
      backend.allocate model dims t = (.ok dst, t') ∧
      let x : Execution κ β k σ α :=
        ⟨backend, p, context, inputs, model, inputs.map backend.dims, backend.dims dst, alpha, 0⟩
      (x.run c dst t').1.failure = none ∧
        (p.execute backend context inputs alpha c t).2 = (x.run c dst t').2 := by
  cases hdims : p.outputDims (inputs.map backend.dims) with
  | error e =>
    unfold execute at h
    simp only [hdims] at h
    cases h
  | ok dims =>
    cases inputs with
    | nil =>
      unfold execute at h
      simp only [hdims] at h
      cases h
    | cons model rest =>
      rcases hmade : backend.allocate model dims t with ⟨made, t'⟩
      cases made with
      | error e =>
        unfold execute at h
        simp only [hdims, hmade] at h
        cases h
      | ok dst =>
        have hcall := p.execute_made backend context (model :: rest) alpha rfl hdims hmade c
        rw [hcall] at h ⊢
        exact ⟨model, dims, dst, t', rfl, hmade, exists_returned_iff.1 ⟨result, h⟩, rfl⟩

/-- **A call that succeeds leaves a buffer for every slot**, if nothing was evicted. -/
theorem stocks_execute {settings : CacheConfig} (hc : c.Used settings) (hon : c.enabled = true)
    {result : β k} (h : (p.execute backend context inputs alpha c t).1 = .ok result)
    (hn : (p.execute backend context inputs alpha c t).2.1.stats.evictions = c.stats.evictions) :
    ∃ x : Execution κ β k σ α, (x.backend = backend ∧ x.plan = p ∧ x.context = context ∧
        x.inputDims = inputs.map backend.dims) ∧
      x.Stocks (p.execute backend context inputs alpha c t).2.1 ∧
      (p.execute backend context inputs alpha c t).2.1.enabled = true := by
  obtain ⟨model, dims, dst, t', -, -, hok, hend⟩ := execute_eq_ok h
  rw [hend] at hn ⊢
  exact ⟨_, ⟨rfl, rfl, rfl, rfl⟩, Execution.stocks_run hc hon hok hn⟩

/-- **A call that succeeds on a cache with a buffer for every slot** takes them all from it, and
allocates nothing but the result. -/
theorem execute_of_stocks {x : Execution κ β k (CallRecord × σ) α} (h : x.Stocks c)
    (hplan : p = x.plan) (hcontext : context = x.context)
    (hdims : inputs.map backend.dims = x.inputDims)
    (htype : ∀ model, backend.elementType model = x.backend.elementType x.model)
    (hon : c.enabled = true) (hle : c.totalBytes.val ≤ c.budget)
    (honce : (writtenSlots p.steps).Nodup) {s : CallRecord × σ} {result : β k}
    (hok : (p.execute backend.recorded context inputs alpha c s).1 = .ok result) :
    let after := (p.execute backend.recorded context inputs alpha c s).2
    after.1.stats = { c.stats with hits := c.stats.hits + (writtenSlots p.steps).length } ∧
      after.1.totalBytes = c.totalBytes ∧
      ∃ dims, p.outputDims (inputs.map backend.dims) = .ok dims ∧
        after.2.1.OnlySteps (.allocate dims :: s.1.calls) := by
  intro after
  obtain ⟨model, dims, dst, s', hout, hmade, hok, hend⟩ := execute_eq_ok hok
  have hcalls : s'.1.calls = .allocate dims :: s.1.calls := by
    rw [← backend.calls_allocate s model dims]
    exact (congrArg (·.2.1.calls) hmade).symm
  have hstocks : Execution.Stocks ⟨backend.recorded, p, context, inputs, model,
      inputs.map backend.dims, backend.dims dst, alpha, 0⟩ c :=
    h.congr hplan hcontext hdims (htype model)
  have hkept : ∀ alpha beta action perm dst s',
      CallRecord.OnlySteps (.allocate dims :: s.1.calls) s'.1 →
      CallRecord.OnlySteps (.allocate dims :: s.1.calls)
        (backend.recorded.perform alpha beta action perm dst s').2.1 :=
    fun _ _ _ _ _ _ hs => backend.onlySteps_perform hs _ _ _ _ _
  obtain ⟨hstats, htotal, hsteps⟩ := hstocks.run hon hle honce hkept
    (hcalls ▸ s'.1.onlySteps_self) hok
  rw [show after = _ from hend]
  exact ⟨hstats, htotal, dims, hout, hsteps⟩

end

variable {κ : Type} {A : κ → Type} [∀ k, Element (A k)] [DecidableEq κ] {k : κ} {σ : Type}
variable {p : Plan}

/-- **Inputs of the same extents succeed alike**, on any two sound caches. -/
theorem Proper.execute_again (hp : p.Proper) {inputs inputs' : List (Tensor (A k))}
    (hdims : inputs'.map Tensor.dims = inputs.map Tensor.dims) {c d : Cache (Tensors A)}
    (hc : c.Fitting) (hd : d.Fitting) {context : ExecutionContext} {alpha : A k} {t : σ}
    {result : Tensor (A k)}
    (h : (p.execute (.dense σ (A k)) context inputs alpha c t).1 = .ok result)
    (context' : ExecutionContext) (alpha' : A k) (t' : σ) :
    ∃ result', (p.execute (.dense σ (A k)) context' inputs' alpha' d t').1 = .ok result' := by
  rcases p.execute_cases context inputs alpha t with ⟨e, he⟩ | ⟨model, dims, -, hout⟩
  · rw [he] at h
    cases h
  · obtain ⟨⟨⟩, hin, -⟩ := bind_eq_ok.1 hout
    have hr : p.Ranked (inputs.map Tensor.dims) := checkInputs_eq_ok.1 hin
    have hmatching := (hp.execute_spec hr (fun _ => hc) context alpha t).1.1 ⟨result, h⟩
    exact (hp.execute_spec (hdims ▸ hr) (fun _ => hd) context' alpha' t').1.2 (hdims ▸ hmatching)

/-- So they do with a record. -/
theorem Proper.recorded_again (hp : p.Proper) {inputs inputs' : List (Tensor (A k))}
    (hdims : inputs'.map Tensor.dims = inputs.map Tensor.dims) {c : Cache (Tensors A)}
    (hc : c.Fitting) {context : ExecutionContext} {alpha : A k} {log : CallRecord}
    (hlog : log.failAt = none) {t : σ} {result : Tensor (A k)} (alpha' : A k) :
    let backend := (Backend.dense σ (A k)).recorded
    let first := p.execute backend context inputs alpha c (log, t)
    first.1 = .ok result →
      ∃ result', (p.execute backend context inputs' alpha' first.2.1 first.2.2).1 =
        .ok result' := by
  intro backend first hfirst
  obtain ⟨log', hlog', hplain⟩ := execute_recorded hlog p (.dense σ (A k)) context inputs alpha c t
  obtain ⟨log'', -, hplain'⟩ := execute_recorded hlog' p (.dense σ (A k)) context inputs' alpha'
    (p.execute (.dense σ (A k)) context inputs alpha c t).2.1
    (p.execute (.dense σ (A k)) context inputs alpha c t).2.2
  rw [show first = _ from hplain, hplain']
  exact hp.execute_again hdims hc (fitting_execute hc t)
    ((congrArg Prod.fst hplain).symm.trans hfirst) context alpha' _

/-- **A second call reuses every temporary.** After any history, a call succeeds and evicts nothing.
Then a call in the same context with inputs of the same extents, right after it, succeeds, and each
temporary of the plan is one hit: there are no further misses or evictions, and the bytes are the
same. Of all calls to the backend only the one for the result is an allocation. -/
theorem temporaries_reused {factors : List Factor} {output : Option (List Label)} {net : Network}
    (hnet : Network.build factors output = .ok net) {ids ids' : PlanIds} {config : PlanConfig}
    (hp : create ids net config = .ok (p, ids')) (settings : CacheConfig)
    (history : List (CacheEvent A)) (hon : (Cache.after settings history).enabled = true)
    (context : ExecutionContext) (inputs inputs' : List (Tensor (A k)))
    (hdims : inputs'.map Tensor.dims = inputs.map Tensor.dims) (alpha alpha' : A k)
    (before : List Call) (t : σ) :
    let backend := (Backend.dense σ (A k)).recorded
    let cache := Cache.after settings history
    let first := p.execute backend context inputs alpha cache (⟨before, none⟩, t)
    let second := p.execute backend context inputs' alpha' first.2.1 first.2.2
    (∃ result, first.1 = .ok result) → first.2.1.stats.evictions = cache.stats.evictions →
      (∃ result, second.1 = .ok result) ∧
      second.2.1.stats =
        { first.2.1.stats with hits := first.2.1.stats.hits + p.temporaries.length } ∧
      second.2.1.totalBytes = first.2.1.totalBytes ∧
      ∃ dims, p.outputDims (inputs.map Tensor.dims) = .ok dims ∧
        second.2.2.1.OnlySteps (.allocate dims :: first.2.2.1.calls) := by
  rintro backend cache first second ⟨result, hfirst⟩ hevictions
  have hproper := proper_of_create (Network.lawful_of_build hnet).1 hp
  have hlin := hproper.linear
  have hserved : cache.Served settings := Cache.served_after settings history
  have hserved₁ : first.2.1.Served settings := hserved.execute p backend context inputs alpha _
  -- The first call leaves a buffer for every slot, and nothing in use.
  obtain ⟨x, ⟨hbackend, hplan, hcontext, hinputs⟩, hstocks, hon₁⟩ :=
    stocks_execute hserved.used.1 hon hfirst hevictions
  have hle : first.2.1.totalBytes.val ≤ first.2.1.budget := by
    rw [hserved₁.used.1.kept.2.2]
    exact hserved₁.idle.2
  have honce : (writtenSlots p.steps).Nodup := hlin.writtenSlots ▸ hlin.slots
  -- The second call succeeds, and it is a call on such a cache.
  have hnone : (⟨before, none⟩ : CallRecord).failAt = none := rfl
  obtain ⟨result', hsecond⟩ := hproper.recorded_again hdims (Cache.fitting_after settings history)
    hnone alpha' hfirst
  obtain ⟨hstats, htotal, hcalls⟩ := execute_of_stocks hstocks hplan.symm hcontext.symm
    (hdims.trans hinputs.symm) (fun _ => hbackend ▸ rfl) hon₁ hle honce hsecond
  rw [hlin.writtenSlots, List.length_map] at hstats
  exact ⟨⟨result', hsecond⟩, hstats, htotal, hdims ▸ hcalls⟩

/-- The product of three matrices, after the same product of larger ones. The first call finds a
buffer of another shape and makes one; the second call uses this with other matrices. -/
theorem temporaries_reused_chain :
    let large : List (Tensor Int) := [.fill [2, 2] 1, .fill [2, 2] 3, .fill [2, 2] 2]
    let inputs : List (Tensor Int) := [.fill [1, 2] 1, .fill [2, 1] 3, .fill [1, 2] 2]
    let inputs' : List (Tensor Int) := [.fill [1, 2] 7, .fill [2, 1] 0, .fill [1, 2] 4]
    let backend : Backend (CallRecord × Unit) (Tensor Int) Int := (Backend.dense Unit Int).recorded
    let cache : Cache (Tensors fun _ : Unit => Int) :=
      .after {} [.execute () chain default large 5]
    let first := chain.execute (k := ()) backend default inputs 5 cache ({}, ())
    let second := chain.execute (k := ()) backend default inputs' 3 first.2.1 first.2.2
    first.2.1.stats = { misses := 2 } ∧ second.2.1.stats = { hits := 1, misses := 2 } ∧
      second.2.1.totalBytes = first.2.1.totalBytes ∧
      ∃ dims, second.2.2.1.OnlySteps (.allocate dims :: first.2.2.1.calls) := by
  dsimp only
  have hstats : (chain.execute (k := ()) (Backend.dense Unit Int).recorded default
      [.fill [1, 2] 1, .fill [2, 1] 3, .fill [1, 2] 2] 5
      (.after {} [.execute () chain default [.fill [2, 2] 1, .fill [2, 2] 3, .fill [2, 2] 2] 5] :
        Cache (Tensors fun _ : Unit => Int)) ({}, ())).2.1.stats = { misses := 2 } := by cbv
  obtain ⟨-, hhits, htotal, dims, -, hsteps⟩ := temporaries_reused (k := ())
    (A := fun _ : Unit => Int) Network.build_chain create_chain {}
    [.execute () chain default [.fill [2, 2] 1, .fill [2, 2] 3, .fill [2, 2] 2] 5] (by cbv) default
    [.fill [1, 2] 1, .fill [2, 1] 3, .fill [1, 2] 2]
    [.fill [1, 2] 7, .fill [2, 1] 0, .fill [1, 2] 4] rfl 5 3 [] ()
    ⟨.fill [1, 2] 60, by cbv⟩ (by cbv)
  have htemps : chain.temporaries.length = 1 := by cbv
  rw [hstats, htemps] at hhits
  exact ⟨hstats, hhits, htotal, dims, hsteps⟩

end Plan

end TensorNet
