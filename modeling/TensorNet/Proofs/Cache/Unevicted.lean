import TensorNet.Proofs.Cache.Lasting

/-!
# Use without eviction

The number of evictions never falls. So if it is the same at the end of some use as at its start,
nothing was dropped on the way, and to evict was to do nothing.

Then the entry of a key changes only when its own buffer goes out or comes back. When a buffer has
been got, the entry is in use and has the shape that was asked for. When the buffer is back, the
entry has it. The same holds of any use during which the budget is kept, for then there is nothing
to evict.
-/

namespace TensorNet.Cache

variable {κ : Type} {β : κ → Type} {c d : Cache β} {k : κ} {key : CacheKey} {spec : BufferSpec}
variable {e : CacheEntry β} {b : β k}

/-! ### The number of evictions -/

theorem evictions_le_drop (c : Cache β) (key : CacheKey) :
    c.stats.evictions ≤ (c.drop key).stats.evictions := by
  unfold drop
  split
  · exact Nat.le_refl _
  · exact Nat.le_succ _

theorem evictions_le_evictFrom (l : List (Nat × CacheKey)) (c : Cache β) :
    c.stats.evictions ≤ (evictFrom l c).stats.evictions :=
  evictFrom_inv (fun d => c.stats.evictions ≤ d.stats.evictions)
    (fun d r _ h => h.trans (evictions_le_drop d r.2)) (Nat.le_refl _)

theorem evictions_le_evict (c : Cache β) : c.stats.evictions ≤ c.evict.stats.evictions :=
  evictions_le_evictFrom c.idle c

theorem evictions_le_register (c : Cache β) (key : CacheKey) (spec : BufferSpec) :
    c.stats.evictions ≤ (c.register key spec).stats.evictions :=
  (evictions_remove c key).symm.trans_le (evictions_le_evict (c.enter key spec))

theorem totalBytes_makeIdle (c : Cache β) (key : CacheKey) (b : β k) :
    (c.makeIdle k key b).totalBytes = c.totalBytes := by
  unfold makeIdle
  split <;> rfl

theorem stats_makeIdle (c : Cache β) (key : CacheKey) (b : β k) :
    (c.makeIdle k key b).stats = c.stats := by
  unfold makeIdle
  split <;> rfl

theorem evictions_le_release (c : Cache β) (key : CacheKey) (b : β k) :
    c.stats.evictions ≤ (c.release k key b).stats.evictions := by
  rcases c.release_cases k key b with hr | hr | ⟨e, -, -, hr⟩ <;> rw [hr]
  · exact (evictions_remove c key).ge
  · exact (congrArg _ (stats_makeIdle c key b)).symm.trans_le (evictions_le_evict _)

theorem Acquired.evictions_le {answer : Except Error (β k)} (h : Acquired c key spec answer d) :
    c.stats.evictions ≤ d.stats.evictions := by
  cases h with
  | bypass => exact Nat.le_refl _
  | hit he hu => exact Nat.le_refl _
  | made b =>
    exact (evictions_remove c key).symm.trans_le
      (evictions_le_register (c.remove key).countMiss key spec)
  | failed e => exact (evictions_remove c key).ge

theorem Acquired.enabled {answer : Except Error (β k)} (h : Acquired c key spec answer d) :
    d.enabled = c.enabled := by
  cases h with
  | bypass => rfl
  | hit he hu => rfl
  | made b =>
    rw [register_eq, enabled_evict]
    exact (enabled_remove (c.remove key).countMiss key).trans (enabled_remove c key)
  | failed e => exact enabled_remove c key

/-- **An eviction that drops nothing does nothing.** -/
theorem Tidy.evict_eq (h : c.Tidy) (hn : c.evict.stats.evictions = c.stats.evictions) :
    c.evict = c := by
  by_cases hle : c.totalBytes.val ≤ c.budget
  · exact evict_of_le hle
  cases hl : c.idle with
  | nil => rw [Cache.evict, hl, evictFrom, ← hl]
  | cons r rest =>
    -- The first listed entry would have been dropped, and counted.
    exfalso
    obtain ⟨e, he, -⟩ := h.entry_of_mem_idle (hl ▸ List.mem_cons_self)
    have hdrop : (c.drop r.2).stats.evictions = c.stats.evictions + 1 := by
      rw [Cache.drop, he]
    have hle := evictions_le_evictFrom rest (c.drop r.2)
    rw [Cache.evict, hl, evictFrom, if_neg ‹_›] at hn
    omega

/-! ### A buffer goes out -/

/-- **The buffer of a key is out**, in the shape that was asked for. Other entries are the same. -/
structure Lends (c : Cache β) (key : CacheKey) (spec : BufferSpec) (d : Cache β) : Prop where
  own : ∃ e, d.entry? key = some e ∧ e.inUse = true ∧ e.spec = spec
  others : ∀ key', key' ≠ key → d.entry? key' = c.entry? key'

theorem lends_handOut (c : Cache β) (key : CacheKey) (e : CacheEntry β) :
    Lends c key e.spec (c.handOut key e) :=
  ⟨⟨_, (entry_handOut c key key e).trans (if_pos rfl), rfl, rfl⟩,
    fun key' hk => (entry_handOut c key key' e).trans (if_neg hk)⟩

theorem lends_enter (c : Cache β) (key : CacheKey) (spec : BufferSpec) :
    Lends c key spec (c.enter key spec) := by
  have hentry : ∀ key', Cache.entry? (c.enter key spec) key' =
      if key' = key then some ⟨none, spec, spec.bytes, (c.remove key).clock + 1⟩
      else Cache.entry? (c.remove key) key' := fun key' => lookup_put key key' _ _
  refine ⟨⟨_, (hentry key).trans (if_pos rfl), rfl, rfl⟩, fun key' hk => ?_⟩
  rw [hentry, if_neg hk, entry_remove, if_neg hk]

/-- A new buffer, when nothing is dropped to make room for it. -/
theorem lends_register (hc : c.Tidy)
    (hn : ((c.remove key).countMiss.register key spec).stats.evictions = c.stats.evictions) :
    Lends c key spec ((c.remove key).countMiss.register key spec) := by
  have htidy : (c.remove key).countMiss.Tidy := (hc.remove key).congr rfl rfl rfl rfl
  have hsame : ((c.remove key).countMiss.enter key spec).stats.evictions = c.stats.evictions :=
    (evictions_remove (c.remove key).countMiss key).trans (evictions_remove c key)
  rw [register_eq, (htidy.enter key spec).evict_eq (hn.trans hsame.symm)]
  have hlend := lends_enter (c.remove key).countMiss key spec
  refine ⟨hlend.own, fun key' hk => (hlend.others key' hk).trans ?_⟩
  exact (entry_remove c key key').trans (if_neg hk)

section

variable [DecidableEq κ]

/-- **To get a buffer is to have it lent**, if nothing was dropped for it. -/
theorem lends_acquire (hc : c.Tidy) (hon : c.enabled = true) {σ : Type}
    {make : σ → Except Error (β k) × σ} {t t' : σ}
    (h : c.acquire k key spec (fun c t => ((make t).1, c, (make t).2)) t = (.ok b, d, t'))
    (hn : d.stats.evictions = c.stats.evictions) : Lends c key spec d := by
  rw [acquire_eq] at h
  rcases hreq : c.request k key spec with ⟨response, c'⟩
  rw [hreq] at h
  cases response with
  | bypass => exact absurd (hon.symm.trans (request_eq_bypass hreq).1) nofun
  | hit b' =>
    obtain ⟨e, -, rfl, -, rfl⟩ := request_eq_hit hreq
    cases h
    exact lends_handOut c key e
  | miss =>
    obtain rfl := request_eq_miss hreq
    dsimp only at h
    cases hmade : (make t).1 with
    | error e =>
      rw [hmade] at h
      cases h
    | ok b' =>
      rw [hmade] at h
      cases h
      exact lends_register hc hn

end

/-! ### A buffer comes back -/

/-- **The buffer of a key that was in use is back.** Other entries are the same. -/
structure TakesBack (c : Cache β) (key : CacheKey) (b : β k) (d : Cache β) : Prop where
  own : ∀ e, c.entry? key = some e → e.inUse = true →
    d.entry? key = some { e with buffer := some ⟨k, b⟩ }
  others : ∀ key', key' ≠ key → d.entry? key' = c.entry? key'

theorem takesBack_makeIdle (c : Cache β) (key : CacheKey) (b : β k) :
    TakesBack c key b (c.makeIdle k key b) := by
  unfold makeIdle
  split
  · next hnone => exact ⟨fun e he => absurd (hnone.symm.trans he) nofun, fun _ _ => rfl⟩
  · next e he =>
    refine ⟨fun e' he' _ => ?_, fun key' hk => (lookup_put key key' _ _).trans (if_neg hk)⟩
    obtain rfl : e = e' := Option.some.inj (he.symm.trans he')
    exact (lookup_put key key _ _).trans (if_pos rfl)

theorem release_of_free (h : c.isCheckedOut key = false) (b : β k) : c.release k key b = c := by
  rw [release, h]
  rfl

/-- To give back a buffer, when to evict is to do nothing. -/
theorem takesBack_release (hon : c.enabled = true)
    (hevict : ∀ e, c.entry? key = some e → e.inUse = true →
      (c.makeIdle k key b).evict = c.makeIdle k key b) :
    TakesBack c key b (c.release k key b) := by
  cases hout : c.isCheckedOut key with
  | true =>
    obtain ⟨e, he, hu⟩ := isCheckedOut_iff.1 hout
    rw [release_of_inUse hon he hu, hevict e he hu]
    exact takesBack_makeIdle c key b
  | false =>
    rw [release_of_free hout]
    refine ⟨fun e he hu => ?_, fun _ _ => rfl⟩
    rw [isCheckedOut_iff.2 ⟨e, he, hu⟩] at hout
    cases hout

/-- **A buffer that was given back is there**, if nothing was dropped for it. -/
theorem Tidy.takesBack_release (hc : c.Tidy) (hon : c.enabled = true)
    (hn : (c.release k key b).stats.evictions = c.stats.evictions) :
    TakesBack c key b (c.release k key b) := by
  refine Cache.takesBack_release hon fun e he hu => (hc.makeIdle he hu k b).evict_eq ?_
  exact (release_of_inUse hon he hu b ▸ hn).trans (congrArg _ (stats_makeIdle c key b)).symm

/-- Within the budget, only entries change when a buffer is given back. -/
theorem release_of_le (hon : c.enabled = true) (hle : c.totalBytes.val ≤ c.budget) (key : CacheKey)
    (b : β k) : (c.release k key b).stats = c.stats ∧
      (c.release k key b).totalBytes = c.totalBytes ∧ (c.release k key b).budget = c.budget := by
  cases hout : c.isCheckedOut key with
  | true =>
    obtain ⟨e, he, hu⟩ := isCheckedOut_iff.1 hout
    rw [release_of_inUse hon he hu, evict_of_le (by rwa [totalBytes_makeIdle, budget_makeIdle])]
    exact ⟨stats_makeIdle c key b, totalBytes_makeIdle c key b, budget_makeIdle c k key b⟩
  | false =>
    rw [release_of_free hout]
    exact ⟨rfl, rfl, rfl⟩

/-- **A buffer that was given back is there**, if the budget is kept. -/
theorem takesBack_of_le (hon : c.enabled = true) (hle : c.totalBytes.val ≤ c.budget) :
    TakesBack c key b (c.release k key b) :=
  takesBack_release hon fun _ _ _ => evict_of_le (by rwa [totalBytes_makeIdle, budget_makeIdle])

end TensorNet.Cache
