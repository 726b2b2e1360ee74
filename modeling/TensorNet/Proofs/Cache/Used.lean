import Mathlib
import TensorNet.Proofs.Cache.Shared

/-!
# What one client leaves to the others

## 1. Any use

A cache is used when operations were done with it, by anybody and in any order. Nothing is asked of
the sizes of buffers, so the number of bytes may have stopped at its limit. A used cache is tidy,
and it keeps its budget as far as there is something to drop.

## 2. Other keys

A client asks for buffers under its own keys and gives them back under these. What it does to an
entry under another key is at most to evict it: the entry was idle then, and it is counted. For an
operation on one key leaves the entries of all others alone, save for the eviction at its end.
-/

namespace TensorNet.Cache

variable {κ : Type} {β : κ → Type} {c d d' : Cache β} {k : κ} {key key' : CacheKey}
variable {spec : BufferSpec} {e : CacheEntry β} {keys : List CacheKey}

/-! ### Keys that are checked out -/

theorem isCheckedOut_iff :
    c.isCheckedOut key = true ↔ ∃ e, c.entry? key = some e ∧ e.inUse = true := by
  rw [isCheckedOut, Option.any_eq_true]

theorem isCheckedOut_congr (h : d.entry? key = c.entry? key) :
    d.isCheckedOut key = c.isCheckedOut key := by
  rw [isCheckedOut, h, isCheckedOut]

/-- A cache that has only entries of another one has no more keys checked out. -/
theorem Below.isCheckedOut (h : d.Below c) (hout : d.isCheckedOut key = true) :
    c.isCheckedOut key = true := by
  obtain ⟨e, he, hu⟩ := isCheckedOut_iff.1 hout
  exact isCheckedOut_iff.2 ⟨e, h key e he, hu⟩

theorem isCheckedOut_of_idle (he : c.entry? key = some e) (hu : e.inUse = false) :
    c.isCheckedOut key = false := by
  rw [isCheckedOut, he]
  exact hu

/-- **What was given back is not checked out**, whether the cache kept it or not. -/
theorem isCheckedOut_release {b : β k} (h : (c.release k key b).isCheckedOut key' = true) :
    c.isCheckedOut key' = true ∧ key' ≠ key := by
  unfold Cache.release at h
  split at h
  · next hnot =>
    refine ⟨h, fun hk => ?_⟩
    rw [← hk, h] at hnot
    cases hnot
  · split at h
    · refine ⟨(below_remove c key).isCheckedOut h, fun hk => ?_⟩
      obtain ⟨e, he, -⟩ := isCheckedOut_iff.1 h
      rw [entry_remove, if_pos hk] at he
      cases he
    · next hout _ =>
      rw [Bool.not_eq_true, Bool.not_eq_false'] at hout
      obtain ⟨e, he, -⟩ := isCheckedOut_iff.1 hout
      have h := (below_evict _).isCheckedOut h
      have hentry : Cache.entry? (c.makeIdle k key b) key' =
          if key' = key then some { e with buffer := some ⟨k, b⟩ } else c.entry? key' := by
        rw [makeIdle, he]
        exact lookup_put key key' _ c.entries
      by_cases hk : key' = key
      · rw [if_pos hk] at hentry
        rw [isCheckedOut_of_idle hentry rfl] at h
        cases h
      · rw [if_neg hk] at hentry
        exact ⟨(isCheckedOut_congr hentry).symm.trans h, hk⟩

section

variable [DecidableEq κ]

/-! ### Getting a buffer -/

/-- To get a buffer is a request, and a registration if a buffer had to be made. -/
theorem acquire_eq {σ : Type} (c : Cache β) (key : CacheKey) (spec : BufferSpec)
    (make : σ → Except Error (β k) × σ) (t : σ) :
    c.acquire k key spec (fun c t => ((make t).1, c, (make t).2)) t =
      match c.request k key spec with
      | (.bypass, c) => ((make t).1, c, (make t).2)
      | (.hit b, c) => (.ok b, c, t)
      | (.miss, c) =>
        match (make t).1 with
        | .ok b => (.ok b, c.register key spec, (make t).2)
        | .error e => (.error e, c, (make t).2) := by
  unfold acquire
  rcases c.request k key spec with ⟨response, c⟩
  cases response with
  | bypass => rfl
  | hit b => rfl
  | miss =>
    dsimp only
    cases (make t).1 with
    | ok b => rfl
    | error e => rfl

/-- **The ways of getting a buffer**, when a new one is made without the cache. -/
inductive Acquired (c : Cache β) (key : CacheKey) (spec : BufferSpec) :
    Except Error (β k) → Cache β → Prop
  /-- The cache is disabled. -/
  | bypass (answer : Except Error (β k)) : Acquired c key spec answer c
  | hit {e : CacheEntry β} {b : β k} (he : c.entry? key = some e) (hu : e.inUse = false) :
      Acquired c key spec (.ok b) (c.handOut key e)
  | made (b : β k) : Acquired c key spec (.ok b) ((c.remove key).countMiss.register key spec)
  /-- No buffer could be made. -/
  | failed (e : Error) : Acquired c key spec (.error e) (c.remove key).countMiss

theorem acquired {σ : Type} (make : σ → Except Error (β k) × σ) (t : σ) :
    Acquired c key spec (c.acquire k key spec (fun c t => ((make t).1, c, (make t).2)) t).1
      (c.acquire k key spec (fun c t => ((make t).1, c, (make t).2)) t).2.1 := by
  rw [acquire_eq]
  rcases c.request_cases k key spec with hr | ⟨e, b, he, hu, hr⟩ | hr <;> rw [hr]
  · exact .bypass _
  · exact .hit he hu
  · dsimp only
    cases (make t).1 with
    | ok b => exact .made b
    | error e => exact .failed e

omit [DecidableEq κ] in
theorem Acquired.isCheckedOut {answer : Except Error (β k)} (h : Acquired c key spec answer d)
    (hout : d.isCheckedOut key' = true) :
    c.isCheckedOut key' = true ∨ key' = key ∧ ∃ b, answer = .ok b := by
  cases h with
  | bypass => exact .inl hout
  | @hit e b he hu =>
    by_cases hk : key' = key
    · exact .inr ⟨hk, b, rfl⟩
    · have hentry := entry_handOut c key key' e
      rw [if_neg hk] at hentry
      exact .inl ((isCheckedOut_congr hentry).symm.trans hout)
  | made b =>
    by_cases hk : key' = key
    · exact .inr ⟨hk, b, rfl⟩
    · obtain ⟨e, he, hu⟩ := isCheckedOut_iff.1 hout
      have he := entry_register he
      rw [if_neg hk] at he
      exact .inl (isCheckedOut_iff.2 ⟨e, below_remove c key key' e he, hu⟩)
  | failed e =>
    have hbelow : (c.remove key).countMiss.Below c := below_remove c key
    exact .inl (hbelow.isCheckedOut hout)

/-! ### Any use -/

/-- **Operations lead from an empty cache to a cache.** To get a buffer is a request, and a
registration if a buffer had to be made; any operations may be done in between. -/
inductive Used (settings : CacheConfig) : Cache β → Prop
  | start : Used settings (.ofConfig settings)
  | request {c : Cache β} (h : Used settings c) (k : κ) (key : CacheKey) (spec : BufferSpec) :
      Used settings (c.request k key spec).2
  | register {c : Cache β} (h : Used settings c) (key : CacheKey) (spec : BufferSpec) :
      Used settings (c.register key spec)
  | release {c : Cache β} (h : Used settings c) (k : κ) (key : CacheKey) (b : β k) :
      Used settings (c.release k key b)
  | clear {c : Cache β} (h : Used settings c) : Used settings c.clear
  | evict {c : Cache β} (h : Used settings c) : Used settings c.evict
  | setEnabled {c : Cache β} (h : Used settings c) (on : Bool) : Used settings (c.setEnabled on)

variable {settings : CacheConfig}

theorem Used.acquire {σ : Type} (h : Used settings c) (make : σ → Except Error (β k) × σ) (t : σ) :
    Used settings (c.acquire k key spec (fun c t => ((make t).1, c, (make t).2)) t).2.1 := by
  have hreq := h.request k key spec
  rw [acquire_eq]
  cases hr : c.request k key spec with
  | mk response c' =>
    rw [hr] at hreq
    cases response with
    | bypass => exact hreq
    | hit b => exact hreq
    | miss =>
      dsimp only
      cases (make t).1 with
      | ok b => exact hreq.register key spec
      | error e => exact hreq

/-- A cache that many clients share is used. -/
theorem used_of_reachable {s : Shared β} (h : s.Reachable settings) : s.cache.Used settings := by
  induction h with
  | refl => exact .start
  | @tail s s' _ hs ih =>
    have asked : ∀ k key spec (response : Response (β k)) (c : Cache β),
        s.cache.request k key spec = (response, c) → c.Used settings := by
      intro k key spec response c hreq
      have hused := ih.request k key spec
      rwa [hreq] at hused
    cases hs with
    | bypass hreq => exact asked _ _ _ _ _ hreq
    | hit hreq => exact asked _ _ _ _ _ hreq
    | miss hreq => exact asked _ _ _ _ _ hreq
    | failed hw => exact ih
    | made hw room => exact ih.register ..
    | release k key b => exact ih.release k key b
    | clear => exact ih.clear
    | evict => exact ih.evict
    | setEnabled on => exact ih.setEnabled on

/-- **A used cache is tidy, and it keeps its budget** as far as there is something to drop. -/
theorem Used.kept (h : Used settings c) :
    c.Tidy ∧ c.Within ∧ c.budget = settings.budget.resolve := by
  induction h with
  | start => exact ⟨(Consistent.of_empty rfl rfl rfl).toTidy, .inl (Nat.zero_le _), rfl⟩
  | @request c _ k key spec ih =>
    obtain ⟨htidy, hwithin, hbudget⟩ := ih
    rcases c.request_cases k key spec with hr | ⟨e, b, he, hu, hr⟩ | hr <;> rw [hr]
    · exact ⟨htidy, hwithin, hbudget⟩
    · exact ⟨htidy.handOut he hu, hwithin.handOut key e, hbudget⟩
    · exact ⟨(htidy.remove key).congr rfl rfl rfl rfl, hwithin.remove key,
        (budget_remove c key).trans hbudget⟩
  | @register c _ key spec ih =>
    obtain ⟨htidy, -, hbudget⟩ := ih
    exact ⟨(htidy.enter key spec).evict, within_evict _,
      (budget_evict _).trans ((budget_remove c key).trans hbudget)⟩
  | @release c _ k key b ih =>
    obtain ⟨htidy, hwithin, hbudget⟩ := ih
    rcases c.release_cases k key b with hr | hr | ⟨e, he, hu, hr⟩ <;> rw [hr]
    · exact ⟨htidy, hwithin, hbudget⟩
    · exact ⟨htidy.remove key, hwithin.remove key, (budget_remove c key).trans hbudget⟩
    · exact ⟨(htidy.makeIdle he hu k b).evict, within_evict _,
        (budget_evict _).trans ((budget_makeIdle ..).trans hbudget)⟩
  | @clear c _ ih => exact ⟨(Consistent.clear c).toTidy, .inl (Nat.zero_le _), ih.2.2⟩
  | evict _ ih => exact ⟨ih.1.evict, within_evict _, (budget_evict _).trans ih.2.2⟩
  | setEnabled _ on ih => exact ⟨ih.1.congr rfl rfl rfl rfl, ih.2⟩

theorem Used.tidy (h : Used settings c) : c.Tidy := h.kept.1

/-- **The budget is kept when no entry is in use.** -/
theorem Used.total_le (h : Used settings c) (hfree : ∀ key, c.isCheckedOut key = false) :
    c.totalBytes.val ≤ settings.budget.resolve := by
  obtain ⟨htidy, hwithin, hbudget⟩ := h.kept
  rcases hwithin with hle | hnil
  · exact hbudget ▸ hle
  · have hempty : c.entries = [] := List.eq_nil_iff_forall_not_mem.2 fun a ha => by
      have he := htidy.mem_entries.1 ha
      have hu : a.2.inUse = false := Bool.eq_false_iff.2 fun hin =>
        Bool.eq_false_iff.1 (hfree a.1) (isCheckedOut_iff.2 ⟨a.2, he, hin⟩)
      have hm := (htidy.idle a.2.stamp a.1).2 ⟨a.2, he, hu, rfl⟩
      rw [hnil] at hm
      cases hm
    have hbound := htidy.bound
    rw [hempty] at hbound
    exact hbound.trans (Nat.zero_le _)

end

/-! ### Other keys -/

/-- The number of entries under other keys. -/
def others (keys : List CacheKey) (c : Cache β) : Nat := c.entries.countP fun e => e.1 ∉ keys

/-- **Entries of other keys are as they were, unless they were evicted.** -/
structure Spared (keys : List CacheKey) (c d : Cache β) : Prop where
  /-- The entry is the same, or there was an idle one or none and there is none now. -/
  entry : ∀ key, key ∉ keys →
    d.entry? key = c.entry? key ∨ d.entry? key = none ∧ c.isCheckedOut key = false
  /-- The entries that are gone were counted as evictions. -/
  counted : c.others keys + c.stats.evictions ≤ d.others keys + d.stats.evictions

theorem Spared.refl (keys : List CacheKey) (c : Cache β) : Spared keys c c :=
  ⟨fun _ _ => .inl rfl, Nat.le_refl _⟩

theorem Spared.trans (h : Spared keys c d) (h' : Spared keys d d') : Spared keys c d' := by
  refine ⟨fun key hk => ?_, h.counted.trans h'.counted⟩
  rcases h.entry key hk with heq | ⟨hnone, hfree⟩
  · rcases h'.entry key hk with heq' | ⟨hnone', hfree'⟩
    · exact .inl (heq'.trans heq)
    · exact .inr ⟨hnone', (isCheckedOut_congr heq).symm.trans hfree'⟩
  · refine .inr ⟨?_, hfree⟩
    rcases h'.entry key hk with heq' | ⟨hnone', -⟩
    · exact heq'.trans hnone
    · exact hnone'

theorem without_without (key : CacheKey) (es : List (CacheKey × CacheEntry β)) :
    without key (without key es) = without key es := by
  simp only [without, List.filter_filter, Bool.and_self]

theorem without_put (key : CacheKey) (e : CacheEntry β) (es : List (CacheKey × CacheEntry β)) :
    without key (put key e es) = without key es := by
  rw [put, without, List.filter_cons_of_neg (by simp)]
  exact without_without key es

/-- **An operation on one key** leaves the entries of all others alone. -/
theorem Spared.of_without (hk : key ∈ keys) (h : without key d.entries = without key c.entries)
    (hstats : d.stats.evictions = c.stats.evictions) : Spared keys c d := by
  have hothers : ∀ c : Cache β, c.others keys =
      (without key c.entries).countP fun e => e.1 ∉ keys := by
    intro c
    rw [others, without, List.countP_filter]
    refine List.countP_congr fun e _ => ?_
    simp only [decide_eq_true_eq, Bool.and_eq_true, bne_iff_ne]
    exact ⟨fun hn => ⟨hn, fun he => hn (he ▸ hk)⟩, fun hn => hn.1⟩
  refine ⟨fun key' hk' => .inl ?_, by rw [hothers, hothers, h, hstats]⟩
  have hne : key' ≠ key := fun he => hk' (he ▸ hk)
  have hlook : ∀ c : Cache β, c.entry? key' = (without key c.entries).lookup key' := fun c => by
    rw [lookup_without, if_neg hne, entry_eq]
  rw [hlook, hlook, h]

theorem without_remove (c : Cache β) (key : CacheKey) :
    without key (c.remove key).entries = without key c.entries := by
  unfold remove
  split
  · rfl
  · exact without_without key c.entries

theorem evictions_remove (c : Cache β) (key : CacheKey) :
    (c.remove key).stats.evictions = c.stats.evictions := by
  unfold remove
  split <;> rfl

/-- A step of the eviction loop: the entry that is dropped was idle, and it is counted. -/
theorem Spared.drop {r : Nat × CacheKey} {rest : List (Nat × CacheKey)}
    (h : ({ c with idle := r :: rest } : Cache β).Tidy) :
    Spared keys { c with idle := r :: rest } { c.drop r.2 with idle := rest } := by
  obtain ⟨e, he, hu, -⟩ := h.entry_of_mem_idle List.mem_cons_self
  have he' : c.entry? r.2 = some e := he
  have hentry : ∀ key, Cache.entry? ({ c.drop r.2 with idle := rest } : Cache β) key =
      if key = r.2 then none else c.entry? key := entry_drop c r.2
  refine ⟨fun key _ => ?_, ?_⟩
  · by_cases hk : key = r.2
    · refine .inr ⟨by rw [hentry, if_pos hk], ?_⟩
      rw [hk]
      exact isCheckedOut_of_idle he hu
    · exact .inl (by rw [hentry, if_neg hk]; rfl)
  · have hperm := perm_cons_filter_ne h.keys he
    have hcount : c.others keys ≤ (without r.2 c.entries).countP (fun e => e.1 ∉ keys) + 1 := by
      rw [others, hperm.countP_eq, List.countP_cons]
      exact Nat.add_le_add_left (by split <;> omega) _
    rw [Cache.drop, he']
    have : c.others keys + c.stats.evictions ≤
        (without r.2 c.entries).countP (fun e => e.1 ∉ keys) + (c.stats.evictions + 1) := by
      omega
    exact this

theorem Spared.evict (h : c.Tidy) : Spared keys c c.evict :=
  (evictFrom_inv (fun d => d.Tidy ∧ Spared keys c d)
    (fun _ _ _ h => ⟨h.1.drop, h.2.trans (.drop h.1)⟩) ⟨h, .refl keys c⟩).2

/-- **Getting a buffer** spares the entries of other keys. -/
theorem Acquired.spared {answer : Except Error (β k)} (h : Acquired c key spec answer d)
    (hc : c.Tidy) (hk : key ∈ keys) : Spared keys c d := by
  cases h with
  | bypass => exact .refl keys c
  | hit he hu => exact .of_without hk (without_put key _ c.entries) rfl
  | made b =>
    have hmiss : (c.remove key).countMiss.Tidy := (hc.remove key).congr rfl rfl rfl rfl
    refine Spared.trans (.of_without hk ?_ ?_) (.evict (hmiss.enter key spec))
    · exact (without_put ..).trans ((without_remove ..).trans (without_remove c key))
    · exact (evictions_remove (c.remove key).countMiss key).trans (evictions_remove c key)
  | failed e =>
    exact .of_without hk (without_remove c key) (evictions_remove c key)

/-- **Giving a buffer back** spares the entries of other keys. -/
theorem Spared.release (hc : c.Tidy) (hk : key ∈ keys) (b : β k) :
    Spared keys c (c.release k key b) := by
  rcases c.release_cases k key b with hr | hr | ⟨e, he, hu, hr⟩ <;> rw [hr]
  · exact .refl keys c
  · exact .of_without hk (without_remove c key) (evictions_remove c key)
  · refine Spared.trans ?_ (.evict (hc.makeIdle he hu k b))
    rw [makeIdle, he]
    exact .of_without hk (without_put key _ c.entries) rfl

end TensorNet.Cache
