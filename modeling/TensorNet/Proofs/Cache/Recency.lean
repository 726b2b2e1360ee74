import Mathlib
import TensorNet.Proofs.Cache.Shared

/-!
# Which entries are dropped

## 1. The loop

Eviction takes idle entries from the front of the list until the budget is kept. So what it drops
is a beginning of the list, and the shortest that will do.

## 2. The order of the list

The clock counts hits and registrations, and the stamp of an entry is the number of the last one of
its key. What is given back does not move the clock, so an entry keeps its place whenever it comes
back. Hence the list is ordered by the last time that each key was acquired, and the entries that
are dropped are those whose last time is the longest ago.
-/

namespace TensorNet

namespace Cache

variable {κ : Type} {β : κ → Type} {c d : Cache β} {key : CacheKey} {e : CacheEntry β}

/-! ### Dropping several entries -/

/-- Drops the entries of listed keys. -/
def dropAll (gone : List (Nat × CacheKey)) (c : Cache β) : Cache β :=
  gone.foldl (fun c r => c.drop r.2) c

theorem dropAll_append (gone : List (Nat × CacheKey)) (r : Nat × CacheKey) (c : Cache β) :
    dropAll (gone ++ [r]) c = (dropAll gone c).drop r.2 := by
  rw [dropAll, List.foldl_append]
  rfl

/-- **Evicting drops a beginning of the list**, and goes on only while the budget is not kept. -/
theorem evictFrom_eq (l : List (Nat × CacheKey)) (c : Cache β) : ∃ gone rest, l = gone ++ rest ∧
    evictFrom l c = { dropAll gone c with idle := rest } ∧
    ∀ pre r, gone = pre ++ [r] → c.budget < (dropAll pre c).totalBytes.val := by
  induction l generalizing c with
  | nil => exact ⟨[], [], rfl, rfl, fun pre r h => by simp at h⟩
  | cons a l ih =>
    unfold evictFrom
    split
    · exact ⟨[], a :: l, rfl, rfl, fun pre r h => by simp at h⟩
    · next hover =>
      obtain ⟨gone, rest, rfl, heq, hlast⟩ := ih (c.drop a.2)
      refine ⟨a :: gone, rest, rfl, heq, fun pre r h => ?_⟩
      cases pre with
      | nil => exact Nat.lt_of_not_le hover
      | cons b pre =>
        obtain ⟨rfl, htail⟩ := List.cons.inj h
        have := hlast pre r htail
        rwa [budget_drop] at this

theorem entry_dropAll (gone : List (Nat × CacheKey)) (c : Cache β) (key : CacheKey) :
    Cache.entry? (dropAll gone c) key = if key ∈ gone.map (·.2) then none else c.entry? key := by
  induction gone generalizing c with
  | nil => simp [dropAll]
  | cons r gone ih =>
    show Cache.entry? (dropAll gone (c.drop r.2)) key = _
    rw [ih, entry_drop, List.map_cons]
    by_cases hg : key ∈ gone.map (·.2)
    · rw [if_pos hg, if_pos (List.mem_cons_of_mem _ hg)]
    · by_cases hr : key = r.2
      · rw [if_neg hg, if_pos hr, if_pos (hr ▸ List.mem_cons_self)]
      · rw [if_neg hg, if_neg hr, if_neg fun hm => (List.mem_cons.1 hm).elim hr hg]

section

variable {gone rest : List (Nat × CacheKey)}

theorem Consistent.dropAll (h : ({ c with idle := gone ++ rest } : Cache β).Consistent) :
    ({ dropAll gone c with idle := rest } : Cache β).Consistent := by
  induction gone generalizing c with
  | nil => exact h
  | cons r gone ih => exact ih h.drop

/-- Each dropped entry is counted. Nothing else is. -/
theorem Consistent.stats_dropAll (h : ({ c with idle := gone ++ rest } : Cache β).Consistent) :
    (Cache.dropAll gone c).stats =
      { c.stats with evictions := c.stats.evictions + gone.length } := by
  induction gone generalizing c with
  | nil => rfl
  | cons r gone ih =>
    obtain ⟨e, he, -⟩ := h.entry_of_mem_idle List.mem_cons_self
    have he' : c.entry? r.2 = some e := he
    have hstats : (c.drop r.2).stats =
        { c.stats with evictions := c.stats.evictions + 1 } := by rw [Cache.drop, he']
    show (Cache.dropAll gone (c.drop r.2)).stats = _
    rw [ih h.drop, hstats, List.length_cons, Nat.add_assoc, Nat.add_comm 1]

/-- No key is listed twice. -/
theorem Consistent.nodup_idle (h : c.Consistent) : (c.idle.map (·.2)).Nodup := by
  refine List.pairwise_map.2 (h.ordered.imp_of_mem fun {r s} hr hs hlt hk => ?_)
  obtain ⟨e, he, -, he₁⟩ := h.entry_of_mem_idle hr
  obtain ⟨e', he', -, he₂⟩ := h.entry_of_mem_idle hs
  rw [hk, he'] at he
  rw [← he₁, ← he₂, Option.some.inj he] at hlt
  exact Nat.lt_irrefl _ hlt

end

/-! ### What eviction leaves -/

/-- The entries of one cache that another does not have. -/
def missing (c d : Cache β) : List (CacheKey × CacheEntry β) :=
  c.entries.filter fun e => (d.entry? e.1).isNone

/-- **What an eviction did**: the list was split, and the entries of the first part are gone. -/
structure Evicted (c d : Cache β) (gone rest : List (Nat × CacheKey)) : Prop where
  before : c.Consistent
  after : d.Consistent
  idle : c.idle = gone ++ rest
  left : d.idle = rest
  entry : ∀ key, d.entry? key = if key ∈ gone.map (·.2) then none else c.entry? key
  stats : d.stats = { c.stats with evictions := c.stats.evictions + gone.length }
  /-- The last entry was dropped because the budget was not kept with it. -/
  needed : ∀ pre r e, gone = pre ++ [r] → c.entry? r.2 = some e →
    d.budget < d.totalBytes.val + e.spec.bytes.val

theorem Consistent.evicted (h : c.Consistent) : ∃ gone rest, Evicted c c.evict gone rest := by
  obtain ⟨gone, rest, hl, heq, hlast⟩ := evictFrom_eq c.idle c
  have hsplit : ({ c with idle := gone ++ rest } : Cache β).Consistent := by rwa [← hl]
  have hd : c.evict = { Cache.dropAll gone c with idle := rest } := heq
  refine ⟨gone, rest, h, h.evict, hl, by rw [hd], fun key => ?_, ?_, fun pre r e hg he => ?_⟩
  · rw [hd]
    exact entry_dropAll gone c key
  · rw [hd]
    exact hsplit.stats_dropAll
  · subst hg
    rw [List.append_assoc] at hsplit
    have hpre := hsplit.dropAll
    have hn := h.nodup_idle
    rw [hl, List.append_assoc, List.map_append, List.map_append] at hn
    have hnot : r.2 ∉ pre.map (·.2) := fun hm =>
      (List.nodup_append.1 hn).2.2 _ hm _ List.mem_cons_self rfl
    have hr : Cache.entry? (Cache.dropAll pre c) r.2 = some e := by
      rw [entry_dropAll, if_neg hnot, he]
    have hle := hpre.bytes_le hr
    have hsize := h.sizes _ _ he
    have hlt := hlast pre r rfl
    have htotal : c.evict.totalBytes = (Cache.dropAll pre c).totalBytes - e.bytes := by
      rw [hd, dropAll_append, Cache.drop, hr]
    rw [budget_evict, htotal, Saturating.val_sub, ← hsize, Nat.sub_add_cancel hle]
    exact hlt

section

variable {gone rest : List (Nat × CacheKey)} (h : Evicted c d gone rest)
include h

theorem Evicted.mem_missing : (key, e) ∈ missing c d ↔
    c.entry? key = some e ∧ key ∈ gone.map (·.2) := by
  rw [missing, List.mem_filter, h.before.mem_entries, h.entry]
  refine and_congr_right fun he => ?_
  split
  · next hm => exact ⟨fun _ => hm, fun _ => rfl⟩
  · next hm =>
    rw [he]
    exact ⟨fun hn => (nomatch hn), fun hm' => absurd hm' hm⟩

/-- A dropped entry was idle, and it stood in the first part of the list. -/
theorem Evicted.idle_of_missing (hm : (key, e) ∈ missing c d) :
    e.inUse = false ∧ (e.stamp, key) ∈ gone := by
  obtain ⟨he, hk⟩ := h.mem_missing.1 hm
  obtain ⟨r, hr, rfl⟩ := List.mem_map.1 hk
  obtain ⟨e', he', hu, hs⟩ :=
    h.before.entry_of_mem_idle (h.idle ▸ List.mem_append_left rest hr)
  obtain rfl := Option.some.inj (he'.symm.trans he)
  exact ⟨hu, hs ▸ hr⟩

theorem Evicted.length_missing : (missing c d).length = gone.length := by
  have hn := h.before.nodup_idle
  rw [h.idle, List.map_append] at hn
  have hperm : ((missing c d).map (·.1)).Perm (gone.map (·.2)) := by
    refine (List.perm_ext_iff_of_nodup (h.before.keys.sublist (List.filter_sublist.map _))
      (List.nodup_append.1 hn).1).2 fun key => ?_
    constructor
    · intro hm
      obtain ⟨e, he, rfl⟩ := List.mem_map.1 hm
      exact (h.mem_missing.1 he).2
    · intro hm
      obtain ⟨r, hr, rfl⟩ := List.mem_map.1 hm
      obtain ⟨e, he, -⟩ :=
        h.before.entry_of_mem_idle (h.idle ▸ List.mem_append_left rest hr)
      exact List.mem_map.2 ⟨(r.2, e), h.mem_missing.2 ⟨he, hm⟩, rfl⟩
  have := hperm.length_eq
  rwa [List.length_map, List.length_map] at this

theorem Evicted.below : d.Below c := by
  intro key e he
  rw [h.entry] at he
  split at he
  · cases he
  · exact he

/-- A dropped entry has an earlier stamp than any idle entry that stays. -/
theorem Evicted.stamp_lt (hm : (key, e) ∈ missing c d) {key' : CacheKey} {e' : CacheEntry β}
    (he' : d.entry? key' = some e') (hu : e'.inUse = false) : e.stamp < e'.stamp := by
  have hrest : (e'.stamp, key') ∈ rest := by
    rw [← h.left, h.after.idle]
    exact ⟨e', he', hu, rfl⟩
  have hord := h.before.ordered
  rw [h.idle] at hord
  exact (List.pairwise_append.1 hord).2.2 _ (h.idle_of_missing hm).2 _ hrest

/-- The budget is not kept with the dropped entry of the latest stamp. -/
theorem Evicted.budget_lt (hm : (key, e) ∈ missing c d)
    (hlast : ∀ a ∈ missing c d, a.2.stamp ≤ e.stamp) :
    d.budget < d.totalBytes.val + e.spec.bytes.val := by
  have hgone := (h.idle_of_missing hm).2
  obtain ⟨pre, r, rfl⟩ := (List.eq_nil_or_concat gone).resolve_left (List.ne_nil_of_mem hgone)
  rw [List.concat_eq_append] at h hgone
  have hr : r ∈ pre ++ [r] := List.mem_append_right _ (List.mem_singleton_self r)
  obtain ⟨e', he', -, hs⟩ :=
    h.before.entry_of_mem_idle (h.idle ▸ List.mem_append_left rest hr)
  have hle : e'.stamp ≤ e.stamp :=
    hlast (r.2, e') (h.mem_missing.2 ⟨he', List.mem_map_of_mem hr⟩)
  have hkey : key = r.2 := by
    rcases List.mem_append.1 hgone with hp | hp
    · have hord := h.before.ordered
      rw [h.idle, List.append_assoc] at hord
      have hlt : e.stamp < r.1 :=
        (List.pairwise_append.1 hord).2.2 _ hp _ List.mem_cons_self
      omega
    · exact congrArg Prod.snd (List.mem_singleton.1 hp)
  exact h.needed pre r e rfl (hkey ▸ (h.mem_missing.1 hm).1)

end

/-! ### Stamps are times -/

/-- The number of the last acquire of a key, of all acquires so far. It is 0 if there was none. -/
def lastAcquire (key : CacheKey) : List CacheKey → Nat
  | [] => 0
  | k :: l => if k = key then l.length + 1 else lastAcquire key l

/-- **The clock counts acquires**, and every entry has the stamp of the last acquire of its key. -/
structure Dated (c : Cache β) (l : List CacheKey) : Prop where
  clock : c.clock = l.length
  stamp : ∀ key e, c.entry? key = some e → e.stamp = lastAcquire key l

variable {l : List CacheKey}

theorem Dated.of_below (h : c.Dated l) (hd : d.Below c) (hclock : d.clock = c.clock) :
    d.Dated l :=
  ⟨hclock.trans h.clock, fun key e he => h.stamp key e (hd key e he)⟩

/-- An acquire of a key gives its entry the next stamp, and leaves the others as they are. -/
theorem Dated.acquire (h : c.Dated l) (hclock : d.clock = c.clock + 1)
    (hd : ∀ key', d.entry? key' = if key' = key then some e else c.entry? key')
    (he : e.stamp = c.clock + 1) : d.Dated (key :: l) := by
  refine ⟨by rw [hclock, h.clock, List.length_cons], fun key' e' he' => ?_⟩
  rw [hd] at he'
  by_cases hk : key' = key
  · rw [if_pos hk] at he'
    rw [lastAcquire, if_pos hk.symm, ← Option.some.inj he', he, h.clock]
  · rw [if_neg hk] at he'
    rw [lastAcquire, if_neg (Ne.symm hk), h.stamp key' e' he']

theorem clock_remove (c : Cache β) (key : CacheKey) : (c.remove key).clock = c.clock := by
  unfold remove
  split <;> rfl

theorem clock_dropAll (gone : List (Nat × CacheKey)) (c : Cache β) :
    (dropAll gone c).clock = c.clock := by
  induction gone generalizing c with
  | nil => rfl
  | cons r gone ih =>
    refine (ih (c.drop r.2)).trans ?_
    unfold drop
    split <;> rfl

theorem clock_evict (c : Cache β) : c.evict.clock = c.clock := by
  obtain ⟨gone, rest, -, heq, -⟩ := evictFrom_eq c.idle c
  rw [evict, heq]
  exact clock_dropAll gone c

theorem Dated.remove (h : c.Dated l) (key : CacheKey) : (c.remove key).Dated l :=
  h.of_below (below_remove c key) (clock_remove c key)

theorem Dated.evict (h : c.Dated l) : c.evict.Dated l :=
  h.of_below (below_evict c) (clock_evict c)

theorem Dated.handOut (h : c.Dated l) (key : CacheKey) (e : CacheEntry β) :
    (c.handOut key e).Dated (key :: l) :=
  h.acquire rfl (fun key' => lookup_put key key' _ c.entries) rfl

theorem Dated.enter (h : c.Dated l) (key : CacheKey) (spec : BufferSpec) :
    (c.enter key spec).Dated (key :: l) :=
  (h.remove key).acquire rfl (fun key' => lookup_put key key' _ (c.remove key).entries) rfl

/-- What comes back keeps its stamp. -/
theorem Dated.makeIdle (h : c.Dated l) (he : c.entry? key = some e) (k : κ) (b : β k) :
    (c.makeIdle k key b).Dated l := by
  rw [Cache.makeIdle, he]
  refine ⟨h.clock, fun key' e' he' => ?_⟩
  rw [entry_eq, lookup_put] at he'
  split at he'
  · next hk =>
    rw [← Option.some.inj he', hk]
    exact h.stamp key e he
  · exact h.stamp key' e' he'

end Cache

namespace Shared

variable {κ : Type} {β : κ → Type} {settings : CacheConfig} {s s' : Shared β} {c : Cache β}

theorem kept_dated : Kept settings fun (c : Cache β) l => c.Dated l where
  start := ⟨rfl, fun _ _ he => nomatch he⟩
  countMiss _ _ h := ⟨h.clock, h.stamp⟩
  remove _ _ key h := h.remove key
  handOut _ _ key e _ _ h := h.handOut key e
  register _ _ key spec _ h := (h.enter key spec).evict
  takeBack _ _ k _ _ b he _ h := (h.makeIdle he k b).evict
  clear c _ h := h.of_below (Cache.below_clear c) rfl
  evict _ _ h := h.evict
  setEnabled _ _ _ h := ⟨h.clock, h.stamp⟩

/-- **The steps that evict**, with the cache as it is when its eviction loop begins. -/
inductive Evicts : Shared β → Cache β → Shared β → Prop
  /-- A buffer has been made and is registered. -/
  | made {s : Shared β} {w : CacheKey × BufferSpec} (h : w ∈ s.waiting)
      (room : (s.cache.enter w.1 w.2).Countable) :
      Evicts s (s.cache.enter w.1 w.2)
        ⟨s.cache.register w.1 w.2, s.waiting.erase w, w.1 :: s.acquired⟩
  /-- A buffer is given back that is kept. -/
  | release {s : Shared β} {k : κ} {key : CacheKey} {b : β k} (h : s.cache.isCheckedOut key = true)
      (on : s.cache.enabled = true) :
      Evicts s (s.cache.makeIdle k key b) { s with cache := s.cache.release k key b }
  | evict {s : Shared β} : Evicts s s.cache { s with cache := s.cache.evict }

theorem Evicts.cache_eq (h : Evicts s c s') : s'.cache = c.evict := by
  cases h with
  | made h room => exact Cache.register_eq ..
  | release h on => simp only [Cache.release, h, on, Bool.not_true, Bool.false_eq_true, if_false]
  | evict => rfl

variable [DecidableEq κ]

theorem Evicts.step (h : Evicts s c s') : Step s s' := by
  cases h with
  | made h room => exact .made h room
  | release h on => exact .release ..
  | evict => exact .evict

/-- When an eviction loop begins, the books agree and stamps are times. -/
theorem Evicts.start (h : Reachable settings s) (he : Evicts s c s') :
    c.Consistent ∧ c.Dated s'.acquired := by
  have hc := h.consistent
  have hd : s.cache.Dated s.acquired := kept_dated.of_reachable h
  cases he with
  | made hw room => exact ⟨hc.enter room, hd.enter ..⟩
  | release hout on =>
    rw [Cache.isCheckedOut, Option.any_eq_true] at hout
    obtain ⟨e, hlook, hu⟩ := hout
    exact ⟨hc.makeIdle hlook hu _ _, hd.makeIdle hlook _ _⟩
  | evict => exact ⟨hc, hd⟩

/-- **Eviction drops what was acquired longest ago, and no more than needed.** What is dropped was
idle and was last acquired before every idle entry that stays. The loop ends as soon as the budget
is kept: with the dropped entry that was acquired last it would not be. Each dropped entry is
counted, and the others are left as they are. -/
theorem evicts_oldest (h : Reachable settings s) (he : Evicts s c s') :
    (∀ a ∈ c.missing s'.cache, a.2.inUse = false) ∧
    (∀ a ∈ c.missing s'.cache, ∀ key e, s'.cache.entry? key = some e → e.inUse = false →
      Cache.lastAcquire a.1 s'.acquired < Cache.lastAcquire key s'.acquired) ∧
    (s'.cache.totalBytes.val ≤ settings.budget.resolve ∨
      ∀ key e, s'.cache.entry? key = some e → e.inUse = true) ∧
    (∀ a ∈ c.missing s'.cache,
      (∀ b ∈ c.missing s'.cache,
        Cache.lastAcquire b.1 s'.acquired ≤ Cache.lastAcquire a.1 s'.acquired) →
      settings.budget.resolve < s'.cache.totalBytes.val + a.2.spec.bytes.val) ∧
    s'.cache.stats =
      { c.stats with evictions := c.stats.evictions + (c.missing s'.cache).length } ∧
    ∀ key e, s'.cache.entry? key = some e → c.entry? key = some e := by
  have hreach : Reachable settings s' := h.tail he.step
  obtain ⟨hcon, hdated⟩ := he.start h
  obtain ⟨gone, rest, hev⟩ := hcon.evicted
  rw [← he.cache_eq] at hev
  have htime : ∀ a ∈ c.missing s'.cache, a.2.stamp = Cache.lastAcquire a.1 s'.acquired :=
    fun a ha => hdated.stamp _ _ (hev.mem_missing.1 ha).1
  refine ⟨fun a ha => (hev.idle_of_missing ha).1, fun a ha key e hlook hu => ?_,
    hreach.within_or_inUse, fun a ha hlast => ?_, ?_, hev.below⟩
  · rw [← htime a ha, ← hdated.stamp _ _ (hev.below _ _ hlook)]
    exact hev.stamp_lt ha hlook hu
  · rw [← hreach.budget_eq]
    refine hev.budget_lt ha fun b hb => ?_
    rw [htime a ha, htime b hb]
    exact hlast b hb
  · rw [hev.stats, hev.length_missing]

/-- When the third buffer is registered, the one that came back last is dropped, because it was
acquired first. -/
theorem evicts_oldest_crowded :
    let c := crowded.cache.enter (slotKey 2) fourNumbers
    (c.missing c.evict).map (·.1) = [slotKey 0] ∧
      Cache.lastAcquire (slotKey 0) [slotKey 2, slotKey 1, slotKey 0] <
        Cache.lastAcquire (slotKey 1) [slotKey 2, slotKey 1, slotKey 0] ∧
      64 < c.evict.totalBytes.val + fourNumbers.bytes.val ∧
      c.evict.stats = { misses := 3, evictions := 1 } := by
  obtain ⟨-, hbefore, -, hneeded, hstats, -⟩ := evicts_oldest reachable_crowded
    (.made (w := (slotKey 2, fourNumbers)) List.mem_cons_self (by decide))
  refine ⟨rfl, ?_, ?_, hstats⟩
  · exact hbefore _ List.mem_cons_self (slotKey 1) _ rfl rfl
  · refine hneeded _ List.mem_cons_self fun b hb => ?_
    rw [List.mem_singleton.1 hb]

end Shared

end TensorNet
