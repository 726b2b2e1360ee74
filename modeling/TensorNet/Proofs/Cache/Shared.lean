import Mathlib
import TensorNet.Proofs.Cache.Consistent

/-!
# A cache with many clients

## 1. Steps

Any number of clients use one cache. What a client does to the cache at one time is a step. To ask
for a buffer takes two of them when the cache has none: the request, and the registration of the
buffer that was made for it. In between, any other steps may be done: by other clients, and by
whatever makes the buffer, which may use the cache itself and may fail. A client may give back any
buffer under any key.

## 2. Runs

A state is reached when steps lead to it from an empty cache. What holds of the empty cache and is
kept by every operation holds of all states that are reached. So the books of the cache agree at all
times, and the budget is kept as long as there is something to drop.
-/

namespace TensorNet

/-- A cache in use. -/
structure Shared {κ : Type} (β : κ → Type) where
  cache : Cache β
  /-- The requests whose buffers are being made. -/
  waiting : List (CacheKey × BufferSpec) := []
  /-- The keys of all hits and registrations so far, the latest first. -/
  acquired : List CacheKey := []

namespace Cache

variable {κ : Type} {β : κ → Type} [DecidableEq κ]

/-- **The ways of a request.** -/
theorem request_cases (c : Cache β) (k : κ) (key : CacheKey) (spec : BufferSpec) :
    c.request k key spec = (.bypass, c) ∨
    (∃ e b, c.entry? key = some e ∧ e.inUse = false ∧
      c.request k key spec = (.hit b, c.handOut key e)) ∨
    c.request k key spec = (.miss, (c.remove key).countMiss) := by
  unfold request
  split
  · exact .inl rfl
  · cases he : c.entry? key with
    | none =>
      have hrem : c.remove key = c := by rw [Cache.remove, he]
      rw [hrem]
      exact .inr (.inr rfl)
    | some e =>
      dsimp only
      split
      · next b hb =>
        refine .inr (.inl ⟨e, b, rfl, ?_, rfl⟩)
        unfold fitting? at hb
        split at hb
        · obtain ⟨x, hx, -⟩ := Option.bind_eq_some_iff.1 hb
          rw [CacheEntry.inUse, hx]
          rfl
        · cases hb
      · exact .inr (.inr rfl)

/-- Only a disabled cache takes no part. -/
theorem request_eq_bypass {c d : Cache β} {k : κ} {key : CacheKey} {spec : BufferSpec}
    (h : c.request k key spec = (.bypass, d)) : c.enabled = false ∧ d = c := by
  unfold request at h
  split at h
  · next hoff =>
    cases h
    exact ⟨by simpa using hoff, rfl⟩
  · split at h
    · cases h
    · split at h <;> cases h

theorem request_eq_miss {c d : Cache β} {k : κ} {key : CacheKey} {spec : BufferSpec}
    (h : c.request k key spec = (.miss, d)) : d = (c.remove key).countMiss := by
  rcases c.request_cases k key spec with hr | ⟨e, b, -, -, hr⟩ | hr <;> rw [hr] at h <;> cases h
  rfl

omit [DecidableEq κ] in
/-- **The ways of giving a buffer back.** -/
theorem release_cases (c : Cache β) (k : κ) (key : CacheKey) (b : β k) :
    c.release k key b = c ∨ c.release k key b = c.remove key ∨
    ∃ e, c.entry? key = some e ∧ e.inUse = true ∧
      c.release k key b = (c.makeIdle k key b).evict := by
  unfold release
  split
  · exact .inl rfl
  · next hout =>
    split
    · exact .inr (.inl rfl)
    · rw [Bool.not_eq_true, Bool.not_eq_false', isCheckedOut, Option.any_eq_true] at hout
      obtain ⟨e, he, hu⟩ := hout
      exact .inr (.inr ⟨e, he, hu, rfl⟩)

end Cache

namespace Shared

variable {κ : Type} {β : κ → Type} [DecidableEq κ] {settings : CacheConfig} {s s' : Shared β}

/-! ### Steps -/

/-- **What a client does at one time.** -/
inductive Step : Shared β → Shared β → Prop
  /-- A request meets a disabled cache. The buffer that is made for it is never registered. -/
  | bypass {s : Shared β} {k : κ} {key : CacheKey} {spec : BufferSpec} {c : Cache β}
      (h : s.cache.request k key spec = (.bypass, c)) : Step s { s with cache := c }
  /-- A request is served. -/
  | hit {s : Shared β} {k : κ} {key : CacheKey} {spec : BufferSpec} {b : β k} {c : Cache β}
      (h : s.cache.request k key spec = (.hit b, c)) :
      Step s { s with cache := c, acquired := key :: s.acquired }
  /-- A request finds nothing, and a buffer is being made from now on. -/
  | miss {s : Shared β} {k : κ} {key : CacheKey} {spec : BufferSpec} {c : Cache β}
      (h : s.cache.request k key spec = (.miss, c)) :
      Step s { s with cache := c, waiting := (key, spec) :: s.waiting }
  /-- No buffer could be made. -/
  | failed {s : Shared β} {w : CacheKey × BufferSpec} (h : w ∈ s.waiting) :
      Step s { s with waiting := s.waiting.erase w }
  /-- A buffer has been made and is registered. The bytes of all entries can still be counted. -/
  | made {s : Shared β} {w : CacheKey × BufferSpec} (h : w ∈ s.waiting)
      (room : (s.cache.enter w.1 w.2).Countable) :
      Step s ⟨s.cache.register w.1 w.2, s.waiting.erase w, w.1 :: s.acquired⟩
  /-- A buffer is given back. -/
  | release {s : Shared β} (k : κ) (key : CacheKey) (b : β k) :
      Step s { s with cache := s.cache.release k key b }
  | clear {s : Shared β} : Step s { s with cache := s.cache.clear }
  | evict {s : Shared β} : Step s { s with cache := s.cache.evict }
  | setEnabled {s : Shared β} (on : Bool) : Step s { s with cache := s.cache.setEnabled on }

/-- Nothing has been done with a cache yet. -/
def start (settings : CacheConfig) : Shared β := { cache := .ofConfig settings }

/-- Steps lead from an empty cache to a state. -/
def Reachable (settings : CacheConfig) (s : Shared β) : Prop :=
  Relation.ReflTransGen Step (start settings) s

/-- **To get a buffer is a run**, whatever is done to make a new one, if that is a run itself. -/
theorem acquire_run {σ : Type} {k : κ} {key : CacheKey} {spec : BufferSpec}
    {allocate : Cache β → σ → Except Error (β k) × Cache β × σ} {t : σ}
    (hcall : ∀ r : Shared β, r.cache = (s.cache.request k key spec).2 →
      ∃ r', Relation.ReflTransGen Step r r' ∧ r'.cache = (allocate r.cache t).2.1 ∧
        r'.waiting = r.waiting)
    (room : ∀ c c' b t', s.cache.request k key spec = (.miss, c) →
      allocate c t = (.ok b, c', t') → (c'.enter key spec).Countable) :
    ∃ s', Relation.ReflTransGen Step s s' ∧
      s'.cache = (s.cache.acquire k key spec allocate t).2.1 ∧ s'.waiting = s.waiting := by
  unfold Cache.acquire
  cases hreq : s.cache.request k key spec with
  | mk response c =>
    rw [hreq] at hcall
    cases response with
    | bypass =>
      obtain ⟨r, hrun, hc, hw⟩ := hcall { s with cache := c } rfl
      exact ⟨r, .head (.bypass hreq) hrun, hc, hw⟩
    | hit b => exact ⟨_, .single (.hit hreq), rfl, rfl⟩
    | miss =>
      obtain ⟨r, hrun, hc, hw⟩ :=
        hcall { s with cache := c, waiting := (key, spec) :: s.waiting } rfl
      have hmem : (key, spec) ∈ r.waiting := hw ▸ List.mem_cons_self
      have herase : r.waiting.erase (key, spec) = s.waiting := by
        rw [hw, List.erase_cons_head]
      dsimp only
      cases hall : allocate c t with
      | mk result rest =>
        obtain ⟨c', t'⟩ := rest
        have hc' : r.cache = c' := hc.trans (congrArg (·.2.1) hall)
        cases result with
        | error e => exact ⟨_, .head (.miss hreq) (hrun.tail (.failed hmem)), hc', herase⟩
        | ok b =>
          have hroom := room c c' b t' hreq hall
          subst hc'
          exact ⟨_, .head (.miss hreq) (hrun.tail (.made hmem hroom)), rfl, herase⟩

/-! ### Two buffers and a third -/

/-- A buffer of four numbers, 32 bytes in all. -/
def fourNumbers : BufferSpec := ⟨[4], .double⟩

/-- The key of a temporary of one plan. -/
def slotKey (slot : Nat) : CacheKey := ⟨1, slot, {}⟩

/-- Two buffers of 32 bytes came back in the order opposite to that in which they were handed out,
and a third is being made. There is room for two. -/
def crowded : Shared fun _ : Unit => Nat where
  cache :=
    { budget := 64
      entries :=
        [(slotKey 0, ⟨some ⟨(), 10⟩, fourNumbers, fourNumbers.bytes, 1⟩),
          (slotKey 1, ⟨some ⟨(), 11⟩, fourNumbers, fourNumbers.bytes, 2⟩)]
      idle := [(1, slotKey 0), (2, slotKey 1)]
      totalBytes := 64
      clock := 2
      stats := { misses := 3 } }
  waiting := [(slotKey 2, fourNumbers)]
  acquired := [slotKey 1, slotKey 0]

theorem reachable_crowded : Reachable { budget := .bytes 64 } crowded := by
  have ask : ∀ (s : Shared fun _ : Unit => Nat) slot,
      s.cache.request () (slotKey slot) fourNumbers =
        (.miss, (s.cache.request () (slotKey slot) fourNumbers).2) → Step s
        { s with
          cache := (s.cache.request () (slotKey slot) fourNumbers).2
          waiting := (slotKey slot, fourNumbers) :: s.waiting } :=
    fun s slot h => .miss h
  have h : Reachable { budget := .bytes 64 }
      (start { budget := .bytes 64 } : Shared fun _ : Unit => Nat) := .refl
  have h := h.tail (ask _ 0 rfl)
  have h := h.tail (.made List.mem_cons_self (by decide))
  have h := h.tail (ask _ 1 rfl)
  have h := h.tail (.made List.mem_cons_self (by decide))
  have h := h.tail (.release () (slotKey 1) 11)
  have h := h.tail (.release () (slotKey 0) 10)
  exact h.tail (ask _ 2 rfl)

/-! ### Invariants -/

/-- A property of the cache, and of the keys acquired so far, that every operation keeps. -/
structure Kept (settings : CacheConfig) (P : Cache β → List CacheKey → Prop) : Prop where
  start : P (.ofConfig settings) []
  countMiss : ∀ c l, P c l → P c.countMiss l
  remove : ∀ c l key, P c l → P (c.remove key) l
  handOut : ∀ c l key e, c.entry? key = some e → e.inUse = false → P c l →
    P (c.handOut key e) (key :: l)
  register : ∀ c l key spec, (c.enter key spec).Countable → P c l →
    P (c.register key spec) (key :: l)
  takeBack : ∀ c l k key e (b : β k), c.entry? key = some e → e.inUse = true → P c l →
    P (c.makeIdle k key b).evict l
  clear : ∀ c l, P c l → P c.clear l
  evict : ∀ c l, P c l → P c.evict l
  setEnabled : ∀ c l on, P c l → P (c.setEnabled on) l

variable {P : Cache β → List CacheKey → Prop}

/-- A step keeps what every operation keeps. -/
theorem Kept.step (hP : Kept settings P) (hs : Step s s') (h : P s.cache s.acquired) :
    P s'.cache s'.acquired := by
  cases hs with
  | bypass hreq =>
    obtain ⟨-, rfl⟩ := Cache.request_eq_bypass hreq
    exact h
  | hit hreq =>
    rcases s.cache.request_cases _ _ _ with hr | ⟨e, b, he, hu, hr⟩ | hr <;> rw [hr] at hreq <;>
      cases hreq
    exact hP.handOut _ _ _ _ he hu h
  | miss hreq =>
    obtain rfl := Cache.request_eq_miss hreq
    exact hP.countMiss _ _ (hP.remove _ _ _ h)
  | failed hw => exact h
  | made hw room => exact hP.register _ _ _ _ room h
  | release k key b =>
    show P (s.cache.release k key b) s.acquired
    rcases s.cache.release_cases k key b with hr | hr | ⟨e, he, hu, hr⟩ <;> rw [hr]
    · exact h
    · exact hP.remove _ _ _ h
    · exact hP.takeBack _ _ _ _ _ _ he hu h
  | clear => exact hP.clear _ _ h
  | evict => exact hP.evict _ _ h
  | setEnabled on => exact hP.setEnabled _ _ _ h

/-- **What every operation keeps holds of all states that are reached.** -/
theorem Kept.of_reachable (hP : Kept settings P) (h : Reachable settings s) :
    P s.cache s.acquired := by
  induction h with
  | refl => exact hP.start
  | tail _ hs ih => exact hP.step hs ih

/-! ### The books -/

omit [DecidableEq κ] in
theorem kept_consistent : Kept settings fun (c : Cache β) _ => c.Consistent where
  start := .of_empty rfl rfl rfl
  countMiss _ _ h := h.congr rfl rfl rfl rfl
  remove _ _ key h := h.remove key
  handOut _ _ _ _ he hu h := h.handOut he hu
  register _ _ _ _ room h := (h.enter room).evict
  takeBack _ _ k _ _ b he hu h := (h.makeIdle he hu k b).evict
  clear c _ _ := .clear c
  evict _ _ h := h.evict
  setEnabled _ _ _ h := h.congr rfl rfl rfl rfl

theorem Reachable.consistent (h : Reachable settings s) : s.cache.Consistent :=
  kept_consistent.of_reachable h

/-- **Entries, idle list and number of bytes agree at all times.** An idle entry has one record,
under its stamp, and there are no others. The stamps of all entries are different and none is ahead
of the clock. The number of bytes is the sum over all entries. -/
theorem books_agree (h : Reachable settings s) :
    (∀ key e, s.cache.entry? key = some e → e.inUse = false →
      s.cache.idle.filter (fun r => r.2 == key) = [(e.stamp, key)]) ∧
    (∀ key, (∀ e, s.cache.entry? key = some e → e.inUse = true) →
      s.cache.idle.filter (fun r => r.2 == key) = []) ∧
    (s.cache.idle.Pairwise fun r r' => r.1 < r'.1) ∧
    (s.cache.entries.map (·.1)).Nodup ∧
    (s.cache.entries.map (·.2.stamp)).Nodup ∧
    (∀ e ∈ s.cache.entries, e.2.stamp ≤ s.cache.clock) ∧
    s.cache.totalBytes.val = (s.cache.entries.map fun e => e.2.spec.bytes.val).sum := by
  have hc := h.consistent
  refine ⟨fun _ _ => hc.records_eq, fun key hin => ?_, hc.ordered, hc.keys, hc.nodup_stamps,
    fun e he => hc.clock _ _ (hc.mem_entries.1 he), hc.total⟩
  refine List.filter_eq_nil_iff.2 fun r hr hk => ?_
  obtain ⟨e, he, hu, -⟩ := hc.entry_of_mem_idle hr
  rw [hin e (beq_iff_eq.1 hk ▸ he)] at hu
  cases hu

/-- Two buffers that came back have one record each. -/
theorem books_agree_crowded :
    crowded.cache.idle.filter (fun r => r.2 == slotKey 0) = [(1, slotKey 0)] ∧
      crowded.cache.idle.filter (fun r => r.2 == slotKey 2) = [] ∧
      crowded.cache.totalBytes.val =
        (crowded.cache.entries.map fun e => e.2.spec.bytes.val).sum := by
  obtain ⟨hidle, hother, -, -, -, -, htotal⟩ := books_agree reachable_crowded
  exact ⟨hidle (slotKey 0) _ rfl rfl, hother (slotKey 2) fun e he => (nomatch he), htotal⟩

/-! ### The budget -/

omit [DecidableEq κ] in
theorem kept_within :
    Kept settings fun (c : Cache β) _ => c.Within ∧ c.budget = settings.budget.resolve where
  start := ⟨.inl (Nat.zero_le _), rfl⟩
  countMiss _ _ h := h
  remove _ _ key h := ⟨h.1.remove key, (Cache.budget_remove ..).trans h.2⟩
  handOut _ _ key e _ _ h := ⟨h.1.handOut key e, h.2⟩
  register c _ key _ _ h :=
    ⟨Cache.within_evict _, (Cache.budget_evict _).trans ((Cache.budget_remove c key).trans h.2)⟩
  takeBack _ _ _ _ _ _ _ _ h :=
    ⟨Cache.within_evict _, (Cache.budget_evict _).trans ((Cache.budget_makeIdle ..).trans h.2)⟩
  clear _ _ h := ⟨.inl (Nat.zero_le _), h.2⟩
  evict _ _ h := ⟨Cache.within_evict _, (Cache.budget_evict _).trans h.2⟩
  setEnabled _ _ _ h := h

theorem Reachable.budget_eq (h : Reachable settings s) :
    s.cache.budget = settings.budget.resolve := (kept_within.of_reachable h).2

theorem Reachable.within_or_inUse (h : Reachable settings s) :
    s.cache.totalBytes.val ≤ settings.budget.resolve ∨
      ∀ key e, s.cache.entry? key = some e → e.inUse = true := by
  have hwithin : s.cache.Within := (kept_within.of_reachable h).1
  refine hwithin.imp (fun hle => h.budget_eq ▸ hle) fun hnil key e he => ?_
  by_contra hu
  have hm := (h.consistent.idle e.stamp key).2 ⟨e, he, Bool.eq_false_iff.2 hu, rfl⟩
  rw [hnil] at hm
  cases hm

/-- **The budget is kept at all times, or there is nothing to drop.** So the idle entries alone never
pass the budget, and all entries together do not when none of them is in use. -/
theorem budget_kept (h : Reachable settings s) :
    (s.cache.totalBytes.val ≤ settings.budget.resolve ∨
      ∀ key e, s.cache.entry? key = some e → e.inUse = true) ∧
    Cache.bytesOf (s.cache.entries.filter fun e => !e.2.inUse) ≤ settings.budget.resolve ∧
    ((∀ key e, s.cache.entry? key = some e → e.inUse = false) →
      s.cache.totalBytes.val ≤ settings.budget.resolve) := by
  have hc := h.consistent
  have hcases := h.within_or_inUse
  refine ⟨hcases, ?_, fun hidle => ?_⟩
  · rcases hcases with hle | hin
    · rw [hc.total] at hle
      exact ((List.filter_sublist.map _).sum_le_sum fun _ _ => Nat.zero_le _).trans hle
    · have hnil : (s.cache.entries.filter fun e => !e.2.inUse) = [] := by
        refine List.filter_eq_nil_iff.2 fun e he => ?_
        rw [hin _ _ (hc.mem_entries.1 he)]
        exact Bool.false_ne_true
      rw [hnil]
      exact Nat.zero_le _
  · rcases hcases with hle | hin
    · exact hle
    · have hnil : s.cache.entries = [] := List.eq_nil_iff_forall_not_mem.2 fun e he => by
        have he' := hc.mem_entries.1 he
        exact Bool.noConfusion ((hin _ _ he').symm.trans (hidle _ _ he'))
      rw [hc.total, hnil]
      exact Nat.zero_le _

/-- Two buffers that came back take no more than the 64 bytes that are allowed. -/
theorem budget_kept_crowded :
    crowded.cache.totalBytes.val ≤ 64 ∧
      Cache.bytesOf (crowded.cache.entries.filter fun e => !e.2.inUse) ≤ 64 := by
  obtain ⟨-, hidle, hall⟩ := budget_kept reachable_crowded
  refine ⟨hall fun key e he => ?_, hidle⟩
  have hm : (key, e) ∈ crowded.cache.entries := mem_of_lookup he
  rcases List.mem_pair.1 hm with he | he <;> cases he
  · rfl
  · rfl

end Shared

end TensorNet
