import TensorNet.Proofs.Cache.Clients

/-!
# One owner at a time

Every buffer that was made has a number, and the places of a state are the numbers of the buffers
that clients hold and of those that entries keep. No step copies a buffer: what is handed out leaves
its entry, what is given back leaves its client, and all other operations only forget entries. So
the places after a step are among those before it and the number of the buffer that was just made.

Hence no buffer is in two places, however many clients there are and in whatever order they go on.
Together with the keys that buffers were made for, this says that nobody ever gets a buffer of
another key, and so that two contexts never see one buffer.
-/

namespace TensorNet

namespace Cache

variable {κ : Type} {β : κ → Type}

/-! ### Entries that are forgotten -/

theorem entries_remove (c : Cache β) (key : CacheKey) :
    (c.remove key).entries.Sublist c.entries := by
  unfold remove
  split
  · exact .refl _
  · exact List.filter_sublist

theorem entries_drop (c : Cache β) (key : CacheKey) :
    (c.drop key).entries.Sublist c.entries := by
  unfold drop
  split
  · exact .refl _
  · exact List.filter_sublist

theorem entries_evict (c : Cache β) : c.evict.entries.Sublist c.entries :=
  evictFrom_inv (fun d => d.entries.Sublist c.entries)
    (fun d r _ h => (entries_drop d r.2).trans h) (.refl _)

/-- The entry of a key stands apart from those of the other keys. -/
theorem subperm_entries {c : Cache β} {key : CacheKey} {e : CacheEntry β}
    (he : c.entry? key = some e) : ((key, e) :: without key c.entries).Subperm c.entries := by
  have hm : (key, e) ∈ c.entries.filter fun a => !(a.1 != key) :=
    List.mem_filter.2 ⟨mem_of_lookup he, by simp⟩
  have hsplit := List.filter_append_perm (fun a => a.1 != key) c.entries
  have hapart : (without key c.entries ++ [(key, e)]).Subperm c.entries :=
    ((List.subperm_append_left _).2 (List.singleton_subperm_iff.2 hm)).trans hsplit.subperm
  exact (List.perm_append_singleton ..).symm.subperm.trans hapart

/-! ### Buffers that are kept -/

/-- The numbers of the buffers that some entries keep. -/
def serialsOf (es : List (CacheKey × CacheEntry fun k => Tagged (β k))) : List Nat :=
  es.filterMap fun e => e.2.buffer.map (·.2.serial)

/-- The numbers of the buffers that a cache keeps. -/
def serials (c : Cache fun k => Tagged (β k)) : List Nat := serialsOf c.entries

variable {c d : Cache fun k => Tagged (β k)} {key : CacheKey}
variable {e : CacheEntry fun k => Tagged (β k)}

theorem serials_sublist (h : d.entries.Sublist c.entries) : d.serials.Sublist c.serials :=
  h.filterMap _

/-- An entry in use keeps nothing. -/
theorem serials_put_none {es : List (CacheKey × CacheEntry fun k => Tagged (β k))}
    (hb : e.buffer = none) : (serialsOf (put key e es)).Sublist (serialsOf es) := by
  have hnone : serialsOf (put key e es) = serialsOf (without key es) := by
    simp [serialsOf, put, hb]
  rw [hnone]
  exact List.filter_sublist.filterMap _

theorem serials_put_some {es : List (CacheKey × CacheEntry fun k => Tagged (β k))}
    {b : (k : κ) × Tagged (β k)} (hb : e.buffer = some b) :
    (serialsOf (put key e es)).Sublist (b.2.serial :: serialsOf es) := by
  have hsome : serialsOf (put key e es) = b.2.serial :: serialsOf (without key es) := by
    simp [serialsOf, put, hb]
  rw [hsome]
  exact (List.filter_sublist.filterMap _).cons_cons _

/-- **A buffer that is handed out leaves the cache.** -/
theorem serials_handOut {b : (k : κ) × Tagged (β k)} (he : c.entry? key = some e)
    (hb : e.buffer = some b) :
    (b.2.serial :: serials (c.handOut key e)).Subperm c.serials := by
  have hout : serials (c.handOut key e) = serialsOf (without key c.entries) := by
    simp [serials, serialsOf, Cache.handOut, put]
  have hin : serialsOf ((key, e) :: without key c.entries) =
      b.2.serial :: serialsOf (without key c.entries) := by
    simp [serialsOf, hb]
  rw [hout, ← hin]
  obtain ⟨l, hp, hl⟩ := subperm_entries he
  exact ⟨serialsOf l, hp.filterMap _, hl.filterMap _⟩

/-- A registration keeps no buffer: the new one is handed out at once. -/
theorem serials_register (c : Cache fun k => Tagged (β k)) (key : CacheKey) (spec : BufferSpec) :
    (serials (c.register key spec)).Sublist c.serials := by
  refine (serials_sublist (entries_evict _)).trans ?_
  exact (serials_put_none rfl).trans (serials_sublist (entries_remove c key))

/-- **Only the buffer that is given back can come to the cache.** -/
theorem serials_release {k : κ} {b : Tagged (β k)} :
    (serials (c.release k key b)).Sublist (b.serial :: c.serials) := by
  rcases c.release_cases k key b with hr | hr | ⟨e, he, -, hr⟩ <;> rw [hr]
  · exact List.sublist_cons_self _ _
  · exact (serials_sublist (entries_remove c key)).cons _
  · refine (serials_sublist (entries_evict _)).trans ?_
    rw [makeIdle, he]
    exact serials_put_some (e := { e with buffer := some ⟨k, b⟩ }) rfl

end Cache

namespace Clients

variable {κ : Type} {β : κ → Type} [DecidableEq κ] {settings : CacheConfig} {s s' : Clients β}

/-! ### Places -/

/-- The numbers of the buffers that clients hold. -/
def heldSerials (s : Clients β) : List Nat := s.held.map (·.buffer.serial)

/-- **Where buffers are**: the number of each buffer that is held or kept, once for each place. -/
def places (s : Clients β) : List Nat := s.heldSerials ++ s.cache.serials

omit [DecidableEq κ] in
/-- Fewer buffers in the cache are fewer places. -/
theorem places_subperm {c : Cache fun k => Tagged (β k)} {asking : List (Asking κ)}
    (h : c.serials.Sublist s.cache.serials) :
    (places { s with cache := c, asking }).Subperm s.places :=
  ((List.Sublist.refl _).append h).subperm

/-- **A step copies no buffer.** It may make new ones, which get the next numbers. -/
theorem Step.places (hs : Step s s') : ∃ new, s'.made = s.made ++ new ∧
    s'.places.Subperm (List.range' s.made.length new.length ++ s.places) := by
  -- All steps but one make nothing.
  have keep : s'.made = s.made → s'.places.Subperm s.places → ∃ new, s'.made = s.made ++ new ∧
      s'.places.Subperm (List.range' s.made.length new.length ++ s.places) := by
    intro hmade hplaces
    exact ⟨[], by simp [hmade], by simpa using hplaces⟩
  cases hs with
  | bypass hreq =>
    obtain ⟨-, rfl⟩ := Cache.request_eq_bypass hreq
    exact keep rfl (.refl _)
  | @hit k key spec b c hreq =>
    obtain ⟨e, he, -, hb, rfl⟩ := Cache.request_eq_hit hreq
    refine keep rfl ?_
    show (b.serial :: (s.heldSerials ++ _)).Subperm _
    exact List.perm_middle.symm.subperm.trans
      ((List.subperm_append_left _).2 (Cache.serials_handOut he hb))
  | @miss k key spec c hreq =>
    obtain rfl := Cache.request_eq_miss hreq
    exact keep rfl (places_subperm (Cache.serials_sublist (Cache.entries_remove s.cache key)))
  | failed hp => exact keep rfl (.refl _)
  | @made a rest hp x =>
    refine ⟨[(a.key, a.spec)], rfl, ?_⟩
    have hkept : (s.deliver a rest x).cache.serials.Sublist s.cache.serials := by
      unfold deliver
      dsimp only
      split
      · exact Cache.serials_register ..
      · exact .refl _
    exact (((List.Sublist.refl _).append hkept).cons_cons _).subperm
  | @write g rest hp x =>
    refine keep rfl ?_
    have hheld : s.heldSerials.Perm (g.buffer.serial :: rest.map (·.buffer.serial)) := hp.map _
    exact (hheld.symm.append_right _).subperm
  | @release g rest hp =>
    refine keep rfl ?_
    have hheld : s.heldSerials.Perm (g.buffer.serial :: rest.map (·.buffer.serial)) := hp.map _
    have hback : (s.giveBack g rest).cache.serials.Sublist (g.buffer.serial :: s.cache.serials) :=
      Cache.serials_release
    exact ((List.Sublist.refl _).append hback).subperm.trans
      (List.perm_middle.trans (hheld.symm.append_right _)).subperm
  | clear => exact keep rfl (places_subperm (List.nil_sublist _))
  | evict => exact keep rfl (places_subperm (Cache.serials_sublist (Cache.entries_evict _)))
  | setEnabled on => exact keep rfl (places_subperm (.refl _))

/-- **No buffer is in two places**, and all of them were made. -/
theorem Reachable.places (h : Reachable settings s) :
    s.places.Subperm (List.range s.made.length) := by
  induction h with
  | refl => exact .refl _
  | @tail s s' _ hs ih =>
    obtain ⟨new, hmade, hplaces⟩ := hs.places
    refine hplaces.trans (((List.subperm_append_left _).2 ih).trans ?_)
    rw [hmade, List.length_append, List.range_eq_range', List.range_eq_range',
      ← List.range'_append, Nat.zero_add, Nat.one_mul]
    exact List.perm_append_comm.subperm

theorem Reachable.nodup_places (h : Reachable settings s) : s.places.Nodup := by
  obtain ⟨l, hp, hl⟩ := h.places
  exact hp.nodup_iff.1 (List.nodup_range.sublist hl)

/-- **A buffer that is handed out is in no entry any more.** -/
theorem Reachable.not_mem_serials (h : Reachable settings s) {k : κ} {key : CacheKey}
    {spec : BufferSpec} {b : Tagged (β k)} {c : Cache fun k => Tagged (β k)}
    (hreq : s.cache.request k key spec = (.hit b, c)) : b.serial ∉ c.serials := by
  have hplaces := Reachable.nodup_places (h.tail (.hit hreq))
  intro hm
  exact (List.nodup_cons.1 hplaces).1 (List.mem_append_right _ hm)

/-- What is noted of a buffer that was made stays. -/
theorem made_of_run (h : Relation.ReflTransGen Step s s') {n : Nat} {key : CacheKey}
    {spec : BufferSpec} (hn : s.made[n]? = some (key, spec)) :
    s'.made[n]? = some (key, spec) := by
  induction h with
  | refl => exact hn
  | tail _ hs ih =>
    obtain ⟨new, hmade, -⟩ := hs.places
    rw [hmade, List.getElem?_append_left (List.getElem?_eq_some_iff.1 ih).1]
    exact ih

/-! ### Where the buffer of a client comes from -/

open Shared (slotKey)

/-- **How a client came to a buffer in a step.** It was made just now for a request of its key, or
it was idle in the entry of its key and no entry keeps it any more. -/
inductive Served (s : Clients β) (g : Holding β) (s' : Clients β) : Prop
  | made {a : Asking κ} (asking : s.asking.Perm (a :: s'.asking)) (key : g.key = a.key)
      (serial : g.buffer.serial = s.made.length) (noted : s'.made = s.made ++ [(a.key, a.spec)])
  | idle {e : CacheEntry fun k => Tagged (β k)} (entry : s.cache.entry? g.key = some e)
      (buffer : e.buffer = some ⟨g.kind, g.buffer⟩) (gone : g.buffer.serial ∉ s'.cache.serials)

/-- Who holds a buffer after a step held it before, or was served. -/
theorem Reachable.served (h : Reachable settings s) (hs : Step s s') {g : Holding β}
    (hg : g ∈ s'.held) (hnew : g.buffer.serial ∉ s.heldSerials) : s.Served g s' := by
  have hold : ∀ f ∈ s.held, f.buffer.serial ∈ s.heldSerials := fun f hf => List.mem_map_of_mem hf
  cases hs with
  | bypass hreq => exact absurd (hold g hg) hnew
  | @hit k key spec b c hreq =>
    obtain ⟨e, he, -, hb, -⟩ := Cache.request_eq_hit hreq
    rcases List.mem_cons.1 hg with rfl | hg
    · exact .idle he hb (h.not_mem_serials hreq)
    · exact absurd (hold g hg) hnew
  | miss hreq => exact absurd (hold g hg) hnew
  | failed hp => exact absurd (hold g hg) hnew
  | @made a rest hp x =>
    rcases List.mem_cons.1 hg with rfl | hg
    · exact .made hp rfl rfl rfl
    · exact absurd (hold g hg) hnew
  | @write f rest hp x =>
    refine absurd ?_ hnew
    rcases List.mem_cons.1 hg with rfl | hg
    · exact hold f (hp.mem_iff.2 List.mem_cons_self)
    · exact hold g (hp.mem_iff.2 (List.mem_cons_of_mem _ hg))
  | release hp => exact absurd (hold g (hp.mem_iff.2 (List.mem_cons_of_mem _ hg))) hnew
  | clear => exact absurd (hold g hg) hnew
  | evict => exact absurd (hold g hg) hnew
  | setEnabled on => exact absurd (hold g hg) hnew

/-- **What a request for a buffer answers**, whatever is done to make a new one: the buffer that was
made for it, or one that was idle under its key and was made for it, which the cache gives up. -/
theorem Reachable.acquire_origin (h : Reachable settings s) {σ : Type} {k : κ} {key : CacheKey}
    {spec : BufferSpec} {allocate : (Cache fun k => Tagged (β k)) → σ →
      Except Error (Tagged (β k)) × (Cache fun k => Tagged (β k)) × σ} {t t' : σ}
    {b : Tagged (β k)} {c : Cache fun k => Tagged (β k)}
    (hget : s.cache.acquire k key spec allocate t = (.ok b, c, t')) :
    (∃ c', allocate (s.cache.request k key spec).2 t = (.ok b, c', t')) ∨
      (∃ e, s.cache.entry? key = some e ∧ e.buffer = some ⟨k, b⟩) ∧ s.MadeFor b.serial key ∧
        b.serial ∉ c.serials ∧ t' = t := by
  unfold Cache.acquire at hget
  cases hreq : s.cache.request k key spec with
  | mk response d =>
    rw [hreq] at hget
    cases response with
    | bypass => exact .inl ⟨c, hget⟩
    | hit x =>
      cases hget
      obtain ⟨e, he, -, hb, -⟩ := Cache.request_eq_hit hreq
      exact .inr ⟨⟨e, he, hb⟩, (h.traced.stored key e he _ hb).1, h.not_mem_serials hreq, rfl⟩
    | miss =>
      dsimp only at hget
      cases hall : allocate d t with
      | mk result rest =>
        rw [hall] at hget
        cases result with
        | error e => cases hget
        | ok x =>
          cases hget
          exact .inl ⟨_, rfl⟩

/-- **A buffer has one owner at a time, and one key for ever.** It is held by one client or kept by
one entry. A client that comes to a buffer was handed the one just made for it, or the one that was
idle under its key, which then leaves the cache; and so does the answer to any request. A buffer
that was made for one key is never held under another, so all who ever hold it asked with one key
and one context. -/
theorem owned_once (h : Reachable settings s) :
    s.places.Nodup ∧ (∀ n ∈ s.places, n < s.made.length) ∧
    (∀ s', Step s s' → ∀ g ∈ s'.held, g.buffer.serial ∉ s.heldSerials → s.Served g s') ∧
    (∀ (σ : Type) (k : κ) (key : CacheKey) (spec : BufferSpec)
      (allocate : (Cache fun k => Tagged (β k)) → σ →
        Except Error (Tagged (β k)) × (Cache fun k => Tagged (β k)) × σ) (t t' : σ)
      (b : Tagged (β k)) (c : Cache fun k => Tagged (β k)),
      s.cache.acquire k key spec allocate t = (.ok b, c, t') →
        (∃ c', allocate (s.cache.request k key spec).2 t = (.ok b, c', t')) ∨
          (∃ e, s.cache.entry? key = some e ∧ e.buffer = some ⟨k, b⟩) ∧ s.MadeFor b.serial key ∧
            b.serial ∉ c.serials ∧ t' = t) ∧
    (∀ s', Relation.ReflTransGen Step s s' →
      (∀ n key spec, s.made[n]? = some (key, spec) →
        ∀ g ∈ s'.held, g.buffer.serial = n → g.key = key) ∧
      ∀ g ∈ s.held, ∀ g' ∈ s'.held, g.buffer.serial = g'.buffer.serial → g.key = g'.key) := by
  have hlater : ∀ s', Relation.ReflTransGen Step s s' → ∀ n key spec,
      s.made[n]? = some (key, spec) → ∀ g ∈ s'.held, g.buffer.serial = n → g.key = key := by
    intro s' hrun n key spec hn g hg hserial
    obtain ⟨spec', hspec'⟩ := (Reachable.traced (h.trans hrun)).held g hg
    rw [hserial, made_of_run hrun hn] at hspec'
    exact (congrArg Prod.fst (Option.some.inj hspec')).symm
  refine ⟨h.nodup_places, fun n hn => ?_, fun s' hs g hg hnew => ?_,
    fun σ k key spec allocate t t' b c hget => h.acquire_origin hget,
    fun s' hrun => ⟨hlater s' hrun, fun g hg g' hg' hserial => ?_⟩⟩
  · exact List.mem_range.1 (h.places.subset hn)
  · exact h.served hs hg hnew
  · obtain ⟨spec, hspec⟩ := h.traced.held g hg
    exact (hlater s' hrun _ _ _ hspec g' hg' hserial.symm).symm

/-- The first buffer is kept and the second is held. Who asks with the key of both is served with
the first, and then no entry keeps it. -/
theorem owned_once_overlapped : overlapped.places = [1, 0] ∧ overlapped.places.Nodup ∧
    ∃ s', Step overlapped s' ∧ s'.cache.serials = [] ∧
      overlapped.Served ⟨slotKey 0, (), 0, some eightNumbers, 10⟩ s' ∧
      ∀ g ∈ s'.held, g.buffer.serial = 0 → g.key = slotKey 0 := by
  obtain ⟨hnodup, -, hserved, -, hlater⟩ := owned_once reachable_overlapped
  have hs := Step.hit request_overlapped
  refine ⟨rfl, hnodup, _, hs, rfl, hserved _ hs _ List.mem_cons_self (by decide), ?_⟩
  exact (hlater _ (.single hs)).1 0 _ _ rfl

end Clients

end TensorNet
