import Mathlib
import TensorNet.Proofs.Cache.Shared

/-!
# Whose buffer is it?

## 1. Clients

Here every buffer carries a tag that says which one it is, and clients hold the buffers that they
were handed. A client gives a buffer back only under the key that it asked with. Nothing else is
asked of the clients: they go on at the same time, and a key may be asked for again before the first
buffer of it came back.

The tag also says for which shape the cache filed the buffer when it was last given back. That is
the shape of the entry that the key had at that time, and not the shape of the buffer.

## 2. What a hit delivers

A buffer that is filed was made for the key of its entry. But its shape is right only if it was
filed for the shape that it was made for. It need not be: while one client holds a buffer, another
may ask with the same key for another shape. Then the entry is replaced by one of the new shape,
which is in use, and the first buffer goes there when it comes back.
-/

namespace TensorNet

/-- A buffer with its number among all buffers made. -/
structure Tagged (τ : Type) where
  serial : Nat
  /-- The shape of the entry that took the buffer back last. -/
  filed : Option BufferSpec
  content : τ

/-- A buffer that a client holds, and the key that the client asked with. -/
structure Holding {κ : Type} (β : κ → Type) where
  key : CacheKey
  kind : κ
  buffer : Tagged (β kind)

/-- A request for which a buffer is being made. -/
structure Asking (κ : Type) where
  kind : κ
  key : CacheKey
  spec : BufferSpec
  /-- The cache was enabled when it was asked. -/
  registers : Bool

/-- A cache and its clients. -/
structure Clients {κ : Type} (β : κ → Type) where
  cache : Cache fun k => Tagged (β k)
  asking : List (Asking κ) := []
  held : List (Holding β) := []
  /-- The key and the shape that each buffer was made for, by the number of the buffer. -/
  made : List (CacheKey × BufferSpec) := []

namespace Clients

variable {κ : Type} {β : κ → Type} [DecidableEq κ] {settings : CacheConfig} {s s' : Clients β}

/-! ### Steps -/

/-- A buffer has been made: the cache registers it if it was enabled when it was asked, and the
client holds it. -/
def deliver (s : Clients β) (a : Asking κ) (rest : List (Asking κ)) (x : β a.kind) : Clients β where
  cache := if a.registers then s.cache.register a.key a.spec else s.cache
  asking := rest
  held := ⟨a.key, a.kind, ⟨s.made.length, none, x⟩⟩ :: s.held
  made := s.made ++ [(a.key, a.spec)]

/-- A client gives a buffer back under the key that it asked with. -/
def giveBack (s : Clients β) (h : Holding β) (rest : List (Holding β)) : Clients β :=
  { s with
    cache := s.cache.release h.kind h.key { h.buffer with filed := s.cache.spec? h.key }
    held := rest }

/-- **What clients do**, one thing at a time. -/
inductive Step : Clients β → Clients β → Prop
  /-- A request meets a disabled cache, and a buffer is being made from now on. -/
  | bypass {s : Clients β} {k : κ} {key : CacheKey} {spec : BufferSpec}
      {c : Cache fun k => Tagged (β k)} (h : s.cache.request k key spec = (.bypass, c)) :
      Step s { s with cache := c, asking := ⟨k, key, spec, false⟩ :: s.asking }
  /-- A request is served, and the client holds the buffer. -/
  | hit {s : Clients β} {k : κ} {key : CacheKey} {spec : BufferSpec} {b : Tagged (β k)}
      {c : Cache fun k => Tagged (β k)} (h : s.cache.request k key spec = (.hit b, c)) :
      Step s { s with cache := c, held := ⟨key, k, b⟩ :: s.held }
  /-- A request finds nothing, and a buffer is being made from now on. -/
  | miss {s : Clients β} {k : κ} {key : CacheKey} {spec : BufferSpec}
      {c : Cache fun k => Tagged (β k)} (h : s.cache.request k key spec = (.miss, c)) :
      Step s { s with cache := c, asking := ⟨k, key, spec, true⟩ :: s.asking }
  /-- No buffer could be made. -/
  | failed {s : Clients β} {a : Asking κ} {rest : List (Asking κ)} (h : s.asking.Perm (a :: rest)) :
      Step s { s with asking := rest }
  /-- A buffer has been made. -/
  | made {s : Clients β} {a : Asking κ} {rest : List (Asking κ)} (h : s.asking.Perm (a :: rest))
      (x : β a.kind) : Step s (s.deliver a rest x)
  /-- A buffer that is held is written. -/
  | write {s : Clients β} {h : Holding β} {rest : List (Holding β)} (hp : s.held.Perm (h :: rest))
      (x : β h.kind) :
      Step s { s with held := ⟨h.key, h.kind, { h.buffer with content := x }⟩ :: rest }
  | release {s : Clients β} {h : Holding β} {rest : List (Holding β)}
      (hp : s.held.Perm (h :: rest)) : Step s (s.giveBack h rest)
  | clear {s : Clients β} : Step s { s with cache := s.cache.clear }
  | evict {s : Clients β} : Step s { s with cache := s.cache.evict }
  | setEnabled {s : Clients β} (on : Bool) : Step s { s with cache := s.cache.setEnabled on }

/-- Nobody has asked for anything yet. -/
def start (settings : CacheConfig) : Clients β := { cache := .ofConfig settings }

/-- Steps lead from an empty cache to a state. -/
def Reachable (settings : CacheConfig) (s : Clients β) : Prop :=
  Relation.ReflTransGen Step (start settings) s

/-- **To get a buffer is a run**, whatever is done to make a new one, if that is a run itself and
what it makes has the next number. -/
theorem acquire_run {σ : Type} {k : κ} {key : CacheKey} {spec : BufferSpec}
    {allocate : (Cache fun k => Tagged (β k)) → σ →
      Except Error (Tagged (β k)) × (Cache fun k => Tagged (β k)) × σ} {t : σ}
    (hcall : ∀ r : Clients β, r.cache = (s.cache.request k key spec).2 →
      ∃ r', Relation.ReflTransGen Step r r' ∧ r'.cache = (allocate r.cache t).2.1 ∧
        r'.asking = r.asking ∧ ∀ b, (allocate r.cache t).1 = .ok b →
          b.serial = r'.made.length ∧ b.filed = none) :
    ∃ s', Relation.ReflTransGen Step s s' ∧
      s'.cache = (s.cache.acquire k key spec allocate t).2.1 ∧ s'.asking = s.asking ∧
      ∀ b, (s.cache.acquire k key spec allocate t).1 = .ok b → ⟨key, k, b⟩ ∈ s'.held := by
  -- Making a buffer is the same for a bypass and for a miss, save for the registration.
  have ask : ∀ (c : Cache fun k => Tagged (β k)) (registers : Bool),
      Step s { s with cache := c, asking := ⟨k, key, spec, registers⟩ :: s.asking } →
      c = (s.cache.request k key spec).2 →
      ∃ r', Relation.ReflTransGen Step s r' ∧ r'.asking = s.asking ∧
        (∀ e, (allocate c t).1 = .error e → r'.cache = (allocate c t).2.1) ∧
        ∀ b, (allocate c t).1 = .ok b → ⟨key, k, b⟩ ∈ r'.held ∧
          r'.cache = if registers then (allocate c t).2.1.register key spec
            else (allocate c t).2.1 := by
    intro c registers hfirst hc
    obtain ⟨r, hrun, hcache, hasking, htag⟩ :=
      hcall { s with cache := c, asking := ⟨k, key, spec, registers⟩ :: s.asking } hc
    have hperm : r.asking.Perm (⟨k, key, spec, registers⟩ :: s.asking) :=
      List.Perm.of_eq hasking
    cases hresult : (allocate c t).1 with
    | error e =>
      exact ⟨_, .head hfirst (hrun.tail (.failed hperm)), rfl, fun _ _ => hcache, nofun⟩
    | ok b =>
      obtain ⟨hserial, hfiled⟩ := htag b hresult
      refine ⟨_, .head hfirst (hrun.tail (.made hperm b.content)), rfl, nofun, fun x hx => ?_⟩
      obtain rfl := Except.ok.inj hx
      refine ⟨List.mem_cons.2 (.inl ?_), ?_⟩
      · rw [← hserial, ← hfiled]
      · rw [← hcache]
        rfl
  unfold Cache.acquire
  cases hreq : s.cache.request k key spec with
  | mk response c =>
    rw [hreq] at ask
    cases response with
    | hit b =>
      refine ⟨_, .single (.hit hreq), rfl, rfl, fun x hx => ?_⟩
      cases hx
      exact List.mem_cons_self
    | bypass =>
      obtain ⟨r, hrun, hasking, herror, hok⟩ := ask c false (.bypass hreq) rfl
      refine ⟨r, hrun, ?_, hasking, fun b hb => (hok b hb).1⟩
      cases hresult : (allocate c t).1 with
      | error e => exact herror e hresult
      | ok b => exact (hok b hresult).2
    | miss =>
      obtain ⟨r, hrun, hasking, herror, hok⟩ := ask c true (.miss hreq) rfl
      dsimp only
      cases hall : allocate c t with
      | mk result rest =>
        rw [hall] at herror hok
        cases result with
        | error e => exact ⟨r, hrun, herror e rfl, hasking, nofun⟩
        | ok b =>
          obtain ⟨hheld, hcache⟩ := hok b rfl
          refine ⟨r, hrun, hcache, hasking, fun x hx => ?_⟩
          cases hx
          exact hheld

/-! ### Where buffers come from -/

/-- A buffer was made for a key. -/
def MadeFor (s : Clients β) (serial : Nat) (key : CacheKey) : Prop :=
  ∃ spec, s.made[serial]? = some (key, spec)

/-- **All buffers are under the keys that they were made for**, and what is filed says so. -/
structure Traced (s : Clients β) : Prop where
  stored : s.cache.Stored fun key spec b => s.MadeFor b.2.serial key ∧ b.2.filed = some spec
  held : ∀ h ∈ s.held, s.MadeFor h.buffer.serial h.key
  noted : ∀ key spec, s.cache.spec? key = some spec → (key, spec) ∈ s.made

omit [DecidableEq κ] in
theorem traced_start : (start settings : Clients β).Traced where
  stored := fun _ _ he => nomatch he
  held := nofun
  noted := fun _ _ he => nomatch he

omit [DecidableEq κ] in
/-- A cache that has only entries of another one keeps what is said of them. -/
theorem Traced.of_below (h : s.Traced) {c : Cache fun k => Tagged (β k)} (hc : c.Below s.cache)
    {asking : List (Asking κ)} : Traced { s with cache := c, asking } where
  stored := h.stored.of_below hc
  held := h.held
  noted := fun key spec he => h.noted key spec (hc.spec? he)

omit [DecidableEq κ] in
theorem MadeFor.append {serial : Nat} {key : CacheKey} (h : s.MadeFor serial key)
    {c : Cache fun k => Tagged (β k)} {asking : List (Asking κ)} {held : List (Holding β)}
    {more : List (CacheKey × BufferSpec)} :
    MadeFor ⟨c, asking, held, s.made ++ more⟩ serial key := by
  obtain ⟨spec, hspec⟩ := h
  exact ⟨spec, List.getElem?_append_left (List.getElem?_eq_some_iff.1 hspec).1 ▸ hspec⟩

omit [DecidableEq κ] in
/-- **A buffer that has been made** was made for the key of its client. -/
theorem Traced.deliver (h : s.Traced) (a : Asking κ) (rest : List (Asking κ)) (x : β a.kind) :
    (s.deliver a rest x).Traced := by
  have hstored : s.cache.Stored fun key spec b =>
      (s.deliver a rest x).MadeFor b.2.serial key ∧ b.2.filed = some spec :=
    fun key e he b hb => ⟨(h.stored key e he b hb).1.append, (h.stored key e he b hb).2⟩
  refine ⟨?_, fun g hg => ?_, fun key spec hs => ?_⟩
  · unfold Clients.deliver
    dsimp only
    split
    · exact hstored.register a.key a.spec
    · exact hstored
  · rcases List.mem_cons.1 hg with rfl | hg
    · exact ⟨a.spec, List.getElem?_concat_length⟩
    · exact (h.held g hg).append
  · unfold Clients.deliver at hs
    dsimp only at hs
    split at hs
    · rcases Cache.spec_register hs with ⟨rfl, rfl⟩ | hs
      · exact List.mem_append_right _ (List.mem_singleton_self _)
      · exact List.mem_append_left _ (h.noted key spec hs)
    · exact List.mem_append_left _ (h.noted key spec hs)

omit [DecidableEq κ] in
/-- **A buffer that is given back** under the key of its client is filed under the key that it was
made for. -/
theorem Traced.giveBack (h : s.Traced) {g : Holding β} {rest : List (Holding β)}
    (hp : s.held.Perm (g :: rest)) : (s.giveBack g rest).Traced where
  stored := h.stored.release fun _ _ hs =>
    ⟨h.held g (hp.mem_iff.2 List.mem_cons_self), hs⟩
  held := fun f hf => h.held f (hp.mem_iff.2 (List.mem_cons_of_mem _ hf))
  noted := fun key spec hs => h.noted key spec (Cache.spec_release hs)

/-- **Every step keeps the tags right.** -/
theorem Traced.step (h : s.Traced) (hs : Step s s') : s'.Traced := by
  cases hs with
  | bypass hreq =>
    obtain ⟨-, rfl⟩ := Cache.request_eq_bypass hreq
    exact h.of_below (.refl _)
  | hit hreq =>
    obtain ⟨e, he, hspec, hb, rfl⟩ := Cache.request_eq_hit hreq
    refine ⟨h.stored.handOut _ e, fun g hg => ?_, fun key spec hs => ?_⟩
    · rcases List.mem_cons.1 hg with rfl | hg
      · exact (h.stored _ e he _ hb).1
      · exact h.held g hg
    · exact h.noted key spec (Cache.spec_handOut he hs)
  | miss hreq =>
    obtain rfl := Cache.request_eq_miss hreq
    exact h.of_below (c := (s.cache.remove _).countMiss) (Cache.below_remove s.cache _)
  | failed hp => exact h.of_below (.refl _)
  | made hp x => exact h.deliver _ _ x
  | @write g rest hp x =>
    refine ⟨h.stored, fun f hf => ?_, h.noted⟩
    rcases List.mem_cons.1 hf with rfl | hf
    · exact h.held g (hp.mem_iff.2 List.mem_cons_self)
    · exact h.held f (hp.mem_iff.2 (List.mem_cons_of_mem _ hf))
  | release hp => exact h.giveBack hp
  | clear => exact h.of_below (Cache.below_clear _)
  | evict => exact h.of_below (Cache.below_evict _)
  | setEnabled on => exact h.of_below (c := s.cache.setEnabled on) (.refl s.cache)

/-- The tags are right in every state that is reached. -/
theorem Reachable.traced (h : Reachable settings s) : s.Traced := by
  induction h with
  | refl => exact traced_start
  | tail _ hs ih => exact ih.step hs

/-! ### What a hit delivers -/

/-- **What a hit delivers.** The buffer was made for the key that is asked for, and some buffer of
the shape that is asked for was made for it. The buffer itself has that shape exactly when it was
filed for the shape that it was made for. -/
theorem hit_origin (h : Reachable settings s) {k : κ} {key : CacheKey} {spec : BufferSpec}
    {b : Tagged (β k)} {c : Cache fun k => Tagged (β k)}
    (hreq : s.cache.request k key spec = (.hit b, c)) :
    ∃ shape, s.made[b.serial]? = some (key, shape) ∧ (key, spec) ∈ s.made ∧
      (shape = spec ↔ b.filed = some shape) := by
  have htraced := h.traced
  obtain ⟨e, he, rfl, hb, -⟩ := Cache.request_eq_hit hreq
  obtain ⟨⟨shape, hshape⟩, hfiled⟩ := htraced.stored key e he _ hb
  refine ⟨shape, hshape, htraced.noted key e.spec (by rw [Cache.spec?, he]; rfl), ?_⟩
  rw [hfiled, Option.some_inj]
  exact eq_comm

/-! ### Two shapes under one key -/

/-- A buffer of eight numbers, 64 bytes in all. -/
def eightNumbers : BufferSpec := ⟨[8], .double⟩

open Shared (slotKey fourNumbers)

/-- A buffer of four numbers was handed out, then one of eight under the same key, and then the
first one came back. -/
def overlapped : Clients fun _ : Unit => Nat where
  cache :=
    { budget := 1024
      entries := [(slotKey 0,
        ⟨some ⟨(), 0, some eightNumbers, 10⟩, eightNumbers, eightNumbers.bytes, 2⟩)]
      idle := [(2, slotKey 0)]
      totalBytes := 64
      clock := 2
      stats := { misses := 2 } }
  held := [⟨slotKey 0, (), 1, none, 11⟩]
  made := [(slotKey 0, fourNumbers), (slotKey 0, eightNumbers)]

theorem reachable_overlapped : Reachable { budget := .bytes 1024 } overlapped := by
  have ask : ∀ (s : Clients fun _ : Unit => Nat) spec,
      s.cache.request () (slotKey 0) spec = (.miss, (s.cache.request () (slotKey 0) spec).2) →
        Step s
          { s with
            cache := (s.cache.request () (slotKey 0) spec).2
            asking := ⟨(), slotKey 0, spec, true⟩ :: s.asking } :=
    fun s spec h => .miss h
  have giveBack : ∀ (s : Clients fun _ : Unit => Nat) g rest, s.held.Perm (g :: rest) →
      Step s (s.giveBack g rest) := fun s g rest hp => .release hp
  have h : Reachable { budget := .bytes 1024 }
      (start { budget := .bytes 1024 } : Clients fun _ : Unit => Nat) := .refl
  have h := h.tail (ask _ fourNumbers rfl)
  have h := h.tail (.made (List.Perm.refl _) 10)
  have h := h.tail (ask _ eightNumbers rfl)
  have h := h.tail (.made (List.Perm.refl _) 11)
  exact h.tail (giveBack _ ⟨slotKey 0, (), 0, none, 10⟩ [⟨slotKey 0, (), 1, none, 11⟩]
    (List.Perm.swap _ _ _))

theorem request_overlapped : overlapped.cache.request () (slotKey 0) eightNumbers =
    (.hit ⟨0, some eightNumbers, 10⟩,
      (overlapped.cache.request () (slotKey 0) eightNumbers).2) := rfl

/-- Whoever asks for eight numbers now gets the buffer of four. -/
theorem hit_other_shape : Reachable { budget := .bytes 1024 } overlapped ∧
    ∃ b c, overlapped.cache.request () (slotKey 0) eightNumbers = (.hit b, c) ∧
      overlapped.made[b.serial]? = some (slotKey 0, fourNumbers) ∧ fourNumbers ≠ eightNumbers :=
  ⟨reachable_overlapped, _, _, request_overlapped, rfl, by decide⟩

theorem hit_origin_overlapped :
    ∃ b c, overlapped.cache.request () (slotKey 0) eightNumbers = (.hit b, c) ∧
      ∃ shape, overlapped.made[b.serial]? = some (slotKey 0, shape) ∧
        (slotKey 0, eightNumbers) ∈ overlapped.made ∧
        (shape = eightNumbers ↔ b.filed = some shape) :=
  ⟨_, _, request_overlapped, hit_origin reachable_overlapped request_overlapped⟩

end Clients

end TensorNet
