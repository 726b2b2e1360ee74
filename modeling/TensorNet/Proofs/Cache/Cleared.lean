import TensorNet.Proofs.Cache.Owned
import TensorNet.Proofs.Cache.Used

/-!
# What a cleared cache forgets

A cache that is cleared has no entries, so a buffer that a client holds at that time has no entry to
come back to. It is dropped when it is given back, unless its key was asked for again since: then
the key has a new entry, which is in use until its own buffer comes back, and whoever gives a buffer
back under that key has it filed there. The cache does not see which buffer it is.

So a buffer that was out when the cache was cleared can be handed out again, but only in this way. A
buffer is kept after the clearing only if it was given back after it, to an enabled cache with an
entry in use that was registered after it. A buffer that is once in no place never comes back.
-/

namespace TensorNet

namespace Cache

variable {κ : Type} {β : κ → Type} {c : Cache fun k => Tagged (β k)} {k : κ} {key : CacheKey}
variable {b : Tagged (β k)}

/-- **What a release files.** The buffer that is given back comes to be kept only if the cache is
enabled and the entry of the key is in use. -/
theorem mem_serials_release {n : Nat} (hn : n ∈ serials (c.release k key b)) :
    n ∈ c.serials ∨ n = b.serial ∧ c.enabled = true ∧ c.isCheckedOut key = true := by
  by_cases hfiled : c.enabled = true ∧ c.isCheckedOut key = true
  · rcases List.mem_cons.1 (serials_release.subset hn) with hb | hc
    · exact .inr ⟨hb, hfiled⟩
    · exact .inl hc
  · left
    unfold release at hn
    split at hn
    · exact hn
    · next hout =>
      rw [Bool.not_eq_true, Bool.not_eq_false'] at hout
      have hoff : c.enabled = false := Bool.eq_false_iff.2 fun hon => hfiled ⟨hon, hout⟩
      rw [hoff] at hn
      exact (serials_sublist (entries_remove c key)).subset hn

end Cache

namespace Clients

variable {κ : Type} {β : κ → Type} [DecidableEq κ] {settings : CacheConfig} {s s' u : Clients β}
variable {key : CacheKey} {n : Nat}

/-- All entries have been forgotten. Clients hold what they held. -/
def cleared (s : Clients β) : Clients β := { s with cache := s.cache.clear }

/-! ### Keys that have an entry again -/

/-- **A buffer was registered for a key** on the way from one state to another. It may have been
asked for before. -/
inductive Renewed (key : CacheKey) (s s' : Clients β) : Prop
  | intro {u : Clients β} {a : Asking κ} {rest : List (Asking κ)} {x : β a.kind}
      (before : Relation.ReflTransGen Step s u) (asking : u.asking.Perm (a :: rest))
      (key : a.key = key) (registers : a.registers = true)
      (after : Relation.ReflTransGen Step (u.deliver a rest x) s')

theorem Renewed.tail (h : Renewed key s u) (hs : Step u s') : Renewed key s s' := by
  obtain ⟨before, asking, hkey, registers, after⟩ := h
  exact ⟨before, asking, hkey, registers, after.tail hs⟩

/-- **A key that has an entry after the clearing** was registered after it. -/
theorem renewed_of_entry (hrun : Relation.ReflTransGen Step s.cleared s') {spec : BufferSpec}
    (hspec : s'.cache.spec? key = some spec) : Renewed key s.cleared s' := by
  induction hrun generalizing spec with
  | refl => cases hspec
  | @tail u s' hrun hs ih =>
    -- Every step but a registration leaves at most the entries that there were.
    have keep : ∀ {spec}, u.cache.spec? key = some spec → Renewed key s.cleared s' :=
      fun h => (ih h).tail hs
    cases hs with
    | bypass hreq =>
      obtain ⟨-, rfl⟩ := Cache.request_eq_bypass hreq
      exact keep hspec
    | hit hreq =>
      obtain ⟨e, he, -, -, rfl⟩ := Cache.request_eq_hit hreq
      exact keep (Cache.spec_handOut he hspec)
    | miss hreq =>
      obtain rfl := Cache.request_eq_miss hreq
      exact keep ((Cache.below_remove u.cache _).spec? hspec)
    | failed hp => exact keep hspec
    | @made a rest hp x =>
      cases hreg : a.registers with
      | false =>
        have hcache : (u.deliver a rest x).cache = u.cache := by rw [deliver, hreg]; rfl
        exact keep (hcache ▸ hspec)
      | true =>
        have hcache : (u.deliver a rest x).cache = u.cache.register a.key a.spec := by
          rw [deliver, hreg]; rfl
        rcases Cache.spec_register (hcache ▸ hspec) with ⟨hkey, -⟩ | hspec
        · exact ⟨hrun, hp, hkey.symm, hreg, .refl⟩
        · exact keep hspec
    | write hp x => exact keep hspec
    | release hp => exact keep (Cache.spec_release hspec)
    | clear => exact keep ((Cache.below_clear _).spec? hspec)
    | evict => exact keep ((Cache.below_evict _).spec? hspec)
    | setEnabled on => exact keep hspec

theorem renewed_of_isCheckedOut (hrun : Relation.ReflTransGen Step s.cleared s')
    (hout : s'.cache.isCheckedOut key = true) : Renewed key s.cleared s' := by
  obtain ⟨e, he, -⟩ := Cache.isCheckedOut_iff.1 hout
  have hspec : s'.cache.spec? key = some e.spec := by rw [Cache.spec?, he]; rfl
  exact renewed_of_entry hrun hspec

/-! ### Buffers that are filed again -/

/-- **A buffer was filed again** on the way from one state to another: it was given back to an
enabled cache, and the entry of its key was in use and had been registered on the way. -/
inductive Refiled (n : Nat) (s s' : Clients β) : Prop
  | intro {u : Clients β} {f : Holding β} {rest : List (Holding β)}
      (before : Relation.ReflTransGen Step s u) (held : u.held.Perm (f :: rest))
      (serial : f.buffer.serial = n) (enabled : u.cache.enabled = true)
      (out : u.cache.isCheckedOut f.key = true) (renewed : Renewed f.key s u)
      (after : Relation.ReflTransGen Step (u.giveBack f rest) s')

theorem Refiled.tail (h : Refiled n s u) (hs : Step u s') : Refiled n s s' := by
  obtain ⟨before, held, serial, enabled, out, renewed, after⟩ := h
  exact ⟨before, held, serial, enabled, out, renewed, after.tail hs⟩

/-- **What a step brings into the cache** is the buffer that it gives back. -/
theorem Step.mem_serials (hs : Step s s') (hn : n ∈ s'.cache.serials) : n ∈ s.cache.serials ∨
    ∃ f rest, s.held.Perm (f :: rest) ∧ f.buffer.serial = n ∧ s.cache.enabled = true ∧
      s.cache.isCheckedOut f.key = true ∧ s' = s.giveBack f rest := by
  cases hs with
  | bypass hreq =>
    obtain ⟨-, rfl⟩ := Cache.request_eq_bypass hreq
    exact .inl hn
  | hit hreq =>
    obtain ⟨e, he, -, hb, rfl⟩ := Cache.request_eq_hit hreq
    exact .inl ((Cache.serials_handOut he hb).subset (List.mem_cons_of_mem _ hn))
  | @miss k key spec c hreq =>
    obtain rfl := Cache.request_eq_miss hreq
    exact .inl ((Cache.serials_sublist (Cache.entries_remove s.cache key)).subset hn)
  | failed hp => exact .inl hn
  | @made a rest hp x =>
    left
    unfold deliver at hn
    dsimp only at hn
    split at hn
    · exact (Cache.serials_register ..).subset hn
    · exact hn
  | write hp x => exact .inl hn
  | @release f rest hp =>
    refine (Cache.mem_serials_release hn).imp_right fun ⟨hserial, hon, hout⟩ => ?_
    exact ⟨f, rest, hp, hserial.symm, hon, hout, rfl⟩
  | clear => cases hn
  | evict => exact .inl ((Cache.serials_sublist (Cache.entries_evict _)).subset hn)
  | setEnabled on => exact .inl hn

/-- **A buffer that is kept after the clearing** was filed again after it. -/
theorem refiled_of_mem_serials (hrun : Relation.ReflTransGen Step s.cleared s')
    (hn : n ∈ s'.cache.serials) : Refiled n s.cleared s' := by
  induction hrun with
  | refl => cases hn
  | tail hrun hs ih =>
    rcases hs.mem_serials hn with hn | ⟨f, rest, hp, hserial, hon, hout, rfl⟩
    · exact (ih hn).tail hs
    · exact ⟨hrun, hp, hserial, hon, hout, renewed_of_isCheckedOut hrun hout, .refl⟩

/-! ### Buffers that are in no place -/

/-- **A buffer that was made and is in no place** stays away. -/
theorem not_mem_places_of_run (hrun : Relation.ReflTransGen Step s s') (hmade : n < s.made.length)
    (hn : n ∉ s.places) : n ∉ s'.places := by
  have h : n < s'.made.length ∧ n ∉ s'.places := by
    induction hrun with
    | refl => exact ⟨hmade, hn⟩
    | tail _ hs ih =>
      obtain ⟨new, hnew, hplaces⟩ := hs.places
      refine ⟨hnew ▸ ih.1.trans_le (by rw [List.length_append]; exact Nat.le_add_right ..), ?_⟩
      intro hm
      rcases List.mem_append.1 (hplaces.subset hm) with hm | hm
      · exact Nat.not_le_of_lt ih.1 (List.mem_range'_1.1 hm).1
      · exact ih.2 hm
  exact h.2

/-- A buffer that is given back and not kept is in no place. -/
theorem Reachable.not_mem_places (h : Reachable settings s) {f : Holding β}
    {rest : List (Holding β)} (hp : s.held.Perm (f :: rest))
    (hdropped : ¬ (s.cache.enabled = true ∧ s.cache.isCheckedOut f.key = true)) :
    f.buffer.serial ∉ (s.giveBack f rest).places := by
  have hplaces : (f.buffer.serial :: (rest.map (·.buffer.serial) ++ s.cache.serials)).Nodup :=
    ((hp.map fun g => g.buffer.serial).append_right _).nodup_iff.1 h.nodup_places
  obtain ⟨hnot, -⟩ := List.nodup_cons.1 hplaces
  intro hm
  refine hnot (List.mem_append.2 ?_)
  rcases List.mem_append.1 hm with hm | hm
  · exact .inl hm
  · exact .inr ((Cache.mem_serials_release hm).resolve_right fun hr => hdropped hr.2)

/-! ### After the clearing -/

/-- **Which buffers a clearing forgets.** Let a client hold a buffer when the cache is cleared. If
it is given back later it is dropped, and nobody ever holds it again and no entry keeps it, unless
the cache is enabled and its key has an entry in use, for which a buffer was registered after the
clearing. A request after the clearing is served with it only if it asks with the same key and the
buffer was given back in this way in between. -/
theorem forgotten_unless_renewed (h : Reachable settings s) {g : Holding β} (hg : g ∈ s.held)
    (hrun : Relation.ReflTransGen Step s.cleared s') :
    (∀ f rest, s'.held.Perm (f :: rest) → f.buffer.serial = g.buffer.serial →
      (∀ s'', Relation.ReflTransGen Step (s'.giveBack f rest) s'' →
        g.buffer.serial ∉ s''.places) ∨
      s'.cache.enabled = true ∧ s'.cache.isCheckedOut g.key = true ∧
        Renewed g.key s.cleared s') ∧
    (∀ (σ : Type) (k : κ) (key : CacheKey) (spec : BufferSpec)
      (allocate : (Cache fun k => Tagged (β k)) → σ →
        Except Error (Tagged (β k)) × (Cache fun k => Tagged (β k)) × σ) (t t' : σ)
      (b : Tagged (β k)) (c : Cache fun k => Tagged (β k)),
      s'.cache.acquire k key spec allocate t = (.ok b, c, t') →
        b.serial = g.buffer.serial →
          (∃ c', allocate (s'.cache.request k key spec).2 t = (.ok b, c', t')) ∨
            key = g.key ∧ Refiled g.buffer.serial s.cleared s') := by
  have hclear : Step s s.cleared := .clear
  have hreach : Reachable settings s' := h.trans (.head hclear hrun)
  obtain ⟨spec, hmade⟩ := h.traced.held g hg
  have hmade' : s'.made[g.buffer.serial]? = some (g.key, spec) :=
    made_of_run (.head hclear hrun) hmade
  have hkey : ∀ {n key}, s'.MadeFor n key → n = g.buffer.serial → key = g.key := by
    rintro n key ⟨spec', hspec'⟩ rfl
    rw [hmade'] at hspec'
    exact (congrArg Prod.fst (Option.some.inj hspec')).symm
  refine ⟨fun f rest hp hserial => ?_, fun σ k key spec allocate t t' b c hget hserial => ?_⟩
  · have hfkey : f.key = g.key :=
      hkey (hreach.traced.held f (hp.mem_iff.2 List.mem_cons_self)) hserial
    by_cases hfiled : s'.cache.enabled = true ∧ s'.cache.isCheckedOut g.key = true
    · exact .inr ⟨hfiled.1, hfiled.2, renewed_of_isCheckedOut hrun hfiled.2⟩
    · refine .inl fun s'' hrun' => not_mem_places_of_run hrun' ?_ ?_
      · exact (List.getElem?_eq_some_iff.1 hmade').1
      · exact hserial ▸ hreach.not_mem_places hp (hfkey ▸ hfiled)
  · refine (hreach.acquire_origin hget).imp_right fun ⟨⟨e, he, hb⟩, hfor, _, _⟩ => ?_
    refine ⟨hkey hfor hserial, refiled_of_mem_serials hrun (hserial ▸ ?_)⟩
    exact List.mem_filterMap.2 ⟨(key, e), mem_of_lookup he, by rw [hb]; rfl⟩

/-! ### A buffer that comes back -/

open Shared (slotKey fourNumbers)

/-- One buffer has been handed out. -/
def lent : Clients fun _ : Unit => Nat where
  cache :=
    { budget := 1024
      entries := [(slotKey 0, ⟨none, fourNumbers, fourNumbers.bytes, 1⟩)]
      totalBytes := 32
      clock := 1
      stats := { misses := 1 } }
  held := [⟨slotKey 0, (), 0, none, 10⟩]
  made := [(slotKey 0, fourNumbers)]

/-- Then the cache was cleared, a second buffer was handed out under the same key, and the first one
came back. -/
def returned : Clients fun _ : Unit => Nat where
  cache :=
    { budget := 1024
      entries := [(slotKey 0,
        ⟨some ⟨(), 0, some fourNumbers, 10⟩, fourNumbers, fourNumbers.bytes, 2⟩)]
      idle := [(2, slotKey 0)]
      totalBytes := 32
      clock := 2
      stats := { misses := 2 } }
  held := [⟨slotKey 0, (), 1, none, 11⟩]
  made := [(slotKey 0, fourNumbers), (slotKey 0, fourNumbers)]

/-- Somebody asks, and finds nothing. -/
theorem step_ask (s : Clients fun _ : Unit => Nat) (h : s.cache.request () (slotKey 0) fourNumbers =
    (.miss, (s.cache.request () (slotKey 0) fourNumbers).2)) :
    Step s
      { s with
        cache := (s.cache.request () (slotKey 0) fourNumbers).2
        asking := ⟨(), slotKey 0, fourNumbers, true⟩ :: s.asking } :=
  .miss h

theorem reachable_lent : Reachable { budget := .bytes 1024 } lent := by
  have h : Reachable { budget := .bytes 1024 }
      (start { budget := .bytes 1024 } : Clients fun _ : Unit => Nat) := .refl
  have h := h.tail (step_ask _ rfl)
  have h := h.tail (.made (List.Perm.refl _) 10)
  exact h

theorem run_returned : Relation.ReflTransGen Step lent.cleared returned := by
  have giveBack : ∀ (s : Clients fun _ : Unit => Nat) g rest, s.held.Perm (g :: rest) →
      Step s (s.giveBack g rest) := fun s g rest hp => .release hp
  have h : Relation.ReflTransGen Step lent.cleared lent.cleared := .refl
  have h := h.tail (step_ask _ rfl)
  have h := h.tail (.made (List.Perm.refl _) 11)
  exact h.tail (giveBack _ ⟨slotKey 0, (), 0, none, 10⟩ [⟨slotKey 0, (), 1, none, 11⟩]
    (List.Perm.swap _ _ _))

/-- A buffer that was out when the cache was cleared is handed out again after it. -/
theorem cleared_served : Reachable { budget := .bytes 1024 } lent ∧
    (∃ g ∈ lent.held, g.key = slotKey 0 ∧ g.buffer.serial = 0) ∧
    Relation.ReflTransGen Step lent.cleared returned ∧
    ∃ b c, returned.cache.request () (slotKey 0) fourNumbers = (.hit b, c) ∧ b.serial = 0 :=
  ⟨reachable_lent, ⟨_, List.mem_cons_self, rfl, rfl⟩, run_returned, _, _, rfl, rfl⟩

theorem forgotten_unless_renewed_returned :
    ∃ c, returned.cache.acquire () (slotKey 0) fourNumbers
        (fun c t => (.error .emptyNetwork, c, t)) () = (.ok ⟨0, some fourNumbers, 10⟩, c, ()) ∧
      Refiled 0 lent.cleared returned := by
  obtain ⟨-, hserved⟩ := forgotten_unless_renewed reachable_lent List.mem_cons_self run_returned
  refine ⟨_, rfl, ?_⟩
  rcases hserved Unit () (slotKey 0) fourNumbers (fun c t => (.error .emptyNetwork, c, t)) () ()
    ⟨0, some fourNumbers, 10⟩ _ rfl rfl with ⟨c', hmade⟩ | ⟨-, hrefiled⟩
  · cases hmade
  · exact hrefiled

end Clients

end TensorNet
