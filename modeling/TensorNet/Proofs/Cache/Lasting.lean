import Mathlib
import TensorNet.Proofs.Cache.Used

/-!
# What becomes of a released buffer

A buffer that is given back waits in the cache for the next request under its key. In the meantime
others use the cache under other keys, it may be switched off and on, and it may be told to keep its
budget. None of this touches the entry as long as the bytes of all entries stay within the budget,
for then there is nothing to evict (`evict_of_le`), and an eviction is all that an operation can do
to the entry of another key.

The bytes are at their highest when a new buffer has been registered and before anything is dropped
to make room for it, so this is where they have to be within the budget. The number that counts is
the one that the cache keeps, which never passes the sum over its entries.
-/

namespace TensorNet.Cache

variable {κ : Type} {β : κ → Type} {c d : Cache β} {k : κ} {key key' : CacheKey}
variable {spec : BufferSpec} {e : CacheEntry β}

/-- Within the budget there is nothing to evict. -/
theorem evict_of_le (h : c.totalBytes.val ≤ c.budget) : c.evict = c := by
  unfold evict
  cases hl : c.idle with
  | nil =>
    rw [evictFrom, ← hl]
  | cons r rest =>
    rw [evictFrom, if_pos h, ← hl]

/-- The cache has this entry, and its bytes are within the budget. -/
structure Rests (key : CacheKey) (e : CacheEntry β) (c : Cache β) : Prop where
  entry : c.entry? key = some e
  within : c.totalBytes.val ≤ c.budget

theorem Rests.evict (h : Rests key e c) : Rests key e c.evict := by
  rw [evict_of_le h.within]
  exact h

theorem Rests.remove (h : Rests key e c) (hk : key' ≠ key) : Rests key e (c.remove key') := by
  refine ⟨by rw [entry_remove, if_neg hk.symm, h.entry], ?_⟩
  rw [budget_remove]
  refine le_trans ?_ h.within
  unfold Cache.remove
  split
  · exact Nat.le_refl _
  · exact Nat.sub_le _ _

theorem Rests.handOut (h : Rests key e c) (hk : key' ≠ key) (e' : CacheEntry β) :
    Rests key e (c.handOut key' e') :=
  ⟨by rw [entry_handOut, if_neg hk.symm, h.entry], h.within⟩

theorem Rests.enter (h : Rests key e c) (hk : key' ≠ key)
    (room : (c.enter key' spec).totalBytes.val ≤ c.budget) : Rests key e (c.enter key' spec) := by
  refine ⟨?_, room.trans_eq (budget_remove c key').symm⟩
  have hlook : Cache.entry? (c.enter key' spec) key = Cache.entry? (c.remove key') key := by
    rw [entry_eq, Cache.enter, lookup_put, if_neg hk.symm]
    rfl
  rw [hlook, (h.remove hk).entry]

theorem Rests.makeIdle (h : Rests key e c) (hk : key' ≠ key) (b : β k) :
    Rests key e (c.makeIdle k key' b) := by
  unfold Cache.makeIdle
  split
  · exact h
  · exact ⟨by rw [entry_eq, lookup_put, if_neg hk.symm, ← entry_eq, h.entry], h.within⟩

theorem release_of_inUse (hon : c.enabled = true) (he : c.entry? key = some e)
    (hu : e.inUse = true) (b : β k) : c.release k key b = (c.makeIdle k key b).evict := by
  rw [release, isCheckedOut_iff.2 ⟨e, he, hu⟩, hon]
  rfl

/-- The buffer of an entry in use, once it is back. -/
theorem rests_release (hon : c.enabled = true) (he : c.entry? key = some e) (hu : e.inUse = true)
    (within : c.totalBytes.val ≤ c.budget) (b : β k) :
    Rests key { e with buffer := some ⟨k, b⟩ } (c.release k key b) := by
  have hidle : Rests key { e with buffer := some ⟨k, b⟩ } (c.makeIdle k key b) := by
    rw [Cache.makeIdle, he]
    exact ⟨by rw [entry_eq, lookup_put, if_pos rfl], within⟩
  rw [release_of_inUse hon he hu]
  exact hidle.evict

section

variable [DecidableEq κ]

/-! ### Use under other keys -/

/-- **One step under another key or none**, with the bytes within the budget all the while. To get
a buffer is a request, and a registration if a buffer had to be made. -/
inductive Elsewhere (key : CacheKey) : Cache β → Cache β → Prop
  | request (c : Cache β) (k : κ) {key' : CacheKey} (other : key' ≠ key) (spec : BufferSpec) :
      Elsewhere key c (c.request k key' spec).2
  | register (c : Cache β) {key' : CacheKey} (other : key' ≠ key) {spec : BufferSpec}
      (room : (c.enter key' spec).totalBytes.val ≤ c.budget) :
      Elsewhere key c (c.register key' spec)
  | release (c : Cache β) (k : κ) {key' : CacheKey} (other : key' ≠ key) (b : β k) :
      Elsewhere key c (c.release k key' b)
  | evict (c : Cache β) : Elsewhere key c c.evict
  | setEnabled (c : Cache β) (on : Bool) : Elsewhere key c (c.setEnabled on)

/-- **To get a buffer under another key is such use**, whether it is there, is made or cannot be
made, and whatever is done with the cache while it is made, if that is such use. -/
theorem elsewhere_acquire {σ : Type} (other : key' ≠ key) (spec : BufferSpec)
    (allocate : Cache β → σ → Except Error (β k) × Cache β × σ) (t : σ)
    (hcall : ∀ c', Relation.ReflTransGen (Elsewhere key) c' (allocate c' t).2.1)
    (room : ∀ c' b d t', c.request k key' spec = (.miss, c') → allocate c' t = (.ok b, d, t') →
      (d.enter key' spec).totalBytes.val ≤ d.budget) :
    Relation.ReflTransGen (Elsewhere key) c (c.acquire k key' spec allocate t).2.1 := by
  have hreq : Elsewhere key c (c.request k key' spec).2 := .request c k other spec
  unfold acquire
  cases hr : c.request k key' spec with
  | mk response c' =>
    rw [hr] at hreq
    cases response with
    | bypass => exact .head hreq (hcall c')
    | hit b => exact .single hreq
    | miss =>
      have hrun := Relation.ReflTransGen.head hreq (hcall c')
      dsimp only
      cases ha : allocate c' t with
      | mk result rest =>
        obtain ⟨d, t'⟩ := rest
        rw [ha] at hrun
        cases result with
        | error e => exact hrun
        | ok b => exact hrun.tail (.register d other (room c' b d t' hr ha))

theorem Elsewhere.used {settings : CacheConfig} (h : Elsewhere key c d) (hc : c.Used settings) :
    d.Used settings := by
  cases h with
  | request k _ spec => exact hc.request k _ spec
  | register _ _ => exact hc.register _ _
  | release k _ b => exact hc.release k _ b
  | evict => exact hc.evict
  | setEnabled on => exact hc.setEnabled on

theorem Used.run {settings : CacheConfig} (hc : c.Used settings)
    (hs : Relation.ReflTransGen (Elsewhere key) c d) : d.Used settings := by
  induction hs with
  | refl => exact hc
  | tail _ hs ih => exact hs.used ih

/-- **A step elsewhere leaves the entry alone.** -/
theorem Rests.step (h : Rests key e c) (hs : Elsewhere key c d) : Rests key e d := by
  cases hs with
  | @request k key' other spec =>
    rcases c.request_cases k key' spec with hr | ⟨e', b, -, -, hr⟩ | hr <;> rw [hr]
    · exact h
    · exact h.handOut other e'
    · exact ⟨(h.remove other).entry, (h.remove other).within⟩
  | register other room =>
    rw [register_eq]
    exact (h.enter other room).evict
  | @release k key' other b =>
    rcases c.release_cases k key' b with hr | hr | ⟨e', -, -, hr⟩ <;> rw [hr]
    · exact h
    · exact h.remove other
    · exact (h.makeIdle other b).evict
  | evict => exact h.evict
  | setEnabled on => exact ⟨h.entry, h.within⟩

theorem Rests.run (h : Rests key e c) (hs : Relation.ReflTransGen (Elsewhere key) c d) :
    Rests key e d := by
  induction hs with
  | refl => exact h
  | tail _ hs ih => exact ih.step hs

/-! ### The next request -/

/-- A buffer that rests is served, and nothing is made. -/
theorem Rests.acquire_eq {b : β k} (h : Rests key e d) (hb : e.buffer = some ⟨k, b⟩)
    (hon : d.enabled = true) {σ : Type}
    (allocate : Cache β → σ → Except Error (β k) × Cache β × σ) (t : σ) :
    d.acquire k key e.spec allocate t = (.ok b, d.handOut key e, t) := by
  have hfit : fitting? e k e.spec = some b := by
    rw [fitting?, if_pos rfl, hb, Option.bind_some, ofKind?, dif_pos rfl]
  have hreq : d.request k key e.spec = (.hit b, d.handOut key e) := by
    simp only [request, hon, h.entry, hfit, Bool.not_true, Bool.false_eq_true, if_false]
  rw [acquire, hreq]

/-- **A released buffer is not lost.** It comes back to the next request under its key that asks for
its shape and kind, whatever was done under other keys in between, if the bytes of all entries were
within the budget from the release on. It stays on the list of idle entries under its stamp until
then, nothing is made for the request, and one hit is counted and no miss. -/
theorem released_served {settings : CacheConfig} (hc : c.Used settings) (hon : c.enabled = true)
    (he : c.entry? key = some e) (hu : e.inUse = true)
    (within : c.totalBytes.val ≤ c.budget) (k : κ) (b : β k)
    (hrun : Relation.ReflTransGen (Elsewhere key) (c.release k key b) d) :
    d.idle.filter (fun r => r.2 == key) = [(e.stamp, key)] ∧
    (d.enabled = true → ∃ d' : Cache β,
      (∀ (σ : Type) (allocate : Cache β → σ → Except Error (β k) × Cache β × σ) (t : σ),
        d.acquire k key e.spec allocate t = (.ok b, d', t)) ∧
      d'.stats = { d.stats with hits := d.stats.hits + 1 } ∧ d'.isCheckedOut key = true) := by
  have hrests : Rests key { e with buffer := some ⟨k, b⟩ } d :=
    (rests_release hon he hu within b).run hrun
  have hrecord := ((hc.release k key b).run hrun).tidy.records_eq hrests.entry rfl
  refine ⟨hrecord, fun hd => ?_⟩
  refine ⟨_, fun σ allocate t => hrests.acquire_eq rfl hd allocate t, rfl, ?_⟩
  exact isCheckedOut_iff.2 ⟨_, by rw [entry_handOut, if_pos rfl], rfl⟩

end

open Shared

/-- A cache with room for two buffers of 32 bytes has handed one out. -/
def lent : Cache fun _ : Unit => Nat :=
  ((ofConfig { budget := .bytes 64 }).request () (slotKey 0) fourNumbers).2.register (slotKey 0)
    fourNumbers

/-- While the buffer rests, the cache is switched off and on, makes a second buffer, fails to make
a third one, and is told to keep its budget. -/
theorem released_served_lent : lent.Used { budget := .bytes 64 } ∧
    ∃ d d' : Cache fun _ : Unit => Nat,
      Relation.ReflTransGen (Elsewhere (slotKey 0)) (lent.release () (slotKey 0) 42) d ∧
      d.isCheckedOut (slotKey 1) = true ∧ d.stats = { misses := 3 } ∧
      d.acquire () (slotKey 0) fourNumbers (fun c t => (.error .emptyNetwork, c, t)) true =
        (.ok 42, d', true) ∧
      d'.stats = { hits := 1, misses := 3 } := by
  have hused : lent.Used { budget := .bytes 64 } :=
    (Used.start.request () (slotKey 0) fourNumbers).register (slotKey 0) fourNumbers
  have hother : ∀ n, n ≠ 0 → slotKey n ≠ slotKey 0 := fun n hn he => hn (congrArg CacheKey.slot he)
  have hrun : Relation.ReflTransGen (Elsewhere (slotKey 0)) (lent.release () (slotKey 0) 42)
      (lent.release () (slotKey 0) 42) := .refl
  have hrun := (hrun.tail (.setEnabled _ false)).tail (.setEnabled _ true)
  have hrun := hrun.trans (elsewhere_acquire (k := ()) (hother 1 (by decide)) fourNumbers
    (fun c t => (.ok 7, c, t)) () (fun _ => .refl) (by
      rintro c' b d t' hreq hmade
      cases hmade
      have hc' : c' = _ := (congrArg Prod.snd hreq).symm
      subst hc'
      decide))
  have hrun := hrun.trans (elsewhere_acquire (k := ()) (hother 2 (by decide)) fourNumbers
    (fun c t => (.error .emptyNetwork, c, t)) () (fun _ => .refl) nofun)
  have hrun := hrun.tail (.evict _)
  obtain ⟨-, hserved⟩ := released_served hused rfl rfl rfl (by decide) () 42 hrun
  obtain ⟨d', hacquire, hstats, -⟩ := hserved rfl
  exact ⟨hused, _, d', hrun, rfl, rfl, hacquire Bool _ true, hstats⟩

end TensorNet.Cache
