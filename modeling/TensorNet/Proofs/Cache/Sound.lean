import TensorNet.Cache.Basic
import TensorNet.Proofs.Lookup

/-!
# Sound caches

A cache is sound when every idle entry holds a buffer of the extents that the entry says. Every
operation keeps a cache sound: most of them only forget entries, and a buffer that comes in was
handed out for the same extents.

So a buffer that the cache hands out has the extents that were asked for. Nothing is said of its
contents.
-/

namespace TensorNet.Cache

variable {κ : Type} {β : κ → Type}

/-- Idle buffers have the extents of their entries. -/
def Sound (dims : ∀ k, β k → List Nat) (c : Cache β) : Prop :=
  ∀ key e, c.entry? key = some e → ∀ b, e.buffer = some b → dims b.1 b.2 = e.spec.dims

/-- What is kept has a property that may depend on the key and on the shape of the entry. -/
def Stored (P : CacheKey → BufferSpec → (k : κ) × β k → Prop) (c : Cache β) : Prop :=
  ∀ key e, c.entry? key = some e → ∀ b, e.buffer = some b → P key e.spec b

/-- The shape noted for a key. -/
def spec? (c : Cache β) (key : CacheKey) : Option BufferSpec := (c.entry? key).map (·.spec)

/-- One cache has fewer entries than another. -/
def Below (c d : Cache β) : Prop := ∀ key e, c.entry? key = some e → d.entry? key = some e

variable {dims : ∀ k, β k → List Nat} {c d : Cache β}

theorem Below.refl (c : Cache β) : c.Below c := fun _ _ h => h

theorem Below.trans {a b c : Cache β} (h : a.Below b) (h' : b.Below c) : a.Below c :=
  fun key e he => h' key e (h key e he)

theorem sound_iff_stored :
    c.Sound dims ↔ c.Stored fun _ spec b => dims b.1 b.2 = spec.dims := Iff.rfl

theorem Stored.of_below {P : CacheKey → BufferSpec → (k : κ) × β k → Prop} (h : d.Stored P)
    (hc : c.Below d) : c.Stored P :=
  fun key e he => h key e (hc key e he)

theorem Sound.of_below (h : d.Sound dims) (hc : c.Below d) : c.Sound dims :=
  (sound_iff_stored.1 h).of_below hc

theorem Below.spec? (h : c.Below d) {key : CacheKey} {s : BufferSpec} (hs : c.spec? key = some s) :
    d.spec? key = some s := by
  obtain ⟨e, he, rfl⟩ := Option.map_eq_some_iff.1 hs
  exact Option.map_eq_some_iff.2 ⟨e, h key e he, rfl⟩

/-! ### Entries -/

theorem entry_eq (c : Cache β) (key : CacheKey) : c.entry? key = c.entries.lookup key := rfl

theorem sound_of_isEmpty (h : c.isEmpty = true) : c.Sound dims := by
  intro key e he
  rw [entry_eq, List.isEmpty_iff.1 h] at he
  cases he

theorem lookup_without (key key' : CacheKey) (es : List (CacheKey × CacheEntry β)) :
    (without key es).lookup key' = if key' = key then none else es.lookup key' :=
  lookup_filter_ne key key' es

theorem lookup_put (key key' : CacheKey) (e : CacheEntry β)
    (es : List (CacheKey × CacheEntry β)) :
    (put key e es).lookup key' = if key' = key then some e else es.lookup key' := by
  rw [put, List.lookup_cons, lookup_without]
  by_cases hk : key' = key
  · simp [hk]
  · have hb : (key' == key) = false := by simpa using hk
    simp only [hb, hk, if_false]

theorem below_without {key : CacheKey} (h : c.entries = without key d.entries) : c.Below d := by
  intro key' e he
  rw [entry_eq, h, lookup_without] at he
  split at he
  · cases he
  · exact he

theorem below_remove (c : Cache β) (key : CacheKey) : (c.remove key).Below c := by
  unfold remove
  split
  · exact .refl c
  · exact below_without rfl

theorem below_drop (c : Cache β) (key : CacheKey) : (c.drop key).Below c := by
  unfold drop
  split
  · exact .refl c
  · exact below_without rfl

theorem below_evictFrom (l : List (Nat × CacheKey)) (c : Cache β) : (evictFrom l c).Below c := by
  induction l generalizing c with
  | nil => exact fun _ _ h => h
  | cons r rest ih =>
    unfold evictFrom
    split
    · exact fun _ _ h => h
    · exact (ih (c.drop r.2)).trans (below_drop c r.2)

theorem below_evict (c : Cache β) : c.evict.Below c := below_evictFrom c.idle c

theorem below_clear (c : Cache β) : c.clear.Below c := fun _ _ h => nomatch h

/-! ### What an operation does to an entry -/

section

variable {k : κ} {key key' : CacheKey} {e e' : CacheEntry β} {spec : BufferSpec}

theorem entry_handOut (c : Cache β) (key key' : CacheKey) (e : CacheEntry β) :
    Cache.entry? (c.handOut key e) key' =
      if key' = key then some { e with buffer := none, stamp := c.clock + 1 }
      else c.entry? key' :=
  lookup_put key key' _ c.entries

/-- An entry after a registration is the new one, or it was there before. -/
theorem entry_register (h : Cache.entry? (c.register key spec) key' = some e') :
    if key' = key then e'.buffer = none ∧ e'.spec = spec else c.entry? key' = some e' := by
  have h := below_evict _ key' e' h
  rw [entry_eq, lookup_put] at h
  split at h
  · next hk =>
    cases h
    rw [if_pos hk]
    exact ⟨rfl, rfl⟩
  · next hk =>
    rw [if_neg hk]
    exact below_remove c key key' e' h

/-- An entry after a buffer came back is the one that has it now, or it was there before. -/
theorem entry_makeIdle {b : β k} (h : Cache.entry? (c.makeIdle k key b) key' = some e') :
    c.entry? key' = some e' ∨
      (key' = key ∧ e'.buffer = some ⟨k, b⟩ ∧ c.spec? key = some e'.spec) := by
  unfold makeIdle at h
  split at h
  · exact .inl h
  · next e he =>
    rw [entry_eq, lookup_put] at h
    split at h
    · next hk =>
      cases h
      exact .inr ⟨hk, rfl, by rw [Cache.spec?, he]; rfl⟩
    · exact .inl h

variable {P : CacheKey → BufferSpec → (k : κ) × β k → Prop}

theorem Stored.handOut (h : c.Stored P) (key : CacheKey) (e : CacheEntry β) :
    Stored P (c.handOut key e) := by
  intro key' e' he b hb
  rw [entry_handOut] at he
  split at he
  · cases he
    cases hb
  · exact h key' e' he b hb

theorem Stored.register (h : c.Stored P) (key : CacheKey) (spec : BufferSpec) :
    Stored P (c.register key spec) := by
  intro key' e' he b hb
  have hcases := entry_register he
  split at hcases
  · rw [hcases.1] at hb
    cases hb
  · exact h key' e' hcases b hb

/-- **What comes back must have the property** for the shape noted for its key. -/
theorem Stored.release (h : c.Stored P) {b : β k}
    (hb : c.enabled = true → ∀ spec, c.spec? key = some spec → P key spec ⟨k, b⟩) :
    Stored P (c.release k key b) := by
  unfold Cache.release
  split
  · exact h
  · split
    · exact h.of_below (below_remove c key)
    · next hen =>
      refine Stored.of_below (fun key' e' he x hx => ?_) (below_evict _)
      rcases entry_makeIdle he with hold | ⟨rfl, hbuf, hs⟩
      · exact h key' e' hold x hx
      · rw [hbuf] at hx
        cases hx
        exact hb (by simpa using hen) _ hs

end

/-! ### The switch -/

@[simp] theorem enabled_remove (c : Cache β) (key : CacheKey) :
    (c.remove key).enabled = c.enabled := by
  unfold remove
  split <;> rfl

@[simp] theorem enabled_drop (c : Cache β) (key : CacheKey) :
    (c.drop key).enabled = c.enabled := by
  unfold drop
  split <;> rfl

theorem enabled_evictFrom (l : List (Nat × CacheKey)) (c : Cache β) :
    (evictFrom l c).enabled = c.enabled := by
  induction l generalizing c with
  | nil => rfl
  | cons r rest ih =>
    unfold evictFrom
    split
    · rfl
    · rw [ih, enabled_drop]

@[simp] theorem enabled_evict (c : Cache β) : c.evict.enabled = c.enabled :=
  enabled_evictFrom c.idle c

@[simp] theorem enabled_release (c : Cache β) (k : κ) (key : CacheKey) (b : β k) :
    (c.release k key b).enabled = c.enabled := by
  unfold release
  split
  · rfl
  · split
    · exact enabled_remove c key
    · rw [enabled_evict, makeIdle]
      split <;> rfl

/-! ### Getting a buffer -/

section

variable {k : κ} {key : CacheKey} {spec : BufferSpec}

theorem ofKind?_eq_some [DecidableEq κ] {b : (k : κ) × β k} {x : β k} (h : ofKind? k b = some x) :
    b = ⟨k, x⟩ := by
  obtain ⟨k', y⟩ := b
  unfold ofKind? at h
  split at h
  · next hk =>
    obtain rfl : k' = k := hk
    cases h
    rfl
  · cases h

/-- **A hit hands out the idle buffer of an entry** of the shape that was asked for. -/
theorem request_eq_hit [DecidableEq κ] {b : β k} (h : c.request k key spec = (.hit b, d)) :
    ∃ e, c.entry? key = some e ∧ e.spec = spec ∧ e.buffer = some ⟨k, b⟩ ∧ d = c.handOut key e := by
  unfold request at h
  split at h
  · cases h
  · split at h
    · cases h
    · next e he =>
      split at h
      · next x hf =>
        cases h
        unfold fitting? at hf
        split at hf
        · next hs =>
          obtain ⟨y, hy, hyx⟩ := Option.bind_eq_some_iff.1 hf
          exact ⟨e, he, hs, ofKind?_eq_some hyx ▸ hy, rfl⟩
        · cases hf
      · cases h

theorem spec_handOut {e : CacheEntry β} {key' : CacheKey} {s : BufferSpec}
    (he : c.entry? key = some e) (h : Cache.spec? (c.handOut key e) key' = some s) :
    c.spec? key' = some s := by
  rw [Cache.spec?, entry_handOut] at h
  split at h
  · next hk =>
    rw [hk, Cache.spec?, he]
    exact h
  · exact h

theorem spec_register {key' : CacheKey} {s : BufferSpec}
    (h : Cache.spec? (c.register key spec) key' = some s) :
    (key' = key ∧ s = spec) ∨ c.spec? key' = some s := by
  obtain ⟨e, he, rfl⟩ := Option.map_eq_some_iff.1 h
  have hcases := entry_register he
  split at hcases
  · next hk => exact .inl ⟨hk, hcases.2⟩
  · exact .inr (Option.map_eq_some_iff.2 ⟨e, hcases, rfl⟩)

/-- A cache after a buffer of some shape was asked for: the new entry, if there is one, has this
shape, and no other entry is new. -/
structure Got (dims : ∀ k, β k → List Nat) (c : Cache β) (key : CacheKey) (spec : BufferSpec)
    (c' : Cache β) : Prop where
  sound : c.Sound dims → c'.Sound dims
  enabled : c'.enabled = c.enabled
  same : c.enabled = true → ∀ s, c'.spec? key = some s → s = spec
  others : ∀ key', key' ≠ key → ∀ s, c'.spec? key' = some s → c.spec? key' = some s

theorem got_handOut {e : CacheEntry β} (hs : e.spec = spec) :
    Got dims c key spec (c.handOut key e) := by
  refine ⟨fun hc => (sound_iff_stored.1 hc).handOut key e, rfl, fun _ s h => ?_,
    fun key' hne s h => ?_⟩
  · rw [Cache.spec?, entry_handOut, if_pos rfl] at h
    cases h
    exact hs
  · rwa [Cache.spec?, entry_handOut, if_neg hne] at h

theorem got_register : Got dims c key spec (c.register key spec) := by
  refine ⟨fun hc => (sound_iff_stored.1 hc).register key spec, by simp [register], fun _ s h => ?_,
    fun key' hne s h => ?_⟩
  · obtain ⟨e, he, rfl⟩ := Option.map_eq_some_iff.1 h
    have := entry_register he
    rw [if_pos rfl] at this
    exact this.2
  · obtain ⟨e, he, rfl⟩ := Option.map_eq_some_iff.1 h
    have := entry_register he
    rw [if_neg hne] at this
    exact Option.map_eq_some_iff.2 ⟨e, this, rfl⟩

theorem Got.of_below {c₀ : Cache β} (h : Got dims c₀ key spec d) (hc : c₀.Below c)
    (he : c₀.enabled = c.enabled) : Got dims c key spec d :=
  ⟨fun hs => h.sound (hs.of_below hc), h.enabled.trans he, fun hon => h.same (he.trans hon),
    fun key' hne s hs => hc.spec? (h.others key' hne s hs)⟩

/-- **Asking a cache for a buffer**, where a new one is made without it. The buffer has the extents
that were asked for if the cache is sound, or if it is disabled. -/
theorem acquire_spec (dims : ∀ k, β k → List Nat) [DecidableEq κ] {σ : Type}
    (hc : c.enabled = true → c.Sound dims) {fresh : β k}
    (hfresh : dims k fresh = spec.dims) {s : σ} {r : Except Error (β k)} {c' : Cache β} {s' : σ}
    (h : c.acquire k key spec (fun c t => (.ok fresh, c, t)) s = (r, c', s')) :
    (∃ b, r = .ok b ∧ dims k b = spec.dims) ∧ s' = s ∧ Got dims c key spec c' := by
  unfold acquire request at h
  by_cases hen : c.enabled = true
  · simp only [hen, Bool.not_true, Bool.false_eq_true, if_false] at h
    cases he : c.entry? key with
    | none =>
      simp only [he] at h
      cases h
      exact ⟨⟨fresh, rfl, hfresh⟩, rfl, (got_register (c := c.countMiss)).of_below (.refl c) rfl⟩
    | some e =>
      simp only [he] at h
      cases hf : fitting? e k spec with
      | none =>
        simp only [hf] at h
        cases h
        have hbelow : (c.remove key).countMiss.Below c := below_remove c key
        exact ⟨⟨fresh, rfl, hfresh⟩, rfl,
          got_register.of_below hbelow (enabled_remove c key)⟩
      | some b =>
        simp only [hf] at h
        cases h
        unfold fitting? at hf
        split at hf
        · next hs =>
          obtain ⟨x, hx, hxb⟩ := Option.bind_eq_some_iff.1 hf
          obtain rfl := ofKind?_eq_some hxb
          exact ⟨⟨b, rfl, hs ▸ hc hen key e he _ hx⟩, rfl, got_handOut hs⟩
        · cases hf
  · simp only [hen, Bool.not_false, if_true] at h
    cases h
    exact ⟨⟨fresh, rfl, hfresh⟩, rfl, fun h => h, rfl, fun h => absurd h hen, fun _ _ _ h => h⟩

end

/-! ### Giving a buffer back -/

variable {k : κ} {key : CacheKey} {b : β k}

/-- Giving a buffer back notes no shape anew. -/
theorem spec_release {key' : CacheKey} {s : BufferSpec}
    (h : Cache.spec? (c.release k key b) key' = some s) : c.spec? key' = some s := by
  unfold release at h
  split at h
  · exact h
  · split at h
    · exact (below_remove c key).spec? h
    · obtain ⟨e, he, rfl⟩ := Option.map_eq_some_iff.1 ((below_evict _).spec? h)
      rcases entry_makeIdle he with he | ⟨rfl, -, he⟩
      · exact Option.map_eq_some_iff.2 ⟨e, he, rfl⟩
      · exact he

/-- **Giving back a buffer** of the extents noted for its key. -/
theorem release_spec (dims : ∀ k, β k → List Nat)
    (hb : c.enabled = true → ∀ s, c.spec? key = some s → s.dims = dims k b) :
    (c.Sound dims → (c.release k key b).Sound dims) ∧
      ∀ key' s, (c.release k key b).spec? key' = some s → c.spec? key' = some s :=
  ⟨fun h => (sound_iff_stored.1 h).release fun hon s hs => (hb hon s hs).symm,
    fun _ _ => spec_release⟩

end TensorNet.Cache
