import Mathlib
import TensorNet.Proofs.Cache.Sound

/-!
# The books of a cache

## 1. What has to agree

What a cache holds is written down three times: as entries, as the list of idle entries by their
stamps, and as a number of bytes. Every operation changes the three by hand. A cache is consistent
when they agree, and every operation keeps a cache consistent.

## 2. Two moves

An operation forgets the entry of a key, or adds an entry under a key that has none. To hand out a
buffer or to take it back is to do both, one after the other. So there is one lemma for each of the
two moves, and each operation says which moves it is.

The number of bytes stops at its limit, and from then on it may be less than the bytes of the
entries, but never more. A cache whose number of bytes may have stopped is still tidy. It stays
consistent as long as every new entry leaves the bytes of all entries below the limit.

## 3. The budget

Idle entries are dropped until the budget is kept or none is left. No other operation makes the
number of bytes larger, or makes an entry idle.
-/

namespace TensorNet.Cache

variable {κ : Type} {β : κ → Type} {c d : Cache β} {key : CacheKey} {e : CacheEntry β}

/-- The bytes of some entries. -/
def bytesOf (es : List (CacheKey × CacheEntry β)) : Nat := (es.map fun e => e.2.spec.bytes.val).sum

/-- The bytes of all entries do not pass the limit of what can be counted. -/
def Countable (c : Cache β) : Prop := bytesOf c.entries ≤ 0xFFFFFFFFFFFFFFFF

instance (c : Cache β) : Decidable c.Countable := inferInstanceAs (Decidable (_ ≤ _))

/-- **Entries and idle list agree**, and the bytes are no more than those of all entries. No key has
two entries, the idle list has the idle entries under their stamps in ascending order, and no two
entries have one stamp. -/
structure Tidy (c : Cache β) : Prop where
  keys : (c.entries.map (·.1)).Nodup
  idle : ∀ stamp key, (stamp, key) ∈ c.idle ↔
    ∃ e, c.entry? key = some e ∧ e.inUse = false ∧ e.stamp = stamp
  ordered : c.idle.Pairwise fun r s => r.1 < s.1
  stamps : ∀ key key' e e', c.entry? key = some e → c.entry? key' = some e' →
    e.stamp = e'.stamp → key = key'
  clock : ∀ key e, c.entry? key = some e → e.stamp ≤ c.clock
  sizes : ∀ key e, c.entry? key = some e → e.bytes = e.spec.bytes
  bound : c.totalBytes.val ≤ bytesOf c.entries

/-- **Entries, idle list and number of bytes agree**: the bytes are those of all entries. -/
structure Consistent (c : Cache β) : Prop extends Tidy c where
  total : c.totalBytes.val = bytesOf c.entries

/-! ### Entries -/

theorem bytesOf_cons (e : CacheKey × CacheEntry β) (es : List (CacheKey × CacheEntry β)) :
    bytesOf (e :: es) = e.2.spec.bytes.val + bytesOf es := by
  rw [bytesOf, List.map_cons, List.sum_cons, bytesOf]

theorem bytesOf_without {es : List (CacheKey × CacheEntry β)} (hn : (es.map (·.1)).Nodup)
    (he : es.lookup key = some e) : bytesOf es = e.spec.bytes.val + bytesOf (without key es) := by
  have hperm := perm_cons_filter_ne hn he
  rw [bytesOf, (hperm.map _).sum_nat]
  exact bytesOf_cons (key, e) (without key es)

theorem bytesOf_put {es : List (CacheKey × CacheEntry β)} (hn : (es.map (·.1)).Nodup)
    (he : es.lookup key = some e) {e' : CacheEntry β} (hs : e'.spec = e.spec) :
    bytesOf (put key e' es) = bytesOf es := by
  rw [bytesOf_without hn he, put, bytesOf_cons, hs]

theorem without_eq_self {es : List (CacheKey × CacheEntry β)} (h : es.lookup key = none) :
    without key es = es := by
  refine List.filter_eq_self.2 fun e he => bne_iff_ne.2 fun hk => ?_
  have : (key == e.1) = false := by simpa using List.lookup_eq_none_iff.1 h e he
  rw [hk, beq_self_eq_true] at this
  cases this

theorem remove_of_some (he : c.entry? key = some e) : c.remove key =
    { c with
      entries := without key c.entries
      idle := if e.inUse then c.idle else unlist e.stamp c.idle
      totalBytes := c.totalBytes - e.bytes } := by
  rw [remove, he]

theorem entry_remove (c : Cache β) (key key' : CacheKey) :
    Cache.entry? (c.remove key) key' = if key' = key then none else c.entry? key' := by
  unfold remove
  split
  · next h =>
    split
    · next hk => rw [hk, h]
    · rfl
  · exact lookup_without key key' c.entries

theorem entry_drop (c : Cache β) (key key' : CacheKey) :
    Cache.entry? (c.drop key) key' = if key' = key then none else c.entry? key' := by
  unfold drop
  split
  · next h =>
    split
    · next hk => rw [hk, h]
    · rfl
  · exact lookup_without key key' c.entries

theorem put_entries_remove (c : Cache β) (key : CacheKey) (e : CacheEntry β) :
    put key e (c.remove key).entries = put key e c.entries := by
  refine congrArg ((key, e) :: ·) ?_
  unfold remove
  split
  · rfl
  · show without key (without key c.entries) = without key c.entries
    simp only [without, List.filter_filter, Bool.and_self]

/-! ### The idle list -/

theorem mem_enlist {stamp : Nat} {l : List (Nat × CacheKey)} (h : ∀ r ∈ l, r.1 ≠ stamp)
    (r : Nat × CacheKey) : r ∈ enlist stamp key l ↔ r ∈ l ∨ r = (stamp, key) := by
  induction l with
  | nil => simp [enlist]
  | cons a l ih =>
    rw [List.forall_mem_cons] at h
    rw [enlist, if_neg (fun he : stamp = a.1 => h.1 he.symm)]
    split
    · rw [List.mem_cons, or_comm]
    · rw [List.mem_cons, ih h.2, List.mem_cons, or_assoc]

theorem pairwise_enlist {stamp : Nat} {l : List (Nat × CacheKey)} (h : ∀ r ∈ l, r.1 ≠ stamp)
    (hl : l.Pairwise fun r s => r.1 < s.1) :
    (enlist stamp key l).Pairwise fun r s => r.1 < s.1 := by
  induction l with
  | nil => exact List.pairwise_singleton _ _
  | cons a l ih =>
    rw [List.forall_mem_cons] at h
    obtain ⟨ha, hl'⟩ := List.pairwise_cons.1 hl
    rw [enlist, if_neg (fun he : stamp = a.1 => h.1 he.symm)]
    split
    · next hlt =>
      refine List.pairwise_cons.2 ⟨List.forall_mem_cons.2 ⟨hlt, fun r hr => ?_⟩, hl⟩
      exact Nat.lt_trans hlt (ha r hr)
    · next hlt =>
      refine List.pairwise_cons.2 ⟨fun r hr => ?_, ih h.2 hl'⟩
      rcases (mem_enlist h.2 r).1 hr with hr | rfl
      · exact ha r hr
      · have := h.1
        show a.1 < stamp
        omega

/-! ### The two moves -/

/-- **An entry is forgotten**, in all three books. -/
theorem Tidy.forget (h : c.Tidy) (he : c.entry? key = some e)
    (hentries : d.entries = without key c.entries) (hidle : d.idle.Sublist c.idle)
    (hmem : ∀ r ∈ c.idle, r ∈ d.idle ↔ r.2 ≠ key) (htotal : d.totalBytes = c.totalBytes - e.bytes)
    (hclock : d.clock = c.clock) : d.Tidy := by
  have hlook : ∀ key', d.entry? key' = if key' = key then none else c.entry? key' := fun key' => by
    rw [entry_eq, hentries, lookup_without, entry_eq]
  have hbelow : d.Below c := below_without hentries
  constructor
  case keys =>
    rw [hentries]
    exact h.keys.sublist (List.filter_sublist.map _)
  case idle =>
    intro stamp key'
    constructor
    · intro hm
      have hc := hidle.subset hm
      obtain ⟨e', he', hu, hs⟩ := (h.idle stamp key').1 hc
      exact ⟨e', (hlook key').trans ((if_neg ((hmem _ hc).1 hm)).trans he'), hu, hs⟩
    · rintro ⟨e', he', hu, hs⟩
      have hne : key' ≠ key := fun hk => by rw [hlook, if_pos hk] at he'; cases he'
      exact (hmem _ ((h.idle stamp key').2 ⟨e', hbelow _ _ he', hu, hs⟩)).2 hne
  case ordered => exact h.ordered.sublist hidle
  case stamps => exact fun _ _ _ _ h₁ h₂ => h.stamps _ _ _ _ (hbelow _ _ h₁) (hbelow _ _ h₂)
  case clock => exact fun _ _ h₁ => hclock ▸ h.clock _ _ (hbelow _ _ h₁)
  case sizes => exact fun _ _ h₁ => h.sizes _ _ (hbelow _ _ h₁)
  case bound =>
    rw [htotal, hentries, Saturating.val_sub, h.sizes _ _ he]
    exact Nat.sub_le_iff_le_add'.2 (bytesOf_without h.keys he ▸ h.bound)

/-- **An entry is added** under a key that has none, in all three books. Its stamp is new. -/
theorem Tidy.add (h : c.Tidy) (hnone : c.entry? key = none)
    (hentries : d.entries = put key e c.entries)
    (hidle : ∀ r, r ∈ d.idle ↔ r ∈ c.idle ∨ e.inUse = false ∧ r = (e.stamp, key))
    (hordered : d.idle.Pairwise fun r s => r.1 < s.1)
    (hstamp : ∀ key' e', c.entry? key' = some e' → e'.stamp ≠ e.stamp)
    (hclock : c.clock ≤ d.clock) (hle : e.stamp ≤ d.clock) (hsize : e.bytes = e.spec.bytes)
    (htotal : d.totalBytes.val ≤ c.totalBytes.val + e.bytes.val) : d.Tidy := by
  have hlook : ∀ key' e', d.entry? key' = some e' →
      key' = key ∧ e' = e ∨ c.entry? key' = some e' := by
    intro key' e' he'
    rw [entry_eq, hentries, lookup_put] at he'
    split at he'
    · next hk => exact .inl ⟨hk, (Option.some.inj he').symm⟩
    · exact .inr he'
  have hcons : d.entries = (key, e) :: c.entries := by
    rw [hentries, put, without_eq_self hnone]
  have hmono : ∀ key' e', c.entry? key' = some e' → d.entry? key' = some e' := by
    intro key' e' he'
    have hne : key' ≠ key := fun hk => by rw [hk, hnone] at he'; cases he'
    rw [entry_eq, hentries, lookup_put, if_neg hne]
    exact he'
  have hself : d.entry? key = some e := by rw [entry_eq, hcons, List.lookup_cons_self]
  constructor
  case keys =>
    rw [hcons, List.map_cons, List.nodup_cons]
    refine ⟨fun hm => ?_, h.keys⟩
    obtain ⟨a, ha, rfl⟩ := List.mem_map.1 hm
    have := (lookup_eq_some_iff h.keys).2 ha
    rw [← entry_eq, hnone] at this
    cases this
  case idle =>
    intro stamp key'
    rw [hidle, h.idle]
    constructor
    · rintro (⟨e', he', hu, hs⟩ | ⟨hu, hr⟩)
      · exact ⟨e', hmono _ _ he', hu, hs⟩
      · cases hr
        exact ⟨e, hself, hu, rfl⟩
    · rintro ⟨e', he', hu, rfl⟩
      rcases hlook _ _ he' with ⟨rfl, rfl⟩ | he'
      · exact .inr ⟨hu, rfl⟩
      · exact .inl ⟨e', he', hu, rfl⟩
  case ordered => exact hordered
  case stamps =>
    intro k₁ k₂ e₁ e₂ h₁ h₂ heq
    rcases hlook _ _ h₁ with ⟨rfl, rfl⟩ | h₁ <;> rcases hlook _ _ h₂ with ⟨rfl, rfl⟩ | h₂
    · rfl
    · exact absurd heq.symm (hstamp _ _ h₂)
    · exact absurd heq (hstamp _ _ h₁)
    · exact h.stamps _ _ _ _ h₁ h₂ heq
  case clock =>
    intro k₁ e₁ h₁
    rcases hlook _ _ h₁ with ⟨-, rfl⟩ | h₁
    · exact hle
    · exact Nat.le_trans (h.clock _ _ h₁) hclock
  case sizes =>
    intro k₁ e₁ h₁
    rcases hlook _ _ h₁ with ⟨-, rfl⟩ | h₁
    · exact hsize
    · exact h.sizes _ _ h₁
  case bound =>
    rw [hcons, bytesOf_cons, ← hsize, Nat.add_comm]
    exact htotal.trans (Nat.add_le_add_right h.bound _)

/-! ### Consequences -/

/-- A listed key has an idle entry. -/
theorem Tidy.entry_of_mem_idle (h : c.Tidy) {r : Nat × CacheKey} (hr : r ∈ c.idle) :
    ∃ e, c.entry? r.2 = some e ∧ e.inUse = false ∧ e.stamp = r.1 :=
  (h.idle r.1 r.2).1 hr

theorem Tidy.mem_entries (h : c.Tidy) :
    (key, e) ∈ c.entries ↔ c.entry? key = some e :=
  (lookup_eq_some_iff h.keys).symm

/-- **The record of an idle entry** is the only one of its key. -/
theorem Tidy.records_eq (h : c.Tidy) (he : c.entry? key = some e)
    (hu : e.inUse = false) : c.idle.filter (fun r => r.2 == key) = [(e.stamp, key)] := by
  have hn : (c.idle.filter fun r => r.2 == key).Nodup :=
    (h.ordered.imp fun hlt he => Nat.ne_of_lt hlt (congrArg Prod.fst he)).filter _
  refine List.perm_singleton.1 ((List.perm_ext_iff_of_nodup hn (List.nodup_singleton _)).2 ?_)
  rintro ⟨stamp, key'⟩
  rw [List.mem_filter, beq_iff_eq, List.mem_singleton, h.idle]
  constructor
  · rintro ⟨⟨e', he', -, rfl⟩, rfl⟩
    rw [Option.some.inj (he.symm.trans he')]
  · rintro hr
    cases hr
    exact ⟨⟨e, he, hu, rfl⟩, rfl⟩

/-- No two entries have one stamp. -/
theorem Tidy.nodup_stamps (h : c.Tidy) : (c.entries.map (·.2.stamp)).Nodup := by
  have hkeys := List.pairwise_map.1 h.keys
  refine List.pairwise_map.2 (hkeys.imp_of_mem fun {a b} ha hb hne hs => ?_)
  exact hne (h.stamps _ _ _ _ (h.mem_entries.1 ha) (h.mem_entries.1 hb) hs)

theorem Consistent.bytes_le (h : c.Consistent) (he : c.entry? key = some e) :
    e.bytes.val ≤ c.totalBytes.val := by
  rw [h.total, bytesOf_without h.keys he, h.sizes _ _ he]
  exact Nat.le_add_right ..

/-! ### Operations -/

/-- An empty cache is consistent. -/
theorem Consistent.of_empty (hentries : c.entries = []) (hidle : c.idle = [])
    (htotal : c.totalBytes.val = 0) : c.Consistent := by
  have hnone : ∀ key e, c.entry? key ≠ some e := fun key e he => by
    rw [entry_eq, hentries] at he
    cases he
  refine ⟨⟨by rw [hentries]; exact .nil, fun stamp key => ?_, by rw [hidle]; exact .nil,
    fun _ _ _ _ h₁ => absurd h₁ (hnone _ _), fun _ _ h₁ => absurd h₁ (hnone _ _),
    fun _ _ h₁ => absurd h₁ (hnone _ _), htotal ▸ Nat.zero_le _⟩, by rw [htotal, hentries]; rfl⟩
  rw [hidle]
  exact ⟨fun hm => (List.not_mem_nil hm).elim, fun ⟨e, he, _⟩ => absurd he (hnone key e)⟩

theorem Consistent.clear (c : Cache β) : c.clear.Consistent := .of_empty rfl rfl rfl

/-- What the three books do not say may change. -/
theorem Tidy.congr (h : c.Tidy) (hentries : d.entries = c.entries) (hidle : d.idle = c.idle)
    (htotal : d.totalBytes = c.totalBytes) (hclock : d.clock = c.clock) : d.Tidy := by
  have hlook : ∀ key, d.entry? key = c.entry? key := fun key => by
    rw [entry_eq, hentries, entry_eq]
  constructor
  case keys => rw [hentries]; exact h.keys
  case idle => intro stamp key; rw [hidle, hlook]; exact h.idle stamp key
  case ordered => rw [hidle]; exact h.ordered
  case stamps => simpa only [hlook] using h.stamps
  case clock => simpa only [hlook, hclock] using h.clock
  case sizes => simpa only [hlook] using h.sizes
  case bound => rw [htotal, hentries]; exact h.bound

theorem Consistent.congr (h : c.Consistent) (hentries : d.entries = c.entries)
    (hidle : d.idle = c.idle) (htotal : d.totalBytes = c.totalBytes) (hclock : d.clock = c.clock) :
    d.Consistent :=
  ⟨h.toTidy.congr hentries hidle htotal hclock, by rw [htotal, hentries]; exact h.total⟩

theorem Tidy.remove (h : c.Tidy) (key : CacheKey) : (c.remove key).Tidy := by
  cases he : c.entry? key with
  | none =>
    rw [Cache.remove, he]
    exact h
  | some e =>
    rw [remove_of_some he]
    refine h.forget he rfl ?_ (fun r hr => ?_) rfl rfl
    · dsimp only
      split
      · exact .refl _
      · exact List.filter_sublist
    · obtain ⟨e', he', hu, hs⟩ := h.entry_of_mem_idle hr
      dsimp only
      split
      · next hin =>
        refine ⟨fun _ hk => ?_, fun _ => hr⟩
        rw [hk, he] at he'
        rw [Option.some.inj he', hu] at hin
        cases hin
      · -- Only the record of this key has the stamp of its entry.
        rw [unlist, List.mem_filter, bne_iff_ne, and_iff_right hr, not_iff_not]
        constructor
        · intro hst
          exact h.stamps _ _ _ _ he' he (hs.trans hst)
        · intro hk
          rw [hk, he] at he'
          rw [← hs, Option.some.inj he']

/-- When an entry is forgotten, its bytes are taken off. -/
theorem Consistent.total_without (h : c.Consistent) (he : c.entry? key = some e) :
    (c.totalBytes - e.bytes).val = bytesOf (without key c.entries) := by
  rw [Saturating.val_sub, h.total, bytesOf_without h.keys he, h.sizes _ _ he,
    Nat.add_sub_cancel_left]

theorem Consistent.remove (h : c.Consistent) (key : CacheKey) : (c.remove key).Consistent := by
  refine ⟨h.toTidy.remove key, ?_⟩
  cases he : c.entry? key with
  | none =>
    rw [Cache.remove, he]
    exact h.total
  | some e =>
    rw [remove_of_some he]
    exact h.total_without he

/-- **Handing out** an idle buffer. -/
theorem Tidy.handOut (h : c.Tidy) (he : c.entry? key = some e)
    (hu : e.inUse = false) : (c.handOut key e).Tidy := by
  have hrem := h.remove key
  have hclock : (c.remove key).clock = c.clock := by rw [remove_of_some he]
  have hidle : (c.remove key).idle = unlist e.stamp c.idle := by
    rw [remove_of_some he, hu]
    rfl
  refine hrem.add (e := { e with buffer := none, stamp := c.clock + 1 })
    (by rw [entry_remove, if_pos rfl]) (put_entries_remove c key _).symm (fun r => ?_) ?_
    (fun key' e' he' => ?_) ?_ (Nat.le_refl _) (h.sizes key e he :) ?_
  · rw [hidle]
    exact (or_iff_left fun hr => nomatch hr.1).symm
  · have := hrem.ordered
    rwa [hidle] at this
  · have hlt := hclock ▸ hrem.clock _ _ he'
    exact Nat.ne_of_lt (Nat.lt_succ_of_le hlt)
  · rw [hclock]
    exact Nat.le_succ _
  · rw [remove_of_some he]
    exact Nat.sub_le_iff_le_add.1 (Nat.le_refl _)

theorem Consistent.handOut (h : c.Consistent) (he : c.entry? key = some e)
    (hu : e.inUse = false) : (c.handOut key e).Consistent :=
  ⟨h.toTidy.handOut he hu, h.total.trans (bytesOf_put h.keys he rfl).symm⟩

/-- **Taking back** a buffer that was handed out. -/
theorem Tidy.makeIdle (h : c.Tidy) (he : c.entry? key = some e) (hu : e.inUse = true)
    (k : κ) (b : β k) : (c.makeIdle k key b).Tidy := by
  have hrem := h.remove key
  have hidle : (c.remove key).idle = c.idle := by
    rw [remove_of_some he, hu]
    rfl
  have hstamp : ∀ key' e', Cache.entry? (c.remove key) key' = some e' → e'.stamp ≠ e.stamp := by
    intro key' e' he' hs
    rw [entry_remove] at he'
    split at he'
    · cases he'
    · next hne => exact hne (h.stamps _ _ _ _ he' he hs)
  have hnew : ∀ r ∈ c.idle, r.1 ≠ e.stamp := by
    intro r hr
    obtain ⟨e', he', -, hs⟩ := hrem.entry_of_mem_idle (hidle ▸ hr)
    exact hs ▸ hstamp _ _ he'
  rw [Cache.makeIdle, he]
  refine hrem.add (e := { e with buffer := some ⟨k, b⟩ }) (by rw [entry_remove, if_pos rfl])
    (put_entries_remove c key _).symm (fun r => ?_) (pairwise_enlist hnew h.ordered) hstamp ?_
    (h.clock key e he :) (h.sizes key e he :) ?_
  · rw [hidle]
    refine (mem_enlist hnew r).trans (or_congr_right ?_)
    exact ⟨fun hr => ⟨rfl, hr⟩, fun hr => hr.2⟩
  · rw [remove_of_some he]
  · rw [remove_of_some he]
    exact Nat.sub_le_iff_le_add.1 (Nat.le_refl _)

theorem Consistent.makeIdle (h : c.Consistent) (he : c.entry? key = some e) (hu : e.inUse = true)
    (k : κ) (b : β k) : (c.makeIdle k key b).Consistent := by
  refine ⟨h.toTidy.makeIdle he hu k b, ?_⟩
  rw [Cache.makeIdle, he]
  exact h.total.trans (bytesOf_put h.keys he rfl).symm

/-- A cache when a new buffer has been registered and nothing has been dropped yet. -/
def enter (c : Cache β) (key : CacheKey) (spec : BufferSpec) : Cache β :=
  let c := c.remove key
  { c with
    entries := put key ⟨none, spec, spec.bytes, c.clock + 1⟩ c.entries
    totalBytes := c.totalBytes + spec.bytes
    clock := c.clock + 1 }

theorem register_eq (c : Cache β) (key : CacheKey) (spec : BufferSpec) :
    c.register key spec = (c.enter key spec).evict := rfl

/-- **Registering** a new buffer. -/
theorem Tidy.enter (h : c.Tidy) (key : CacheKey) (spec : BufferSpec) :
    (c.enter key spec).Tidy := by
  have hrem := h.remove key
  have hnone : Cache.entry? (c.remove key) key = none := by rw [entry_remove, if_pos rfl]
  refine hrem.add (e := ⟨none, spec, spec.bytes, (c.remove key).clock + 1⟩) hnone rfl
    (fun r => (or_iff_left fun hr => nomatch hr.1).symm) hrem.ordered (fun key' e' he' => ?_)
    (Nat.le_succ _) (Nat.le_refl _) rfl (Nat.min_le_left _ _)
  exact Nat.ne_of_lt (Nat.lt_succ_of_le (hrem.clock _ _ he'))

/-- If its bytes can be counted, they are. -/
theorem Consistent.enter (h : c.Consistent) {spec : BufferSpec}
    (hroom : (c.enter key spec).Countable) : (c.enter key spec).Consistent := by
  refine ⟨h.toTidy.enter key spec, ?_⟩
  have hnone : Cache.entry? (c.remove key) key = none := by rw [entry_remove, if_pos rfl]
  have hsum : bytesOf (c.enter key spec).entries =
      spec.bytes.val + bytesOf (c.remove key).entries := by
    rw [Cache.enter, put, without_eq_self hnone]
    exact bytesOf_cons ..
  rw [Countable, hsum, ← (h.remove key).total, Nat.add_comm] at hroom
  rw [hsum, ← (h.remove key).total, Nat.add_comm]
  exact Nat.min_eq_left hroom

/-- A step of the eviction loop: the first listed entry is dropped. -/
theorem Tidy.drop {r : Nat × CacheKey} {rest : List (Nat × CacheKey)}
    (h : ({ c with idle := r :: rest } : Cache β).Tidy) :
    ({ c.drop r.2 with idle := rest } : Cache β).Tidy := by
  obtain ⟨e, he, -, hs⟩ := h.entry_of_mem_idle List.mem_cons_self
  have he' : c.entry? r.2 = some e := he
  refine h.forget he ?_ (List.sublist_cons_self r rest) (fun a ha => ?_) ?_ ?_
  · rw [Cache.drop, he']
  · have hlt := (List.pairwise_cons.1 h.ordered).1
    rcases List.mem_cons.1 ha with rfl | ha'
    · exact ⟨fun hm => absurd rfl (Nat.ne_of_lt (hlt a hm)), fun hne => absurd rfl hne⟩
    · refine ⟨fun _ hk => ?_, fun _ => ha'⟩
      obtain ⟨e', he'', -, hs'⟩ := h.entry_of_mem_idle ha
      rw [hk, he] at he''
      have := hlt a ha'
      rw [← hs, ← hs', Option.some.inj he''] at this
      exact Nat.lt_irrefl _ this
  · rw [Cache.drop, he']
  · rw [Cache.drop, he']

theorem Consistent.drop {r : Nat × CacheKey} {rest : List (Nat × CacheKey)}
    (h : ({ c with idle := r :: rest } : Cache β).Consistent) :
    ({ c.drop r.2 with idle := rest } : Cache β).Consistent := by
  refine ⟨h.toTidy.drop, ?_⟩
  obtain ⟨e, he, -⟩ := h.entry_of_mem_idle List.mem_cons_self
  have he' : c.entry? r.2 = some e := he
  rw [Cache.drop, he']
  exact h.total_without he

/-- **What each step of the eviction loop keeps** holds after the loop. -/
theorem evictFrom_inv (P : Cache β → Prop)
    (step : ∀ (c : Cache β) r rest, P { c with idle := r :: rest } →
      P { c.drop r.2 with idle := rest })
    {l : List (Nat × CacheKey)} (h : P { c with idle := l }) : P (evictFrom l c) := by
  induction l generalizing c with
  | nil => exact h
  | cons r rest ih =>
    unfold Cache.evictFrom
    split
    · exact h
    · exact ih (step c r rest h)

/-- **Evicting.** -/
theorem Tidy.evict (h : c.Tidy) : c.evict.Tidy :=
  evictFrom_inv Tidy (fun _ _ _ h => h.drop) h

theorem Consistent.evict (h : c.Consistent) : c.evict.Consistent :=
  evictFrom_inv Consistent (fun _ _ _ h => h.drop) h

/-! ### The budget -/

@[simp] theorem budget_remove (c : Cache β) (key : CacheKey) :
    (c.remove key).budget = c.budget := by
  unfold remove
  split <;> rfl

@[simp] theorem budget_drop (c : Cache β) (key : CacheKey) : (c.drop key).budget = c.budget := by
  unfold drop
  split <;> rfl

theorem budget_evictFrom (l : List (Nat × CacheKey)) (c : Cache β) :
    (evictFrom l c).budget = c.budget := by
  induction l generalizing c with
  | nil => rfl
  | cons r rest ih =>
    unfold evictFrom
    split
    · rfl
    · rw [ih, budget_drop]

@[simp] theorem budget_evict (c : Cache β) : c.evict.budget = c.budget :=
  budget_evictFrom c.idle c

@[simp] theorem budget_makeIdle (c : Cache β) (k : κ) (key : CacheKey) (b : β k) :
    (c.makeIdle k key b).budget = c.budget := by
  unfold makeIdle
  split <;> rfl

/-- The budget is kept, or there is nothing left to drop. -/
def Within (c : Cache β) : Prop := c.totalBytes.val ≤ c.budget ∨ c.idle = []

theorem within_evictFrom (l : List (Nat × CacheKey)) (c : Cache β) : (evictFrom l c).Within := by
  induction l generalizing c with
  | nil => exact .inr rfl
  | cons r rest ih =>
    unfold evictFrom
    split
    · next h => exact .inl h
    · exact ih _

/-- **Evicting keeps the budget**, as far as that is possible. -/
theorem within_evict (c : Cache β) : c.evict.Within := within_evictFrom c.idle c

theorem Within.remove (h : c.Within) (key : CacheKey) : (c.remove key).Within := by
  cases he : c.entry? key with
  | none =>
    rw [Cache.remove, he]
    exact h
  | some e =>
    rw [remove_of_some he]
    refine h.imp (fun hle => Nat.le_trans (Nat.sub_le ..) hle) fun hnil => ?_
    dsimp only
    rw [hnil]
    split <;> rfl

theorem Within.handOut (h : c.Within) (key : CacheKey) (e : CacheEntry β) :
    (c.handOut key e).Within := by
  refine h.imp_right fun hnil => ?_
  rw [Cache.handOut, hnil]
  rfl

end TensorNet.Cache
