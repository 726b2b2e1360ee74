import TensorNet.Cache.Config
import TensorNet.Error

/-!
# The cache of temporaries

## 1. Entries

The cache keeps buffers for later use under the identity of the temporary that they hold. A
buffer that is asked for is handed out: it leaves the cache, and its entry stays and is in use
until the buffer comes back. An entry that has its buffer is idle.

## 2. Order of use

Every time an entry is handed out it gets the next stamp of a clock. Idle entries are listed by
their stamps, and when the entries need more bytes than the budget allows, idle ones are dropped
from the front of that list: those that were handed out longest ago. Entries in use stay.

## 3. Kinds of buffers

Buffers may be of several types, one for each kind. A buffer is reused only for its own kind.
-/

namespace TensorNet

/-- What a cache knows about one temporary. -/
structure CacheEntry {κ : Type} (β : κ → Type) where
  /-- The buffer with its kind, unless it is handed out. -/
  buffer : Option ((k : κ) × β k)
  spec : BufferSpec
  bytes : Bytes
  /-- The clock when the entry was last handed out. -/
  stamp : Nat

/-- The buffer is handed out. -/
def CacheEntry.inUse {κ : Type} {β : κ → Type} (e : CacheEntry β) : Bool := e.buffer.isNone

/-- How often a cache had what it was asked for. -/
structure CacheStats where
  hits : Nat := 0
  misses : Nat := 0
  evictions : Nat := 0
deriving DecidableEq, Repr, Inhabited

/-- The share of the requests that the cache could serve. -/
def CacheStats.hitRate (s : CacheStats) : Float :=
  let total := s.hits + s.misses
  if total = 0 then 0.0 else s.hits.toUInt64.toFloat / total.toUInt64.toFloat

/-- A cache of buffers of several kinds. -/
structure Cache {κ : Type} (β : κ → Type) where
  /-- The bytes from which on idle entries are dropped. -/
  budget : Nat
  enabled : Bool := true
  entries : List (CacheKey × CacheEntry β) := []
  /-- The idle entries by stamp, the oldest first. -/
  idle : List (Nat × CacheKey) := []
  /-- The bytes of all entries, idle or in use. -/
  totalBytes : Bytes := 0
  clock : Nat := 0
  stats : CacheStats := {}

namespace Cache

variable {κ : Type} {β : κ → Type}

/-! ### Making a cache -/

/-- An empty cache with the given settings. -/
def ofConfig (config : CacheConfig) : Cache β :=
  { budget := config.budget.resolve, enabled := config.enabled }

/-- An empty cache with a budget in bytes. -/
def withBudget (bytes : Nat) : Cache β := ofConfig { budget := .bytes bytes }

/-- A cache that never keeps anything. -/
def disabled : Cache β := ofConfig { enabled := false }

instance : Inhabited (Cache β) := ⟨ofConfig {}⟩

/-! ### Entries -/

/-- The entry of a key. -/
def entry? (c : Cache β) (key : CacheKey) : Option (CacheEntry β) := c.entries.lookup key

/-- The number of entries. -/
def size (c : Cache β) : Nat := c.entries.length

/-- There are no entries. -/
def isEmpty (c : Cache β) : Bool := c.entries.isEmpty

/-- A key has an entry whose buffer is handed out. -/
def isCheckedOut (c : Cache β) (key : CacheKey) : Bool := (c.entry? key).any (·.inUse)

/-- All entries but that of a key. -/
def without (key : CacheKey) (es : List (CacheKey × CacheEntry β)) :
    List (CacheKey × CacheEntry β) :=
  es.filter fun e => e.1 != key

/-- The entries with that of a key replaced or added. -/
def put (key : CacheKey) (e : CacheEntry β) (es : List (CacheKey × CacheEntry β)) :
    List (CacheKey × CacheEntry β) :=
  (key, e) :: without key es

/-- Takes a stamp off the list of idle entries. -/
def unlist (stamp : Nat) (l : List (Nat × CacheKey)) : List (Nat × CacheKey) :=
  l.filter fun r => r.1 != stamp

/-- Puts an entry on the list of idle ones, by its stamp. -/
def enlist (stamp : Nat) (key : CacheKey) : List (Nat × CacheKey) → List (Nat × CacheKey)
  | [] => [(stamp, key)]
  | r :: rest =>
    if stamp < r.1 then (stamp, key) :: r :: rest
    else if stamp = r.1 then (stamp, key) :: rest
    else r :: enlist stamp key rest

/-- Forgets the entry of a key, idle or in use. -/
def remove (c : Cache β) (key : CacheKey) : Cache β :=
  match c.entry? key with
  | none => c
  | some e =>
    { c with
      entries := without key c.entries
      idle := if e.inUse then c.idle else unlist e.stamp c.idle
      totalBytes := c.totalBytes - e.bytes }

/-! ### Eviction -/

/-- Drops the entry of a key that has come off the list of idle ones. -/
def drop (c : Cache β) (key : CacheKey) : Cache β :=
  match c.entry? key with
  | none => c
  | some e =>
    { c with
      entries := without key c.entries
      totalBytes := c.totalBytes - e.bytes
      stats := { c.stats with evictions := c.stats.evictions + 1 } }

/-- Drops listed entries from the front until the budget is kept. -/
def evictFrom : List (Nat × CacheKey) → Cache β → Cache β
  | [], c => { c with idle := [] }
  | r :: rest, c =>
    if c.totalBytes.val ≤ c.budget then { c with idle := r :: rest }
    else evictFrom rest (c.drop r.2)

/-- Drops idle entries, those handed out longest ago first, until the budget is kept. -/
def evict (c : Cache β) : Cache β := evictFrom c.idle c

/-! ### Asking for a buffer -/

/-- What the cache has for a request. -/
inductive Response (β : Type)
  /-- The cache is disabled and takes no part. -/
  | bypass
  /-- A buffer of the right shape and kind. -/
  | hit (buffer : β)
  /-- Nothing; a new buffer has to be made. -/
  | miss

section

variable [DecidableEq κ]

/-- A buffer of a given kind, if this is one. -/
def ofKind? (k : κ) (b : (k : κ) × β k) : Option (β k) :=
  if h : b.1 = k then some (h ▸ b.2) else none

/-- The buffer of an idle entry that fits a request. -/
def fitting? (e : CacheEntry β) (k : κ) (spec : BufferSpec) : Option (β k) :=
  if e.spec = spec then e.buffer.bind (ofKind? k) else none

/-- Hands out the buffer of an entry: the entry is in use from now on, under a new stamp. -/
def handOut (c : Cache β) (key : CacheKey) (e : CacheEntry β) : Cache β :=
  { c with
    entries := put key { e with buffer := none, stamp := c.clock + 1 } c.entries
    idle := unlist e.stamp c.idle
    clock := c.clock + 1
    stats := { c.stats with hits := c.stats.hits + 1 } }

/-- Counts a request that could not be served. -/
def countMiss (c : Cache β) : Cache β :=
  { c with stats := { c.stats with misses := c.stats.misses + 1 } }

/-- Looks for a buffer. An entry that does not fit, or whose buffer is handed out, is forgotten. -/
def request (c : Cache β) (k : κ) (key : CacheKey) (spec : BufferSpec) :
    Response (β k) × Cache β :=
  if !c.enabled then (.bypass, c)
  else
    match c.entry? key with
    | none => (.miss, c.countMiss)
    | some e =>
      match fitting? e k spec with
      | some b => (.hit b, c.handOut key e)
      | none => (.miss, (c.remove key).countMiss)

end

/-- Registers a new buffer, which is handed out at once. An entry made under the key in the
meantime is forgotten. -/
def register (c : Cache β) (key : CacheKey) (spec : BufferSpec) : Cache β :=
  let c := c.remove key
  evict
    { c with
      entries := put key ⟨none, spec, spec.bytes, c.clock + 1⟩ c.entries
      totalBytes := c.totalBytes + spec.bytes
      clock := c.clock + 1 }

/-- **Gets a buffer**: an idle one of the same shape and kind if the cache has it, and a new one
otherwise. A new buffer is registered when it has been made; making it may itself use the cache. -/
def acquire [DecidableEq κ] {σ : Type} (k : κ) (key : CacheKey) (spec : BufferSpec)
    (allocate : Cache β → σ → Except Error (β k) × Cache β × σ) (c : Cache β) (s : σ) :
    Except Error (β k) × Cache β × σ :=
  match c.request k key spec with
  | (.bypass, c) => allocate c s
  | (.hit b, c) => (.ok b, c, s)
  | (.miss, c) =>
    match allocate c s with
    | (.ok b, c, s) => (.ok b, c.register key spec, s)
    | (.error e, c, s) => (.error e, c, s)

/-! ### Giving a buffer back -/

/-- Makes the entry of a key idle again, under the stamp that it has. -/
def makeIdle (c : Cache β) (k : κ) (key : CacheKey) (b : β k) : Cache β :=
  match c.entry? key with
  | none => c
  | some e =>
    { c with
      entries := put key { e with buffer := some ⟨k, b⟩ } c.entries
      idle := enlist e.stamp key c.idle }

/-- **Gives a buffer back.** It is kept if the cache is enabled and has an entry in use under the
key, and is dropped otherwise. A disabled cache forgets the entry. -/
def release (c : Cache β) (k : κ) (key : CacheKey) (b : β k) : Cache β :=
  if !c.isCheckedOut key then c
  else if !c.enabled then c.remove key
  else (c.makeIdle k key b).evict

/-! ### Other operations -/

/-- Forgets all entries. Buffers that are handed out are dropped when they come back. -/
def clear (c : Cache β) : Cache β := { c with entries := [], idle := [], totalBytes := 0 }

/-- Switches the cache on or off. Idle entries stay. -/
def setEnabled (c : Cache β) (on : Bool) : Cache β := { c with enabled := on }

end Cache

end TensorNet
