import Mathlib
import TensorNet.Backend.Recorded
import TensorNet.Proofs.Cache.Used
import TensorNet.Proofs.Execution.Held
import TensorNet.Proofs.Plan.Linear

/-!
# What a run takes and gives back

## 1. Exchanges

A run asks its cache for buffers and gives buffers back. Each time is an exchange. Beside each part
of a run stands here the list of its exchanges, and done one after another they are all that the run
does to its cache.

## 2. The ledger

What was taken is held until it is given back. So at all times what was taken is what is held
together with what was returned, as long as no key is asked for twice: for a second buffer would
take the place of the first. The steps of a plan write each temporary once, so they ask for each key
at most once.

## 3. Failure

A buffer is held from the moment when it was taken, also if the step that writes it fails. All that
is held when the steps have ended, by failure or not, is given back. So whatever fails, a call
returns what it took, and the cache has nothing in use that it had not before.

A backend writes buffers in place. Which buffer one is shows in whatever mark on it the backend does
not change.
-/

namespace TensorNet

/-- What passes between a run and its cache. -/
inductive Exchange {κ : Type} (β : κ → Type) (k : κ)
  /-- A buffer was asked for, and this was the answer. -/
  | asked (key : CacheKey) (spec : BufferSpec) (answer : Except Error (β k))
  /-- A buffer was given back. -/
  | released (key : CacheKey) (buffer : β k)

namespace Exchange

variable {κ : Type} {β : κ → Type} {k : κ} {ι : Type}

def key : Exchange β k → CacheKey
  | asked key _ _ => key
  | released key _ => key

/-- The keys that were asked for. -/
def asks (log : List (Exchange β k)) : List CacheKey :=
  log.filterMap fun
    | asked key _ _ => some key
    | released _ _ => none

/-- The keys that a buffer was got for, with the mark of the buffer. -/
def takings (mark : β k → ι) (log : List (Exchange β k)) : List (CacheKey × ι) :=
  log.filterMap fun
    | asked key _ (.ok b) => some (key, mark b)
    | _ => none

/-- The keys that a buffer was given back under, with the mark of the buffer. -/
def returns (mark : β k → ι) (log : List (Exchange β k)) : List (CacheKey × ι) :=
  log.filterMap fun
    | released key b => some (key, mark b)
    | asked _ _ _ => none

/-- What an exchange does to the cache. -/
def apply [DecidableEq κ] (c : Cache β) : Exchange β k → Cache β
  | asked key spec answer => (c.acquire k key spec (fun c _ => (answer, c, ())) ()).2.1
  | released key b => c.release k key b

/-! ### A log with one more exchange -/

section

variable (mark : β k → ι) (log : List (Exchange β k)) (key : CacheKey) (spec : BufferSpec)

theorem asks_append (log log' : List (Exchange β k)) :
    asks (log ++ log') = asks log ++ asks log' := List.filterMap_append

theorem asks_asked (answer : Except Error (β k)) :
    asks (log ++ [asked key spec answer]) = asks log ++ [key] := List.filterMap_append

theorem asks_released (b : β k) : asks (log ++ [released key b]) = asks log :=
  List.filterMap_append.trans (List.append_nil _)

theorem takings_ok (b : β k) :
    takings mark (log ++ [asked key spec (.ok b)]) = takings mark log ++ [(key, mark b)] :=
  List.filterMap_append

theorem takings_error (e : Error) :
    takings mark (log ++ [asked key spec (.error e)]) = takings mark log :=
  List.filterMap_append.trans (List.append_nil _)

theorem takings_released (b : β k) :
    takings mark (log ++ [released key b]) = takings mark log :=
  List.filterMap_append.trans (List.append_nil _)

theorem returns_asked (answer : Except Error (β k)) :
    returns mark (log ++ [asked key spec answer]) = returns mark log :=
  List.filterMap_append.trans (List.append_nil _)

theorem returns_released (b : β k) :
    returns mark (log ++ [released key b]) = returns mark log ++ [(key, mark b)] :=
  List.filterMap_append

end

/-! ### Exchanges and the cache -/

variable {log : List (Exchange β k)}

theorem takings_sublist (mark : β k → ι) (log : List (Exchange β k)) :
    ((takings mark log).map (·.1)).Sublist (asks log) := by
  induction log with
  | nil => exact .slnil
  | cons a log ih =>
    cases a with
    | asked key spec answer =>
      cases answer with
      | ok b => exact ih.cons_cons key
      | error e => exact ih.cons key
    | released key b => exact ih

/-- An exchange is an ask, or it is a return. -/
theorem key_mem (mark : β k → ι) {a : Exchange β k} (h : a ∈ log) :
    a.key ∈ asks log ∨ a.key ∈ (returns mark log).map (·.1) := by
  cases a with
  | asked key spec answer => exact .inl (List.mem_filterMap.2 ⟨_, h, rfl⟩)
  | released key b => exact .inr (List.mem_map.2 ⟨_, List.mem_filterMap.2 ⟨_, h, rfl⟩, rfl⟩)

variable [DecidableEq κ] {c : Cache β} {settings : CacheConfig} {keys : List CacheKey}

/-- Asking for a buffer is the exchange with the answer that came. -/
theorem apply_asked {σ : Type} (c : Cache β) (key : CacheKey) (spec : BufferSpec)
    (make : σ → Except Error (β k) × σ) (t : σ) :
    apply c (asked key spec (c.acquire k key spec (fun c t => ((make t).1, c, (make t).2)) t).1) =
      (c.acquire k key spec (fun c t => ((make t).1, c, (make t).2)) t).2.1 := by
  show (c.acquire k key spec (fun d _ => (_, d, ())) ()).2.1 = _
  unfold Cache.acquire
  cases c.request k key spec with
  | mk response c' =>
    cases response with
    | bypass => rfl
    | hit b => rfl
    | miss =>
      dsimp only
      cases (make t).1 with
      | ok b => rfl
      | error e => rfl

/-- **Exchanges leave a used cache used**, and they spare the entries of other keys. -/
theorem used_apply (h : Cache.Used settings c) (a : Exchange β k) :
    Cache.Used settings (apply c a) := by
  cases a with
  | asked key spec answer => exact h.acquire (fun _ => (answer, ())) ()
  | released key b => exact h.release k key b

theorem spared_apply (h : c.Tidy) {a : Exchange β k} (ha : a.key ∈ keys) :
    Cache.Spared keys c (apply c a) := by
  cases a with
  | asked key spec answer =>
    have hacq : Cache.Acquired c key spec _ (apply c (asked key spec answer)) :=
      Cache.acquired (fun _ => (answer, ())) ()
    exact hacq.spared h ha
  | released key b => exact .release h ha b

theorem used_foldl (h : Cache.Used settings c) (log : List (Exchange β k)) :
    Cache.Used settings (log.foldl apply c) := by
  induction log generalizing c with
  | nil => exact h
  | cons a log ih => exact ih (used_apply h a)

theorem spared_foldl (h : Cache.Used settings c) (hkeys : ∀ a ∈ log, a.key ∈ keys) :
    Cache.Spared keys c (log.foldl apply c) := by
  induction log generalizing c with
  | nil => exact .refl keys c
  | cons a log ih =>
    rw [List.forall_mem_cons] at hkeys
    exact (spared_apply h.tidy hkeys.1).trans (ih (used_apply h a) hkeys.2)

end Exchange

/-- **A mark that the backend never changes**, because it writes a buffer in place. -/
def Backend.Keeps {σ β α ι : Type} (backend : Backend σ β α) (mark : β → ι) : Prop :=
  ∀ alpha beta action perm dst t, mark (backend.perform alpha beta action perm dst t).1.dst =
    mark dst

theorem Backend.keeps_unit {σ β α : Type} (backend : Backend σ β α) :
    backend.Keeps fun _ => () := fun _ _ _ _ _ _ => rfl

/-- The slot of an operand that is a temporary. -/
def Operand.slot? : Operand → Option Nat
  | temporary slot => some slot
  | _ => none

/-- The slots that steps write, in the order of writing. -/
def writtenSlots (steps : List Instruction) : List Nat := steps.filterMap fun s => s.dst.slot?

theorem writtenSlots_cons (s : Instruction) (ss : List Instruction) :
    writtenSlots (s :: ss) = s.dst.slot?.toList ++ writtenSlots ss := by
  rw [writtenSlots, List.filterMap_cons]
  cases s.dst.slot? <;> rfl

theorem Linear.writtenSlots {net : Network} {steps : List Instruction} {ts : List TemporarySpec}
    (h : Linear net steps ts) : writtenSlots steps = ts.map (·.slot) := by
  have hmap : TensorNet.writtenSlots steps =
      (steps.map Instruction.target).filterMap fun t => t.1.slot? := by
    rw [List.filterMap_map]
    rfl
  rw [hmap, h.writes, List.filterMap_append, List.filterMap_map]
  exact (List.append_nil _).trans (congrFun List.filterMap_eq_map ts)

namespace Execution

variable {κ : Type} {β : κ → Type} {k : κ} {σ α : Type}
variable (x : Execution κ β k σ α)

/-! ### The exchanges of a run -/

/-- The shape of a temporary. -/
def spec (slot : Nat) : BufferSpec :=
  ⟨x.dimsOf (.temporary slot), x.backend.elementType x.model⟩

/-- A buffer is held for a temporary. -/
def withTemporary (r : RunState β k σ) (slot : Nat) (b : β k) (cache : Cache β) (t : σ) :
    RunState β k σ :=
  { r with cache, temps := (slot, b) :: r.temps.filter fun u => u.1 != slot, state := t }

/-- A temporary is given back. -/
def giveBackExchanges (r : RunState β k σ) (slot : Nat) : List (Exchange β k) :=
  match r.temps.lookup slot with
  | none => []
  | some b => [.released (x.key slot) b]

/-- Temporaries are given back, one after another. -/
def giveAllBackExchanges : List Nat → RunState β k σ → List (Exchange β k)
  | [], _ => []
  | slot :: slots, r =>
    x.giveBackExchanges r slot ++ giveAllBackExchanges slots (x.giveBack r slot)

/-- A step is over, and what it read is given back unless it failed. -/
def finishExchanges (s : Instruction) (failure : Option Error) (r : RunState β k σ) :
    List (Exchange β k) :=
  match failure with
  | some _ => []
  | none => x.giveAllBackExchanges (s.sources.filterMap Operand.slot?) r

section

variable [DecidableEq κ] [Zero α] [One α]

/-- A temporary that was got is held while the step goes on. -/
theorem writeTemporary_of_ok {slot : Nat} {r : RunState β k σ} {b : β k} {cache : Cache β} {t : σ}
    (h : x.acquire slot r = (.ok b, cache, t)) (s : Instruction) :
    x.writeTemporary s slot r = x.finishStep s (x.perform s r.temps b t).1.failure
      (withTemporary r slot (x.perform s r.temps b t).1.dst cache (x.perform s r.temps b t).2) := by
  unfold writeTemporary
  rw [h]
  rfl

/-- A buffer is asked for and written. -/
def temporaryExchanges (s : Instruction) (slot : Nat) (r : RunState β k σ) :
    List (Exchange β k) :=
  .asked (x.key slot) (x.spec slot) (x.acquire slot r).1 ::
    match x.acquire slot r with
    | (.error _, _, _) => []
    | (.ok b, cache, t) =>
      let (w, t) := x.perform s r.temps b t
      x.finishExchanges s w.failure (withTemporary r slot w.dst cache t)

def stepExchanges (s : Instruction) (r : RunState β k σ) : List (Exchange β k) :=
  match x.checkExtents s with
  | .error _ => []
  | .ok () =>
    match s.dst with
    | .temporary slot => x.temporaryExchanges s slot r
    | _ =>
      let (w, t) := x.perform s r.temps r.dst r.state
      x.finishExchanges s w.failure { r with dst := w.dst, state := t }

def stepsExchanges : List Instruction → RunState β k σ → List (Exchange β k)
  | [], _ => []
  | s :: rest, r =>
    x.stepExchanges s r ++
      match x.step s r with
      | (some _, _) => []
      | (none, r) => stepsExchanges rest r

/-- **All exchanges of a run.** -/
def exchanges (cache : Cache β) (dst : β k) (t : σ) : List (Exchange β k) :=
  let r := (x.steps x.plan.steps ⟨cache, [], dst, t⟩).2
  x.stepsExchanges x.plan.steps ⟨cache, [], dst, t⟩ ++
    x.giveAllBackExchanges (r.temps.map (·.1)) r

end

theorem foldl_giveBackRead (os : List Operand) (r : RunState β k σ) :
    os.foldl x.giveBackRead r = (os.filterMap Operand.slot?).foldl x.giveBack r := by
  induction os generalizing r with
  | nil => rfl
  | cons o os ih =>
    cases o with
    | temporary slot => exact ih (x.giveBack r slot)
    | input i => exact ih r
    | destination => exact ih r

/-! ### The ledger -/

section

variable [DecidableEq κ] {ι : Type} {x} {c : Cache β} {mark : β k → ι} {log : List (Exchange β k)}
variable {r : RunState β k σ}

/-- What a run holds: the keys with the marks of the buffers. -/
def held (x : Execution κ β k σ α) (mark : β k → ι) (r : RunState β k σ) : List (CacheKey × ι) :=
  r.temps.map fun t => (x.key t.1, mark t.2)

/-- **All exchanges so far are accounted for.** They are all that was done to the cache, and only
keys of temporaries that are held have been checked out by them. If no key was asked for twice, what
was taken is what is held and what was returned. -/
structure Accounted (x : Execution κ β k σ α) (c : Cache β) (mark : β k → ι)
    (log : List (Exchange β k)) (r : RunState β k σ) : Prop where
  cache : log.foldl Exchange.apply c = r.cache
  slots : (r.temps.map (·.1)).Nodup
  out : ∀ key, r.cache.isCheckedOut key = true →
    c.isCheckedOut key = true ∨ ∃ t ∈ r.temps, key = x.key t.1
  ledger : (Exchange.asks log).Nodup →
    (Exchange.takings mark log).Perm (x.held mark r ++ Exchange.returns mark log)

/-- Nothing is held when a run starts. -/
theorem Accounted.start (dst : β k) (t : σ) : Accounted x c mark [] ⟨c, [], dst, t⟩ :=
  ⟨rfl, .nil, fun _ h => .inl h, fun _ => .nil⟩

/-- The destination and the state of the backend do not matter. -/
theorem Accounted.congr (h : Accounted x c mark log r) (dst : β k) (t : σ) :
    Accounted x c mark log { r with dst, state := t } :=
  ⟨h.cache, h.slots, h.out, h.ledger⟩

/-- **A temporary is given back** under its own key. -/
theorem Accounted.giveBack (h : Accounted x c mark log r) (slot : Nat) :
    Accounted x c mark (log ++ x.giveBackExchanges r slot) (x.giveBack r slot) := by
  unfold giveBackExchanges Execution.giveBack
  cases hb : r.temps.lookup slot with
  | none => exact (List.append_nil log).symm ▸ h
  | some b =>
    have hperm := perm_cons_filter_ne h.slots hb
    refine ⟨?_, h.slots.sublist (List.filter_sublist.map _), fun key hout => ?_, fun hn => ?_⟩
    · rw [List.foldl_append, h.cache]
      rfl
    · obtain ⟨hout, hne⟩ := Cache.isCheckedOut_release hout
      refine (h.out key hout).imp_right fun ⟨t, ht, hk⟩ => ⟨t, List.mem_filter.2 ⟨ht, ?_⟩, hk⟩
      exact bne_iff_ne.2 fun hs => hne (hs ▸ hk)
    · rw [Exchange.asks_released] at hn
      rw [Exchange.takings_released, Exchange.returns_released, ← List.append_assoc]
      refine (h.ledger hn).trans (((hperm.map _).append_right _).trans ?_)
      exact (List.perm_append_singleton _ _).symm

theorem Accounted.giveAllBack (h : Accounted x c mark log r) (slots : List Nat) :
    Accounted x c mark (log ++ x.giveAllBackExchanges slots r) (slots.foldl x.giveBack r) := by
  induction slots generalizing log r with
  | nil => exact (List.append_nil log).symm ▸ h
  | cons slot slots ih =>
    rw [giveAllBackExchanges, ← List.append_assoc]
    exact ih (h.giveBack slot)

theorem Accounted.finish (h : Accounted x c mark log r) (s : Instruction)
    (failure : Option Error) :
    Accounted x c mark (log ++ x.finishExchanges s failure r) (x.finishStep s failure r).2 := by
  cases failure with
  | some e => exact (List.append_nil log).symm ▸ h
  | none =>
    show Accounted x c mark _ (s.sources.foldl x.giveBackRead r)
    rw [foldl_giveBackRead]
    exact h.giveAllBack _

/-! ### Steps -/

/-- A temporary is got in one of the ways of getting a buffer, and by the exchange with the answer
that came. -/
theorem acquired_acquire (x : Execution κ β k σ α) (slot : Nat) (r : RunState β k σ) :
    Cache.Acquired r.cache (x.key slot) (x.spec slot) (x.acquire slot r).1
        (x.acquire slot r).2.1 ∧
      Exchange.apply r.cache (.asked (x.key slot) (x.spec slot) (x.acquire slot r).1) =
        (x.acquire slot r).2.1 :=
  ⟨Cache.acquired (x.backend.allocate x.model (x.dimsOf (.temporary slot))) r.state,
    Exchange.apply_asked r.cache (x.key slot) (x.spec slot)
      (x.backend.allocate x.model (x.dimsOf (.temporary slot))) r.state⟩

section

variable {slot : Nat} {cache : Cache β} {t : σ}

/-- **No buffer could be had.** -/
theorem Accounted.failed (h : Accounted x c mark log r) {e : Error}
    (hacq : x.acquire slot r = (.error e, cache, t)) :
    Accounted x c mark (log ++ [.asked (x.key slot) (x.spec slot) (.error e)])
      { r with cache, state := t } := by
  obtain ⟨hcases, happly⟩ := x.acquired_acquire slot r
  rw [hacq] at hcases happly
  refine ⟨?_, h.slots, fun key hout => ?_, fun hn => ?_⟩
  · rw [List.foldl_append, h.cache]
    exact happly
  · rcases hcases.isCheckedOut hout with hout | ⟨-, b, hb⟩
    · exact h.out key hout
    · cases hb
  · rw [Exchange.asks_asked] at hn
    rw [Exchange.takings_error, Exchange.returns_asked]
    exact h.ledger (List.nodup_append.1 hn).1

/-- **A buffer was had, and it is held** with the mark that it had when it came. If its key was not
asked for before, no buffer was held for it. -/
theorem Accounted.hold (h : Accounted x c mark log r) {b b' : β k}
    (hacq : x.acquire slot r = (.ok b, cache, t)) (hb : mark b' = mark b) (t' : σ) :
    Accounted x c mark (log ++ [.asked (x.key slot) (x.spec slot) (.ok b)])
      (withTemporary r slot b' cache t') := by
  obtain ⟨hcases, happly⟩ := x.acquired_acquire slot r
  rw [hacq] at hcases happly
  have hfilter : ∀ t ∈ r.temps, t.1 ≠ slot → t ∈ r.temps.filter fun u => u.1 != slot :=
    fun t ht hne => List.mem_filter.2 ⟨ht, bne_iff_ne.2 hne⟩
  refine ⟨?_, ?_, fun key hout => ?_, fun hn => ?_⟩
  · rw [List.foldl_append, h.cache]
    exact happly
  · refine List.nodup_cons.2 ⟨fun hm => ?_, h.slots.sublist (List.filter_sublist.map _)⟩
    obtain ⟨u, hu, hs⟩ := List.mem_map.1 hm
    exact bne_iff_ne.1 (List.mem_filter.1 hu).2 hs
  · have hnew : ∀ key, key = x.key slot →
        ∃ t ∈ (withTemporary r slot b' cache t').temps, key = x.key t.1 :=
      fun key hk => ⟨(slot, b'), List.mem_cons_self, hk⟩
    rcases hcases.isCheckedOut hout with hout | ⟨hk, -⟩
    · refine (h.out key hout).imp_right fun ⟨u, hu, hk⟩ => ?_
      by_cases hs : u.1 = slot
      · exact hnew key (hs ▸ hk)
      · exact ⟨u, List.mem_cons_of_mem _ (hfilter u hu hs), hk⟩
    · exact .inr (hnew key hk)
  · rw [Exchange.asks_asked] at hn
    obtain ⟨hlog, -, hfresh⟩ := List.nodup_append.1 hn
    have hperm := h.ledger hlog
    have hother : ∀ u ∈ r.temps, u.1 ≠ slot := fun u hu hs => by
      have hheld : (x.key u.1, mark u.2) ∈ x.held mark r := List.mem_map_of_mem hu
      have hasked := (Exchange.takings_sublist mark log).subset
        (List.mem_map_of_mem (hperm.mem_iff.2 (List.mem_append_left _ hheld)))
      exact hfresh _ hasked _ (List.mem_singleton_self _) (congrArg x.key hs)
    have hself : (r.temps.filter fun u => u.1 != slot) = r.temps :=
      List.filter_eq_self.2 fun u hu => bne_iff_ne.2 (hother u hu)
    have hheld : x.held mark (withTemporary r slot b' cache t') =
        (x.key slot, mark b) :: x.held mark r := by
      rw [held, withTemporary, hself, ← hb]
      rfl
    rw [Exchange.takings_ok, Exchange.returns_asked, hheld]
    exact (List.perm_append_singleton _ _).trans (hperm.cons _)

end

variable [Zero α] [One α]

omit [DecidableEq κ] in
/-- The buffer that a step writes keeps its mark, also when the step fails. -/
theorem mark_perform (hmark : x.backend.Keeps mark) (s : Instruction) (temps : List (Nat × β k))
    (dst : β k) (t : σ) : mark (x.perform s temps dst t).1.dst = mark dst := by
  unfold perform
  split
  · rfl
  · exact hmark ..

variable (hmark : x.backend.Keeps mark)
include hmark

theorem Accounted.writeTemporary (h : Accounted x c mark log r) (s : Instruction) (slot : Nat) :
    Accounted x c mark (log ++ x.temporaryExchanges s slot r) (x.writeTemporary s slot r).2 := by
  unfold temporaryExchanges Execution.writeTemporary
  rcases hacq : x.acquire slot r with ⟨answer, cache, t⟩
  cases answer with
  | error e => exact h.failed hacq
  | ok b =>
    rw [List.append_cons]
    exact (h.hold hacq (mark_perform hmark s r.temps b t) _).finish s _

/-- **A step is accounted for**, however it ends. -/
theorem Accounted.step (h : Accounted x c mark log r) (s : Instruction) :
    Accounted x c mark (log ++ x.stepExchanges s r) (x.step s r).2 := by
  unfold stepExchanges Execution.step
  cases x.checkExtents s with
  | error e => exact (List.append_nil log).symm ▸ h
  | ok u =>
    cases s.dst with
    | temporary slot => exact h.writeTemporary hmark s slot
    | input i => exact (h.congr _ _).finish s _
    | destination => exact (h.congr _ _).finish s _

theorem Accounted.steps (h : Accounted x c mark log r) (ss : List Instruction) :
    Accounted x c mark (log ++ x.stepsExchanges ss r) (x.steps ss r).2 := by
  induction ss generalizing log r with
  | nil => exact (List.append_nil log).symm ▸ h
  | cons s ss ih =>
    have hs := h.step hmark s
    unfold stepsExchanges Execution.steps
    rw [← List.append_assoc]
    rcases hstep : x.step s r with ⟨failure, r'⟩
    rw [hstep] at hs
    cases failure with
    | some e => exact (List.append_nil _).symm ▸ hs
    | none => exact ih hs

/-- **A run is accounted for, and in the end it holds nothing.** -/
theorem accounted_run (dst : β k) (t : σ) :
    ∃ r, Accounted x c mark (x.exchanges c dst t) r ∧ r.temps = [] ∧
      r.cache = (x.run c dst t).2.1 := by
  have hsteps : Accounted x c mark _ _ := (Accounted.start dst t).steps hmark x.plan.steps
  exact ⟨_, hsteps.giveAllBack _, x.temps_giveAllBack _, rfl⟩

/-- **What a run took is what it gave back**, if it asked for no key twice. -/
theorem perm_returns_run {dst : β k} {t : σ} (honce : (Exchange.asks (x.exchanges c dst t)).Nodup) :
    (Exchange.takings mark (x.exchanges c dst t)).Perm
      (Exchange.returns mark (x.exchanges c dst t)) := by
  obtain ⟨r, hacc, htemps, -⟩ := accounted_run (c := c) hmark dst t
  have hperm := hacc.ledger honce
  rwa [held, htemps] at hperm

omit hmark in
/-- **The exchanges are all that a run does to its cache**, and nothing is checked out after it that
was not before. -/
theorem settled_run (c : Cache β) (dst : β k) (t : σ) :
    (x.exchanges c dst t).foldl Exchange.apply c = (x.run c dst t).2.1 ∧
      ∀ key, (x.run c dst t).2.1.isCheckedOut key = true → c.isCheckedOut key = true := by
  obtain ⟨r, hacc, htemps, hr⟩ := accounted_run (c := c) x.backend.keeps_unit dst t
  refine ⟨hacc.cache.trans hr, fun key hout => ?_⟩
  refine (hacc.out key (hr.symm ▸ hout)).resolve_right fun ⟨u, hu, _⟩ => ?_
  rw [htemps] at hu
  cases hu

end

/-! ### What is asked for -/

section

variable {x}

theorem asks_giveAllBack (slots : List Nat) (r : RunState β k σ) :
    Exchange.asks (x.giveAllBackExchanges slots r) = [] := by
  induction slots generalizing r with
  | nil => rfl
  | cons slot slots ih =>
    rw [giveAllBackExchanges, Exchange.asks_append, ih, List.append_nil, giveBackExchanges]
    split <;> rfl

theorem asks_finish (s : Instruction) (failure : Option Error) (r : RunState β k σ) :
    Exchange.asks (x.finishExchanges s failure r) = [] := by
  cases failure with
  | some e => rfl
  | none => exact asks_giveAllBack _ r

variable [DecidableEq κ] [Zero α] [One α]

/-- A step asks at most for the temporary that it writes. -/
theorem asks_step (s : Instruction) (r : RunState β k σ) :
    (Exchange.asks (x.stepExchanges s r)).Sublist (s.dst.slot?.toList.map x.key) := by
  unfold stepExchanges
  cases x.checkExtents s with
  | error e => exact List.nil_sublist _
  | ok u =>
    cases s.dst with
    | input i => exact (asks_finish s _ _).symm ▸ List.nil_sublist _
    | destination => exact (asks_finish s _ _).symm ▸ List.nil_sublist _
    | temporary slot =>
      refine List.Sublist.cons_cons (x.key slot) (List.sublist_nil.2 ?_)
      rcases x.acquire slot r with ⟨answer, cache, t⟩
      cases answer with
      | error e => rfl
      | ok b => exact asks_finish s _ _

theorem asks_steps (ss : List Instruction) (r : RunState β k σ) :
    (Exchange.asks (x.stepsExchanges ss r)).Sublist ((writtenSlots ss).map x.key) := by
  induction ss generalizing r with
  | nil => exact .slnil
  | cons s ss ih =>
    rw [stepsExchanges, Exchange.asks_append, writtenSlots_cons, List.map_append]
    refine (asks_step s r).append ?_
    rcases x.step s r with ⟨failure, r'⟩
    cases failure with
    | some e => exact List.nil_sublist _
    | none => exact ih r'

theorem asks_run (c : Cache β) (dst : β k) (t : σ) :
    (Exchange.asks (x.exchanges c dst t)).Sublist ((writtenSlots x.plan.steps).map x.key) := by
  rw [exchanges, Exchange.asks_append, asks_giveAllBack, List.append_nil]
  exact asks_steps x.plan.steps _

end

end Execution

/-! ### Calls -/

/-- The keys of the temporaries of a plan. -/
def Plan.keys (p : Plan) (context : ExecutionContext) : List CacheKey :=
  p.temporaries.map fun t => ⟨p.id, t.slot, context⟩

section

variable {κ : Type} {β : κ → Type} [DecidableEq κ] {k : κ} {σ α : Type}
variable {settings : CacheConfig} {c d : Cache β} {log : List (Exchange β k)}

/-- **A call gives back what it takes, and it spares what is not its own.** -/
structure GivesBack (keys : List CacheKey) (backend : Backend σ (β k) α) (c : Cache β)
    (log : List (Exchange β k)) (d : Cache β) : Prop where
  /-- The exchanges are all that was done to the cache. -/
  cache : log.foldl Exchange.apply c = d
  /-- No key of the plan is checked out. -/
  free : ∀ key ∈ keys, d.isCheckedOut key = false
  own : ∀ a ∈ log, a.key ∈ keys
  /-- No key is asked for twice. -/
  once : (Exchange.asks log).Nodup
  /-- What was taken is what was given back, under the same keys. -/
  returned : ∀ {ι : Type} (mark : β k → ι), backend.Keeps mark →
    (Exchange.takings mark log).Perm (Exchange.returns mark log)
  spared : Cache.Spared keys c d

variable [Zero α] [One α]

theorem Execution.givesBack_run {x : Execution κ β k σ α} {net : Network}
    (hlin : Linear net x.plan.steps x.plan.temporaries) (hc : Cache.Used settings c)
    (hfree : ∀ key ∈ x.plan.keys x.context, c.isCheckedOut key = false) (dst : β k) (t : σ) :
    GivesBack (x.plan.keys x.context) x.backend c (x.exchanges c dst t) (x.run c dst t).2.1 := by
  have hslots : (writtenSlots x.plan.steps).map x.key = x.plan.keys x.context := by
    rw [hlin.writtenSlots, List.map_map]
    rfl
  have hnodup : (x.plan.keys x.context).Nodup := by
    rw [← hslots, hlin.writtenSlots]
    exact hlin.slots.map fun _ _ => x.key_inj
  have hasks := hslots ▸ asks_run (x := x) c dst t
  have honce := hnodup.sublist hasks
  have hown : ∀ a ∈ x.exchanges c dst t, a.key ∈ x.plan.keys x.context := by
    intro a ha
    rcases Exchange.key_mem (fun _ => ()) ha with hk | hk
    · exact hasks.subset hk
    · have hreturned := perm_returns_run x.backend.keeps_unit honce
      have hk := (hreturned.map (·.1)).mem_iff.2 hk
      exact hasks.subset ((Exchange.takings_sublist _ _).subset hk)
  obtain ⟨hcache, hout⟩ := settled_run (x := x) c dst t
  exact {
    cache := hcache
    free := fun key hk => Bool.eq_false_iff.2 fun h =>
      Bool.eq_false_iff.1 (hfree key hk) (hout key h)
    own := hown
    once := honce
    returned := fun mark hmark => perm_returns_run hmark honce
    spared := hcache ▸ Exchange.spared_foldl hc hown }

namespace Plan

/-- The exchanges of a call that writes into a destination. -/
def exchangesInto (p : Plan) (backend : Backend σ (β k) α) (context : ExecutionContext)
    (inputs : List (β k)) (alpha beta : α) (cache : Cache β) (dst : β k) (t : σ) :
    List (Exchange β k) :=
  let inputDims := inputs.map backend.dims
  let dstDims := backend.dims dst
  match p.checkDestination inputDims dstDims, inputs with
  | .error _, _ => []
  | .ok (), [] => []
  | .ok (), model :: _ =>
    Execution.exchanges ⟨backend, p, context, inputs, model, inputDims, dstDims, alpha, beta⟩
      cache dst t

/-- The exchanges of a call that returns a new buffer. The new buffer is not from the cache. -/
def exchanges (p : Plan) (backend : Backend σ (β k) α) (context : ExecutionContext)
    (inputs : List (β k)) (alpha : α) (cache : Cache β) (t : σ) : List (Exchange β k) :=
  let inputDims := inputs.map backend.dims
  match p.outputDims inputDims, inputs with
  | .error _, _ => []
  | .ok _, [] => []
  | .ok dims, model :: _ =>
    match backend.allocate model dims t with
    | (.error _, _) => []
    | (.ok dst, t) =>
      Execution.exchanges
        ⟨backend, p, context, inputs, model, inputDims, backend.dims dst, alpha, 0⟩ cache dst t

variable {p : Plan} {backend : Backend σ (β k) α} {context : ExecutionContext}
variable (p backend context) (inputs : List (β k)) (alpha beta : α)

/-- **What a call does with a cache**: nothing if it is refused, and what its run does otherwise. -/
inductive Uses (c : Cache β) : List (Exchange β k) → Cache β → Prop
  | refused : Uses c [] c
  | run (inputs : List (β k)) (model : β k) (inputDims : List (List Nat)) (dstDims : List Nat)
      (alpha beta : α) (dst : β k) (t : σ) :
      Uses c
        (Execution.exchanges ⟨backend, p, context, inputs, model, inputDims, dstDims, alpha, beta⟩
          c dst t)
        (Execution.run ⟨backend, p, context, inputs, model, inputDims, dstDims, alpha, beta⟩
          c dst t).2.1

theorem uses_executeInto (c : Cache β) (dst : β k) (t : σ) :
    p.Uses backend context c (p.exchangesInto backend context inputs alpha beta c dst t)
      (p.executeInto backend context inputs alpha beta c dst t).2.1 := by
  unfold exchangesInto executeInto
  dsimp only
  rcases p.checkDestination (inputs.map backend.dims) (backend.dims dst) with e | ⟨⟩
  · exact Uses.refused
  · cases inputs with
    | nil => exact Uses.refused
    | cons model rest => exact Uses.run ..

theorem uses_execute (c : Cache β) (t : σ) :
    p.Uses backend context c (p.exchanges backend context inputs alpha c t)
      (p.execute backend context inputs alpha c t).2.1 := by
  unfold exchanges execute
  dsimp only
  rcases p.outputDims (inputs.map backend.dims) with e | dims
  · exact Uses.refused
  · cases inputs with
    | nil => exact Uses.refused
    | cons model rest =>
      dsimp only
      rcases backend.allocate model dims t with ⟨e | dst, t'⟩
      · exact Uses.refused
      · dsimp only
        have hrun : p.Uses backend context c _ _ := Uses.run (model :: rest) model
          ((model :: rest).map backend.dims) (backend.dims dst) alpha 0 dst t'
        split
        · next heq => rwa [heq] at hrun
        · next heq => rwa [heq] at hrun

variable {p backend context}

theorem Uses.givesBack (h : p.Uses backend context c log d) {net : Network}
    (hlin : Linear net p.steps p.temporaries) (hc : Cache.Used settings c)
    (hfree : ∀ key ∈ p.keys context, c.isCheckedOut key = false) :
    GivesBack (p.keys context) backend c log d := by
  cases h with
  | refused => exact ⟨rfl, hfree, nofun, .nil, fun _ _ => .nil, .refl _ c⟩
  | run inputs model inputDims dstDims alpha beta dst t =>
    exact Execution.givesBack_run
      (x := ⟨backend, p, context, inputs, model, inputDims, dstDims, alpha, beta⟩)
      hlin hc hfree dst t

/-- A call of any plan leaves a used cache used, and nothing in use that was not before. -/
theorem Uses.used (h : p.Uses backend context c log d) (hc : Cache.Used settings c) :
    Cache.Used settings d ∧ ∀ key, d.isCheckedOut key = true → c.isCheckedOut key = true := by
  cases h with
  | refused => exact ⟨hc, fun _ hout => hout⟩
  | run inputs model inputDims dstDims alpha beta dst t =>
    obtain ⟨hcache, hout⟩ := Execution.settled_run
      (x := ⟨backend, p, context, inputs, model, inputDims, dstDims, alpha, beta⟩) c dst t
    exact ⟨hcache ▸ Exchange.used_foldl hc _, hout⟩

end Plan

end

/-! ### Any sequence of calls -/

/-- **Calls lead from an empty cache to a cache**, one after another. Between them the cache may be
cleared, told to evict, and switched on or off. -/
inductive Cache.Served {κ : Type} {β : κ → Type} [DecidableEq κ] (settings : CacheConfig) :
    Cache β → Prop
  | start : Served settings (.ofConfig settings)
  | execute {c : Cache β} (h : Served settings c) {k : κ} {σ α : Type} [Zero α] [One α] (p : Plan)
      (backend : Backend σ (β k) α) (context : ExecutionContext) (inputs : List (β k)) (alpha : α)
      (t : σ) : Served settings (p.execute backend context inputs alpha c t).2.1
  | executeInto {c : Cache β} (h : Served settings c) {k : κ} {σ α : Type} [Zero α] [One α]
      (p : Plan) (backend : Backend σ (β k) α) (context : ExecutionContext) (inputs : List (β k))
      (alpha beta : α) (dst : β k) (t : σ) :
      Served settings (p.executeInto backend context inputs alpha beta c dst t).2.1
  | clear {c : Cache β} (h : Served settings c) : Served settings c.clear
  | evict {c : Cache β} (h : Served settings c) : Served settings c.evict
  | setEnabled {c : Cache β} (h : Served settings c) (on : Bool) : Served settings (c.setEnabled on)

section

variable {κ : Type} {β : κ → Type} [DecidableEq κ] {settings : CacheConfig} {c d : Cache β}

/-- **Between calls nothing is checked out.** -/
theorem Cache.Served.used (h : d.Served settings) :
    d.Used settings ∧ ∀ key, d.isCheckedOut key = false := by
  have keep : ∀ {c d : Cache β}, (∀ key, c.isCheckedOut key = false) →
      (∀ key, d.isCheckedOut key = true → c.isCheckedOut key = true) →
      ∀ key, d.isCheckedOut key = false := fun hc hd key =>
    Bool.eq_false_iff.2 fun hout => Bool.eq_false_iff.1 (hc key) (hd key hout)
  induction h with
  | start => exact ⟨.start, fun _ => rfl⟩
  | execute _ p backend context inputs alpha t ih =>
    obtain ⟨hused, hout⟩ := (p.uses_execute backend context inputs alpha _ t).used ih.1
    exact ⟨hused, keep ih.2 hout⟩
  | executeInto _ p backend context inputs alpha beta dst t ih =>
    obtain ⟨hused, hout⟩ := (p.uses_executeInto backend context inputs alpha beta _ dst t).used ih.1
    exact ⟨hused, keep ih.2 hout⟩
  | clear _ ih => exact ⟨ih.1.clear, fun _ => rfl⟩
  | evict _ ih => exact ⟨ih.1.evict, keep ih.2 fun _ => (below_evict _).isCheckedOut⟩
  | setEnabled _ on ih => exact ⟨ih.1.setEnabled on, ih.2⟩

/-- **Between calls no entry is in use, and the budget is kept.** -/
theorem Cache.Served.idle (h : d.Served settings) :
    (∀ e ∈ d.entries, e.2.inUse = false) ∧ d.totalBytes.val ≤ settings.budget.resolve := by
  obtain ⟨hused, hfree⟩ := h.used
  refine ⟨fun e he => Bool.eq_false_iff.2 fun hu => ?_, hused.total_le hfree⟩
  have hlook := hused.tidy.mem_entries.1 he
  exact Bool.eq_false_iff.1 (hfree e.1) (isCheckedOut_iff.2 ⟨e.2, hlook, hu⟩)

namespace Plan

end Plan

end

end TensorNet
