import TensorNet.Backend.Basic

/-!
# Recorded backends

Any backend can be run with a record of its calls. One call, chosen by its position, can be made
to fail; it is recorded and then refused.
-/

namespace TensorNet

/-- A call to a backend, without the buffers and scalars. -/
inductive Call
  | allocate (dims : List Nat)
  | copy (conj : Bool) (perm : List Nat)
  | trace (conj : Bool) (perm : List Nat) (pairs : List (Nat × Nat))
  | contract (conjA conjB : Bool) (axesA axesB perm : List Nat)
deriving DecidableEq, Repr, Inhabited

namespace Call

/-- The call that carries out an action. -/
def ofAction {ρ : Type} (perm : List Nat) : Action ρ → Call
  | .copy src => copy src.conj perm
  | .trace src pairs => trace src.conj perm pairs
  | .contract a b axesA axesB => contract a.conj b.conj axesA axesB perm

/-- A call in one line. -/
def text : Call → String
  | allocate dims => s!"allocate {listText dims}"
  | copy conj perm => s!"add {conj} {listText perm}"
  | trace conj perm pairs => s!"trace {conj} {listText perm} {pairsText pairs}"
  | contract conjA conjB axesA axesB perm =>
    s!"contract {conjA} {conjB} {listText axesA} {listText axesB} {listText perm}"

end Call

/-- The calls made so far, the latest first, with the position of a call that is to fail. -/
structure CallRecord where
  calls : List Call := []
  failAt : Option Nat := none
deriving DecidableEq, Repr, Inhabited

namespace CallRecord

/-- The calls in the order in which they were made. -/
def inOrder (r : CallRecord) : List Call := r.calls.reverse

/-- The next call is to fail. -/
def isDue (r : CallRecord) : Bool := r.failAt == some r.calls.length

/-- Adds a call. -/
def note (r : CallRecord) (c : Call) : CallRecord := { r with calls := c :: r.calls }

end CallRecord

/-- The failure of a call that is made to fail. -/
def injectedFailure : Error := .backend (.refused "injected failure")

/-- A backend with a record of its calls. -/
def Backend.recorded {σ β α : Type} (b : Backend σ β α) : Backend (CallRecord × σ) β α where
  dims := b.dims
  elementType := b.elementType
  allocate ref dims s :=
    let r := s.1.note (.allocate dims)
    if s.1.isDue then (.error injectedFailure, r, s.2)
    else
      let (x, t) := b.allocate ref dims s.2
      (x, r, t)
  perform alpha beta action perm dst s :=
    let r := s.1.note (.ofAction perm action)
    if s.1.isDue then (⟨dst, some injectedFailure⟩, r, s.2)
    else
      let (w, t) := b.perform alpha beta action perm dst s.2
      (w, r, t)

end TensorNet
