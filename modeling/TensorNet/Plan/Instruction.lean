import TensorNet.Error

/-!
# Instructions

A plan is a list of steps. Each computes a tensor from one or two operands and writes
`destination = β * destination + α * result`. The axes of the destination are the axes of the
result in the order of a permutation: axis `k` of the destination is axis `perm[k]` of the result.
-/

namespace TensorNet

/-- What a step reads or writes. -/
inductive Operand
  /-- The tensor given for a factor. -/
  | input (index : Nat)
  /-- An intermediate result, by the number of its tree node. -/
  | temporary (slot : Nat)
  /-- The tensor that receives the result of the plan. -/
  | destination
deriving DecidableEq, Repr, Inhabited

/-- A scalar of a step. Only the last step of a plan has the caller's `α` and `β`; a temporary is
written with one and zero. -/
inductive Scale
  | one
  | zero
  | callerAlpha
  | callerBeta
deriving DecidableEq, Repr, Inhabited

/-- Something that is read as it is, or conjugated. -/
structure Reading (ρ : Type) where
  operand : ρ
  conj : Bool
deriving DecidableEq, Repr, Inhabited

/-- What a step computes from the operands that it reads. -/
inductive Action (ρ : Type)
  /-- The source itself. -/
  | copy (src : Reading ρ)
  /-- The source summed over each pair of axes. The permutation lists source axes. -/
  | trace (src : Reading ρ) (pairs : List (Nat × Nat))
  /-- The product of two tensors summed over axes `axesA` of the first, paired with axes `axesB`
  of the second. The permutation lists positions among the other axes of the first followed by
  those of the second. -/
  | contract (a b : Reading ρ) (axesA axesB : List Nat)
deriving DecidableEq, Repr, Inhabited

/-- A step of a plan. -/
structure Instruction where
  action : Action Operand
  dst : Operand
  perm : List Nat
  alpha : Scale
  beta : Scale
deriving DecidableEq, Repr, Inhabited

namespace Action

/-- The operands that are read. -/
def operands {ρ : Type} : Action ρ → List ρ
  | copy src => [src.operand]
  | trace src _ => [src.operand]
  | contract a b _ _ => [a.operand, b.operand]

/-- Looks up what each operand stands for; the first that stands for nothing is the failure. -/
def resolve {ρ τ ε : Type} (look : ρ → Except ε τ) : Action ρ → Except ε (Action τ)
  | copy src => do
    return copy ⟨← look src.operand, src.conj⟩
  | trace src pairs => do
    return trace ⟨← look src.operand, src.conj⟩ pairs
  | contract a b axesA axesB => do
    let x ← look a.operand
    let y ← look b.operand
    return contract ⟨x, a.conj⟩ ⟨y, b.conj⟩ axesA axesB

end Action

/-- The operands that a step reads. -/
def Instruction.sources (s : Instruction) : List Operand := s.action.operands

/-- An intermediate result: its slot, its labels, and for each axis an axis of an input that has
the same extent. -/
structure TemporarySpec where
  slot : Nat
  labels : List Label
  extents : List (Nat × Nat)
deriving DecidableEq, Repr, Inhabited

/-! ### Text -/

/-- An operand as plans show it. -/
def Operand.text : Operand → String
  | input i => "Input(" ++ toString i ++ ")"
  | temporary s => "Temporary(" ++ toString s ++ ")"
  | destination => "Destination"

/-- A scalar as plans show it. -/
def Scale.text : Scale → String
  | one => "One"
  | zero => "Zero"
  | callerAlpha => "Alpha"
  | callerBeta => "Beta"

namespace Instruction

/-- The kind of a step. -/
def kindText (s : Instruction) : String :=
  match s.action with
  | .copy _ => "Add"
  | .trace _ _ => "Trace"
  | .contract _ _ _ _ => "Contract"

/-- The fields of a step with their names, in the order in which they are shown. -/
def fields (s : Instruction) : List (String × String) :=
  let last := [("alpha", s.alpha.text), ("beta", s.beta.text)]
  match s.action with
  | .copy src =>
    [("src", src.operand.text), ("conj", toString src.conj), ("dst", s.dst.text),
      ("perm", listText s.perm)] ++ last
  | .trace src pairs =>
    [("src", src.operand.text), ("conj", toString src.conj), ("dst", s.dst.text),
      ("perm", listText s.perm), ("pairs", pairsText pairs)] ++ last
  | .contract a b axesA axesB =>
    [("a", a.operand.text), ("conj_a", toString a.conj), ("b", b.operand.text),
      ("conj_b", toString b.conj), ("dst", s.dst.text), ("cind_a", listText axesA),
      ("cind_b", listText axesB), ("perm", listText s.perm)] ++ last

/-- A step as plans show it: its kind, and all its fields in braces. -/
def text (s : Instruction) : String :=
  s.kindText ++ " \x7b " ++ ", ".intercalate (s.fields.map fun f => f.1 ++ ": " ++ f.2) ++ " \x7d"

end Instruction

end TensorNet
