/-!
# Sets of factors as numbers

A set of factors is a natural number whose set bits are the members. Here are the two enumerations
that a search over all trees needs: the sets of a given size, and the ways to take a part out of a
set.
-/

namespace TensorNet.Subset

/-- The set of one number. -/
def single (k : Nat) : Nat := 1 <<< k

/-- The sets of `size` numbers out of the `count` numbers from `start` on. Those that have
`start` itself come first. -/
def ofSizeFrom : (count size start : Nat) → List Nat
  | _, 0, _ => [0]
  | 0, _ + 1, _ => []
  | count + 1, size + 1, start =>
    (ofSizeFrom count size (start + 1)).map (single start ||| ·) ++
      ofSizeFrom count (size + 1) (start + 1)

/-- The sets of `size` numbers below `n`. -/
def ofSize (n size : Nat) : List Nat := ofSizeFrom n size 0

/-- The subsets of `s` from `t` down to the empty set, in descending order of the numbers. -/
def downFrom (s t : Nat) : List Nat :=
  if h : t = 0 then [0] else t :: downFrom s ((t - 1) &&& s)
termination_by t
decreasing_by exact Nat.lt_of_le_of_lt Nat.and_le_left (by omega)

/-- The subsets of `s` other than `s`, in descending order; the empty set has none. -/
def proper (s : Nat) : List Nat := if s = 0 then [] else downFrom s ((s - 1) &&& s)

/-- A set without its lowest member. -/
def dropLowest (s : Nat) : Nat := s &&& (s - 1)

/-- The lowest member, as a set. -/
def lowest (s : Nat) : Nat := s ^^^ dropLowest s

/-- The set has exactly one member. -/
def isSingleton (s : Nat) : Bool := s != 0 && dropLowest s == 0

/-- The set of all numbers below `n`. -/
def full (n : Nat) : Nat := (1 <<< n) - 1

/-- The only member of a set with one member. -/
def member (s : Nat) : Nat := s.log2

end TensorNet.Subset
