/-!
# Index labels

A label names an axis of a tensor. Integer labels carry a sign convention (negative for axes that
survive, positive for axes that are summed); names are opaque. The integer `1` and the name `1`
are different labels.
-/

namespace TensorNet

/-- The label of an axis: a 64-bit integer or a name. -/
inductive Label
  | int (value : Int64)
  | name (text : String)
deriving DecidableEq, Repr, Inhabited

namespace Label

/-- The integer of an integer label. -/
def asInt : Label → Option Int
  | int v => some v.toInt
  | name _ => none

/-- A label as it is read in texts: the decimal digits of an integer, the name itself. -/
def text : Label → String
  | int v => toString v.toInt
  | name s => s

instance : ToString Label := ⟨text⟩

/-- The primed label. It is always a name, so it never takes part in the sign convention. -/
def prime (l : Label) : Label := name (l.text ++ "′")

/-- Integers come before names, integers by value and names by code points. -/
def order : Label → Label → Ordering
  | int v, int w => compare v.toInt w.toInt
  | int _, name _ => .lt
  | name _, int _ => .gt
  | name s, name t => compare s t

instance : Ord Label := ⟨order⟩

/-- The first of two labels is not after the second. -/
def notAfter (a b : Label) : Bool := order a b != .gt

/-- Labels between square brackets, separated by commas. -/
def listText (ls : List Label) : String := "[" ++ ",".intercalate (ls.map text) ++ "]"

theorem prime_ne_int (l : Label) (v : Int64) : l.prime ≠ int v := by simp [prime]

@[simp] theorem asInt_prime (l : Label) : l.prime.asInt = none := rfl

end Label

end TensorNet
