import TensorNet.Document.Digits

/-!
# The shortest decimal of a floating-point number

## 1. The interval

A positive 64-bit number is `m * 2 ^ q`. The reals that round to it form an interval around it
that reaches half way to its neighbours; its ends belong to it when `m` is even. Below a power of
two the neighbour is half as far away.

## 2. The digits

For a number of digits there is a decimal grid, and only its two points next to the number can be
the nearest ones. The first grid with a point in the interval is taken, and of two such points the
nearer one, the even one in a tie. All comparisons are exact, between natural numbers.
-/

namespace TensorNet.Shortest

/-- A positive floating-point number `m * 2 ^ q`, with the distance of the next smaller one. -/
structure Value where
  mantissa : Nat
  exponent : Int
  /-- The neighbour below is half as far away as the one above. -/
  isBinade : Bool
deriving DecidableEq, Repr

/-- The lowest 52 bits of a number are its fraction. -/
def fractionBits : Nat := 52

/-- The first bit above the fraction, which a number of normal size has without writing it. -/
def hiddenBit : Nat := 1 <<< fractionBits

/-- The value of the bits of a finite number without its sign. -/
def ofBits (b : Nat) : Value :=
  let e : Nat := b >>> fractionBits
  let f : Nat := b % hiddenBit
  if e = 0 then ⟨f, -1074, false⟩ else ⟨hiddenBit + f, Int.ofNat e - 1075, f == 0 && decide (1 < e)⟩

/-- A quarter of the unit in the last place is `num / den`; the number is `4 * mantissa` quarters. -/
structure Quarter where
  num : Nat
  den : Nat

/-- The quarter of a value's unit. -/
def quarter (v : Value) : Quarter :=
  ⟨1 <<< (v.exponent - 2).toNat, 1 <<< (2 - v.exponent).toNat⟩

/-- A grid of multiples of `10 ^ k`, as the fraction `up / down`. -/
structure Grid where
  up : Nat
  down : Nat

/-- The grid of an exponent. -/
def grid (k : Int) : Grid := ⟨Nat.pow 10 k.toNat, Nat.pow 10 (-k).toNat⟩

/-- The point `d` of a grid lies in the interval of a value. -/
def inInterval (v : Value) (g : Grid) (d : Nat) : Bool :=
  let u := quarter v
  let low := 4 * v.mantissa - (if v.isBinade then 1 else 2)
  let high := 4 * v.mantissa + 2
  let x := d * g.up * u.den
  let a := low * u.num * g.down
  let b := high * u.num * g.down
  if v.mantissa % 2 = 0 then decide (a ≤ x ∧ x ≤ b) else decide (a < x ∧ x < b)

/-- The point of a grid at or below a value. -/
def floorPoint (v : Value) (g : Grid) : Nat :=
  let u := quarter v
  (4 * v.mantissa * u.num * g.down) / (g.up * u.den)

/-- The nearer of the points `d` and `d + 1`, the even one in a tie. -/
def nearer (v : Value) (g : Grid) (d : Nat) : Nat :=
  let u := quarter v
  let x := 2 * (4 * v.mantissa * u.num * g.down)
  let mid := (2 * d + 1) * (g.up * u.den)
  if x < mid then d else if mid < x then d + 1 else d + d % 2

/-- A point of a grid that is in the interval, the nearer one if both neighbours are. -/
def pointOn? (v : Value) (g : Grid) : Option Nat :=
  let d := floorPoint v g
  match inInterval v g d, inInterval v g (d + 1) with
  | true, true => some (nearer v g d)
  | true, false => some d
  | false, true => some (d + 1)
  | false, false => none

/-- The exponent of the first digit plus one: the number is below `10 ^ k` and not below
`10 ^ (k - 1)`, for the `k` found by counting up from `start`. -/
def scaleFrom (v : Value) : Nat → Int → Int
  | 0, k => k
  | steps + 1, k => if floorPoint v (grid k) = 0 then k else scaleFrom v steps (k + 1)

/-- The number of digits before the point; it is at least `-323` and at most `309`. -/
def scale (v : Value) : Int := scaleFrom v 640 (-330)

/-- A number written as `digits * 10 ^ exponent`. -/
structure Decimal where
  digits : Nat
  exponent : Int
deriving DecidableEq, Repr

/-- Looks for a point on grids with more and more digits. -/
def search (v : Value) : Nat → Int → Decimal
  | 0, k => ⟨floorPoint v (grid k), k⟩
  | steps + 1, k =>
    match pointOn? v (grid k) with
    | some d => ⟨d, k⟩
    | none => search v steps (k - 1)

/-- Drops zeros from the end of the digits. -/
def dropZeros : Nat → Decimal → Decimal
  | 0, d => d
  | steps + 1, d =>
    if d.digits % 10 = 0 ∧ d.digits ≠ 0 then dropZeros steps ⟨d.digits / 10, d.exponent + 1⟩
    else d

/-- **The shortest decimal** that rounds to a value, and the nearest one among those. -/
def decimal (v : Value) : Decimal := dropZeros 17 (search v 17 (scale v - 1))

end TensorNet.Shortest
