import TensorNet.Document.Shortest
import TensorNet.Document.Json

/-!
# Floating-point numbers in documents

Written, a number has the fewest digits that read back as itself, positionally while the point is
near the digits and with an exponent otherwise. Read, the leading digits that fit a 64-bit word are
taken as a whole number and scaled by powers of ten in floating point, which is quick and not
always the nearest number.
-/

namespace TensorNet.Real

/-! ### Writing -/

/-- How the digits of a number are laid out. -/
structure Layout where
  /-- Numbers with this many digits before the point or fewer are written positionally. -/
  maxWhole : Int
  /-- Numbers with fewer zeros than this after the point are written positionally. -/
  maxZeros : Int

/-- Documents write out up to sixteen digits before the point and up to four zeros after it. -/
def layout : Layout := ⟨16, 5⟩

/-- A whole number as an exponent, which always has a sign. -/
def exponentText (e : Int) : List Char := (if e < 0 then '-' else '+') :: Digits.ofNat e.natAbs

/-- The text of a positive decimal. -/
def decimalText (d : Shortest.Decimal) : List Char :=
  let cs := Digits.ofNat d.digits
  let point : Int := cs.length + d.exponent
  if 0 ≤ d.exponent ∧ point ≤ layout.maxWhole then
    cs ++ List.replicate d.exponent.toNat '0' ++ ['.', '0']
  else if 0 < point ∧ point ≤ layout.maxWhole then
    cs.take point.toNat ++ '.' :: cs.drop point.toNat
  else if -layout.maxZeros < point ∧ point ≤ 0 then
    '0' :: '.' :: List.replicate (-point).toNat '0' ++ cs
  else
    cs.take 1 ++ (if cs.length = 1 then [] else '.' :: cs.drop 1) ++
      'e' :: exponentText (point - 1)

/-- The bit of the sign. -/
def signBit : Nat := 0x8000000000000000

/-- The bits of infinity. Greater ones are no number. -/
def infinityBits : Nat := 0x7FF0000000000000

/-- The document of a number; one that is not finite has none but `null`. -/
def toJson (x : Float) : Json :=
  let b := x.toBits.toNat
  let sign := if b < signBit then [] else ['-']
  let m := b % signBit
  if infinityBits ≤ m then .null
  else if m = 0 then .number (sign ++ ['0', '.', '0'])
  else .number (sign ++ decimalText (Shortest.decimal (Shortest.ofBits m)))

/-! ### Reading -/

/-- Leading digits that fit a 64-bit word, as a number, and the digits after them. -/
def takeWordDigits : Nat → List Char → Nat × List Char
  | n, [] => (n, [])
  | n, c :: cs =>
    let m := 10 * n + Digits.digitValue c
    if m ≤ 0xFFFFFFFFFFFFFFFF then takeWordDigits m cs else (n, c :: cs)

/-- A power of ten up to `10 ^ 308`. -/
def powerOfTen (n : Nat) : Float := Float.ofScientific 1 false n

/-- Scales by a power of ten, in steps of `10 ^ 308` where it is very small. A result that is too
large is refused. -/
def scale : Nat → Float → Int → Option Float
  | 0, f, _ => some f
  | steps + 1, f, e =>
    if 308 < e then (if f == 0.0 then some f else none)
    else if 0 ≤ e then
      let g := f * powerOfTen e.toNat
      if g.isInf then none else some g
    else if -308 ≤ e then some (f / powerOfTen (-e).toNat)
    else if f == 0.0 then some f
    else scale steps (f / powerOfTen 308) (e + 308)

/-- The characters of a number by parts. -/
structure Parts where
  isNegative : Bool
  whole : List Char
  fraction : List Char
  /-- The sign and the digits of the exponent. -/
  exponent : Bool × List Char

/-- Splits a number as it is written. -/
def parts (cs : List Char) : Parts :=
  let (neg, cs) := match cs with
    | '-' :: r => (true, r)
    | r => (false, r)
  let whole := cs.takeWhile Char.isDigit
  let cs := cs.dropWhile Char.isDigit
  let (fraction, cs) := match cs with
    | '.' :: r => (r.takeWhile Char.isDigit, r.dropWhile Char.isDigit)
    | r => ([], r)
  let exponent := match cs.drop 1 with
    | '-' :: r => (true, r)
    | '+' :: r => (false, r)
    | r => (false, r)
  ⟨neg, whole, fraction, exponent⟩

/-- The absolute value of a number by its parts. An exponent beyond 32 bits makes zero of a small
number and of zero, and is refused for any other. -/
def magnitude (p : Parts) : Option Float :=
  let (n, rest) := takeWordDigits 0 p.whole
  let (m, dropped) := takeWordDigits n p.fraction
  let shift : Int := (rest.length : Int) - ((p.fraction.length : Int) - dropped.length)
  let e := Digits.value p.exponent.2
  if 0x7FFFFFFF < e then (if m ≠ 0 ∧ !p.exponent.1 then none else some 0.0)
  else scale 4 m.toUInt64.toFloat (if p.exponent.1 then shift - e else shift + e)

/-- The number of a document. -/
def ofJson? : Json → Option Float
  | .number cs =>
    let p := parts cs
    (magnitude p).map fun x => if p.isNegative then -x else x
  | _ => none

end TensorNet.Real
