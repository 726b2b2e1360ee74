import TensorNet.Tensor.Element

/-!
# 16-bit floating point

A half has one sign bit, five exponent bits and ten fraction bits. It is computed with in 32-bit
floating point: both operands are widened, which is exact, and the result of each operation is
rounded to the nearest half, a tie going to the even one.
-/

namespace TensorNet

/-- A 16-bit floating-point number, by its bits. -/
structure Half where
  bits : UInt16
deriving DecidableEq, Repr, Inhabited

namespace Half

/-- `m / 2 ^ k` rounded to the nearest integer, a tie going to the even one. -/
def roundShift (m k : Nat) : Nat :=
  let unit := 1 <<< k
  let q := m / unit
  let r := m % unit
  if 2 * r < unit then q
  else if 2 * r = unit then q + q % 2
  else q + 1

/-- The bits, without a sign, of the half nearest to `m * 2 ^ (e - 150)`, for `m < 2 ^ 24`. The
spacing is `2 ^ -24` up to exponent `113`, and the fraction is counted together with the exponent,
so that a carry out of the fraction goes where it belongs. From `2 ^ 16` on it is infinity. -/
def magnitude (m e : Nat) : Nat :=
  if e < 114 then roundShift m (126 - e)
  else min ((e - 113) * 1024 + roundShift m 13) 0x7c00

/-- A single rounded to a half. -/
def ofSingle (x : Float32) : Half :=
  let b := x.toBits.toNat
  let sign := (b >>> 31) <<< 15
  let e := (b >>> 23) % 0x100
  let f := b % 0x800000
  let m :=
    if e = 255 then (if f = 0 then 0x7c00 else 0x7e00)
    else if e = 0 then 0
    else magnitude (0x800000 + f) e
  ⟨(sign + m).toUInt16⟩

/-- A half as a single, exactly. -/
def toSingle (h : Half) : Float32 :=
  let b := h.bits.toNat
  let sign := (b >>> 15) <<< 31
  let e := (b >>> 10) % 0x20
  let f := b % 0x400
  let m :=
    if e = 31 then 0x7f800000 + f <<< 13
    else if e = 0 then
      if f = 0 then 0
      else (f.log2 + 103) <<< 23 + (f <<< (23 - f.log2) - 0x800000)
    else (e + 112) <<< 23 + f <<< 13
  .ofBits (sign + m).toUInt32

instance : Element Half where
  zero := ⟨0⟩
  one := ⟨0x3c00⟩
  add x y := ofSingle (x.toSingle + y.toSingle)
  mul x y := ofSingle (x.toSingle * y.toSingle)
  type := .half
  isZero x := x.bits &&& 0x7fff == 0
  conj x := x

end Half

end TensorNet
