import HpcAgentBench.Lib.Python
import Mathlib.Algebra.Group.Nat.Defs

/-!
# Numbers of the source language

A number is an unbounded integer or a double, the double given by its bit pattern.  `PyNum.toInt`
and `PyNum.toFloat` are the conversions `int(x)` and `float(x)`; `Double.ceil` is `math.ceil`.
-/

namespace HpcAgentBench

/-- A double by its bit pattern. -/
abbrev Double := UInt64

namespace Double

variable (bits : Double)

def negative : Bool := bits.toNat / 2 ^ 63 == 1

/-- The 11-bit exponent field. -/
def exponent : ℕ := bits.toNat / 2 ^ 52 % 2 ^ 11

/-- The 52-bit fraction field. -/
def fraction : ℕ := bits.toNat % 2 ^ 52

def isNaN : Bool := bits.exponent == 2047 && bits.fraction != 0

/-- The significand with its hidden bit; a finite double is `±significand * 2 ^ (e - 1075)` for
`e = max 1 exponent`. -/
def significand : ℕ := if bits.exponent = 0 then bits.fraction else 2 ^ 52 + bits.fraction

/-- `val < 0`. -/
def isNeg : Bool := bits.negative && !bits.isNaN && bits.toNat % 2 ^ 63 != 0

/-- The whole part of the magnitude and whether something was cut off. -/
def whole : ℕ × Bool :=
  let e := max 1 bits.exponent
  if 1075 ≤ e then (bits.significand * 2 ^ (e - 1075), false)
  else (bits.significand / 2 ^ (1075 - e), bits.significand % 2 ^ (1075 - e) != 0)

/-- A conversion of the whole part, for the doubles that have one. -/
def finite (f : ℕ × Bool → ℤ) : Except PyErr ℤ :=
  if bits.exponent = 2047 then
    if bits.fraction = 0 then .error .overflow
    else .error (.valueError "cannot convert float NaN to integer")
  else .ok (f bits.whole)

/-- `int(x)`: towards zero. -/
def trunc : Except PyErr ℤ :=
  bits.finite fun (n, _) => if bits.negative then -n else n

/-- `math.ceil(x)`. -/
def ceil : Except PyErr ℤ :=
  bits.finite fun (n, cut) => if bits.negative then -n else if cut then n + 1 else n

/-- `n / 2 ^ k`, a tie going to the even neighbour. -/
def roundShift (n k : ℕ) : ℕ :=
  let q := n / 2 ^ k
  let r := n % 2 ^ k
  if 2 * r < 2 ^ k ∨ (2 * r = 2 ^ k ∧ q % 2 = 0) then q else q + 1

/-- The double nearest to `x` among the single-precision numbers, ties to even. -/
def toSingle : Double :=
  let sign := if bits.negative then 2 ^ 63 else 0
  if bits.exponent = 2047 then
    -- a NaN turns quiet and keeps the leading bits of its payload
    if bits.fraction = 0 then bits
    else .ofNat (sign + 2047 * 2 ^ 52 + (bits.fraction / 2 ^ 29 * 2 ^ 29 ||| 2 ^ 51))
  else if bits.significand = 0 then bits
  else
    let e := max 1 bits.exponent
    -- the exponent of the last bit kept, 926 being the one of the subnormal singles
    let u := max (Nat.log2 bits.significand + e - 23) 926
    let q := roundShift bits.significand (u - e)
    if q = 0 then .ofNat sign
    else if 1203 ≤ Nat.log2 q + u then .ofNat (sign + 2047 * 2 ^ 52)
    else .ofNat (sign + (Nat.log2 q + u - 53) * 2 ^ 52 + q * 2 ^ (52 - Nat.log2 q))

/-- The pattern of the double nearest to `n`; none past the largest double. -/
def ofNat? (n : ℕ) : Option ℕ :=
  if n = 0 then some 0
  else
    let e := Nat.log2 n
    let m := if e ≤ 52 then n * 2 ^ (52 - e) else roundShift n (e - 52)
    -- a significand rounded up to `2 ^ 53` carries into the exponent by itself
    let pattern := (e + 1022) * 2 ^ 52 + m
    if pattern < 2047 * 2 ^ 52 then some pattern else none

/-- `float(z)`. -/
def ofInt (z : ℤ) : Except PyErr Double :=
  match ofNat? z.natAbs with
  | none => .error .overflow
  | some pattern => .ok (.ofNat (if z < 0 then 2 ^ 63 + pattern else pattern))

end Double

/-- A number of the source language. -/
inductive PyNum
  | int (z : ℤ)
  | float (bits : Double)
  deriving DecidableEq, Repr

namespace PyNum

/-- `int(x)`. -/
def toInt : PyNum → Except PyErr ℤ
  | int z => .ok z
  | float bits => bits.trunc

/-- `float(x)`. -/
def toFloat : PyNum → Except PyErr Double
  | int z => Double.ofInt z
  | float bits => .ok bits

end PyNum

end HpcAgentBench
