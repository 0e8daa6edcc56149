/-!
# Double-precision numbers by their bits

A `Binary64` is its 64 bits: a sign, an exponent field of eleven bits and a fraction of
fifty-two. Everything is computed from the bits in exact integer arithmetic, so the order and
the rounding below can be reasoned about.

* `scaled` is the value times `2 ^ 1074`, an integer for every number. The exponent field of
  all ones continues the same formula, so the infinities lie beyond every finite number.
* `compare?` is the order of numbers; a NaN has no place in it.
* `ofInt` rounds an integer to the nearest number, a tie to the even significand.
-/

namespace ShardedQuery

/-- A double-precision number, given by its bits. -/
structure Binary64 where
  bits : UInt64
  deriving DecidableEq, Repr, Inhabited

namespace Binary64

/-- The sign bit is set. -/
def isNegative (x : Binary64) : Bool := decide (Nat.pow 2 63 ≤ x.bits.toNat)

/-- The eleven exponent bits. -/
def exponentField (x : Binary64) : Nat := x.bits.toNat / Nat.pow 2 52 % 2048

/-- The fifty-two fraction bits. -/
def fraction (x : Binary64) : Nat := x.bits.toNat % Nat.pow 2 52

def isNaN (x : Binary64) : Bool := x.exponentField == 2047 && x.fraction != 0

def isFinite (x : Binary64) : Bool := x.exponentField != 2047

/-- The significand as an integer; the leading bit is implied unless the exponent field is zero. -/
def significand (x : Binary64) : Nat :=
  if x.exponentField = 0 then x.fraction else Nat.pow 2 52 + x.fraction

/-- The last place of the significand weighs `2 ^ place / 2 ^ 1074`. -/
def place (x : Binary64) : Nat := x.exponentField - 1

/-- The absolute value times `2 ^ 1074`. -/
def magnitude (x : Binary64) : Nat := x.significand * Nat.pow 2 x.place

/-- The value times `2 ^ 1074`. The two zeros have the same scaled value. -/
def scaled (x : Binary64) : Int := if x.isNegative then -(x.magnitude : Int) else x.magnitude

/-- The order of numbers; nothing compares with a NaN. -/
def compare? (x y : Binary64) : Option Ordering :=
  if x.isNaN || y.isNaN then none else some (compare x.scaled y.scaled)

/-- `n / 2 ^ k` rounded to the nearest integer, a tie to the even one. -/
def roundShift (n k : Nat) : Nat :=
  let unit := Nat.pow 2 k
  let quotient := n / unit
  let twice := 2 * (n % unit)
  if twice > unit || (twice == unit && quotient % 2 == 1) then quotient + 1 else quotient

/-- The bits of a natural number rounded to fifty-three significant bits. A significand that
rounds up to the next power of two carries into the exponent field. -/
def natBits (n : Nat) : Nat :=
  if n = 0 then 0
  else
    let top := n.log2
    let significand := if top ≤ 52 then n * Nat.pow 2 (52 - top) else roundShift n (top - 52)
    (top + 1022) * Nat.pow 2 52 + significand

/-- The number nearest to an integer of at most 64 bits, a tie to the even significand. -/
def ofInt (n : Int) : Binary64 :=
  ⟨UInt64.ofNat (natBits n.natAbs + if n < 0 then Nat.pow 2 63 else 0)⟩

/-- A finite number without fractional part. -/
def isIntegral (x : Binary64) : Bool := x.isFinite && x.magnitude % Nat.pow 2 1074 == 0

/-- The integer part, clamped to the range of a signed 64-bit integer. -/
def toInt64Clamped (x : Binary64) : Int64 :=
  let whole : Int := x.scaled / Nat.pow 2 1074
  Int64.ofInt (max Int64.minValue.toInt (min whole Int64.maxValue.toInt))

end Binary64

end ShardedQuery
