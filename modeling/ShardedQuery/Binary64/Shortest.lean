import ShardedQuery.Binary64

/-!
# The shortest decimal text of a double-precision number

`Binary64.shortest` finds the fewest decimal digits that read back as the same number, and among
those the digits nearest to it. A decimal reads back as `x` when it lies in the interval of reals
that round to `x`; the ends of the interval belong to it when the significand is even. The search
tries one digit, two digits, up to seventeen: on each decimal grid only the two neighbours of the
value need a look. All tests are exact, in natural numbers.

`Binary64.text` lays the digits out as `decimalLayout` says: positional from `0.0001` up to
sixteen integer digits, always with a fractional digit, and with an exponent outside that range.
-/

namespace ShardedQuery

/-- Decimal digits with the power of ten that the first digit weighs. -/
structure Decimal where
  digits : List Char
  exponent : Int
  deriving Repr, DecidableEq

/-- How decimal digits are written out. -/
structure DecimalLayout where
  /-- Leading exponents from here are written positionally, -/
  positionalFrom : Int
  /-- up to here; others take exponent notation. -/
  positionalTo : Int
  /-- The mark between digits and exponent. -/
  mark : String
  notANumber : String
  infinity : String

namespace Binary64

/-- The value times four times `2 ^ 1074`; the factor four makes the ends of the interval of
rounding integers. -/
def quadruple (x : Binary64) : Nat := 4 * x.magnitude

/-- The interval of reals that round to a positive finite number, in the units of `quadruple`.
Below a power of two the numbers lie twice as close. -/
def roundingInterval (x : Binary64) : Nat × Nat :=
  let unit := Nat.pow 2 x.place
  let below := if x.fraction = 0 ∧ 1 < x.exponentField then unit else 2 * unit
  (x.quadruple - below, x.quadruple + 2 * unit)

/-- The power of ten that the first decimal digit of a positive finite number weighs. -/
def leadingExponent (x : Binary64) : Int :=
  ((Nat.toDigits 10 (x.magnitude * Nat.pow 10 324 / Nat.pow 2 1074)).length : Int) - 325

/-- The neighbour of `x` on the grid of multiples of `10 ^ k` that reads back as `x`: the nearer
one if both do, the upper one if they are equally near. -/
def nearestOnGrid? (x : Binary64) (k : Int) : Option Nat :=
  let unit := 4 * Nat.pow 2 1074 * Nat.pow 10 k.toNat
  let scale := Nat.pow 10 (-k).toNat
  let value := x.quadruple * scale
  let (low, high) := x.roundingInterval
  let closed := x.significand % 2 == 0
  let inside (c : Nat) : Bool :=
    if closed then low * scale ≤ c * unit && c * unit ≤ high * scale
    else low * scale < c * unit && c * unit < high * scale
  let floor := value / unit
  match inside floor, inside (floor + 1) with
  | true, true => if 2 * value < (2 * floor + 1) * unit then some floor else some (floor + 1)
  | true, false => some floor
  | false, true => some (floor + 1)
  | false, false => none

/-- The decimal of a count of grid units, without trailing zeros. -/
def decimalOf (count : Nat) (k : Int) : Decimal :=
  let digits := Nat.toDigits 10 count
  let kept := (digits.reverse.dropWhile (· == '0')).reverse
  ⟨kept, k + digits.length - 1⟩

/-- The fewest digits that read back as a positive finite number, nearest first. -/
def shortest (x : Binary64) : Decimal :=
  let e := x.leadingExponent
  let found := (List.range 17).findSome? fun (n : Nat) =>
    (x.nearestOnGrid? (e - n)).map fun count => decimalOf count (e - n)
  found.getD ⟨['0'], 0⟩

/-- Numbers are positional from `0.0001` up to sixteen integer digits; outside, `e` marks the
exponent. -/
def decimalLayout : DecimalLayout := ⟨-4, 15, "e", "NaN", "inf"⟩

end Binary64

/-- Digits laid out as `layout` says. A positional text has at least one fractional digit. -/
def Decimal.render (layout : DecimalLayout) (d : Decimal) : String :=
  let zeros (n : Nat) : String := String.ofList (List.replicate n '0')
  let all := String.ofList d.digits
  if layout.positionalFrom ≤ d.exponent ∧ d.exponent ≤ layout.positionalTo then
    if d.exponent < 0 then
      "0." ++ zeros ((-d.exponent).toNat - 1) ++ all
    else
      let whole := d.exponent.toNat + 1
      if d.digits.length ≤ whole then all ++ zeros (whole - d.digits.length) ++ ".0"
      else String.ofList (d.digits.take whole) ++ "." ++ String.ofList (d.digits.drop whole)
  else
    let lead := String.ofList (d.digits.take 1)
    let rest := d.digits.drop 1
    let tail := if rest.isEmpty then "" else "." ++ String.ofList rest
    lead ++ tail ++ layout.mark ++ toString d.exponent

/-- The text of a number: sign, then the shortest digits. Zero keeps its sign. -/
def Binary64.text (x : Binary64) : String :=
  let layout := Binary64.decimalLayout
  if x.isNaN then layout.notANumber
  else
    let body :=
      if !x.isFinite then layout.infinity
      else if x.magnitude = 0 then "0.0"
      else x.shortest.render layout
    (if x.isNegative then "-" else "") ++ body

end ShardedQuery
