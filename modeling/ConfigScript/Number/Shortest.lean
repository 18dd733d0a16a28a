import ConfigScript.Text.Basic
/-!
# The shortest decimal of a double

A double stands for all reals that round to it. Among the decimals in that interval
`shortest` picks one with the fewest digits, and of those the nearest to the double itself.
All work is exact, in natural numbers.
-/

namespace ConfigScript.Number

/-- `digits · 10 ^ exponent`. -/
structure Decimal where
  digits : Nat
  exponent : Int
deriving Repr, DecidableEq

/-- A positive double and the bounds of the reals that round to it, all three as numerators over
one denominator. -/
structure Interval where
  low : Nat
  value : Nat
  high : Nat
  denominator : Nat
  /-- Whether the bounds themselves round to the double. -/
  closed : Bool

/-- How many fractions there are for one exponent: 2^52. -/
def fractions : Nat := 4503599627370496

/-- How many exponents there are: 2^11. -/
def exponents : Nat := 2048

namespace Interval

/-- The interval of `mantissa · 2 ^ exponent`. Below a power of two neighbours are half as far,
unless they are subnormal. -/
def ofBinary (mantissa : Nat) (exponent : Int) (smallest : Bool) : Interval :=
  let up := Nat.pow 2 (exponent - 2).toNat
  let below := if mantissa = fractions && !smallest then 1 else 2
  { low := (4 * mantissa - below) * up
    value := 4 * mantissa * up
    high := (4 * mantissa + 2) * up
    denominator := Nat.pow 2 (2 - exponent).toNat
    closed := mantissa % 2 = 0 }

/-- The interval of a finite double that is not zero. -/
def ofFloat (x : Float) : Interval :=
  let bits := x.toBits.toNat
  let exponent := bits / fractions % exponents
  let fraction := bits % fractions
  if exponent = 0 then ofBinary fraction (-1074) true
  else ofBinary (fractions + fraction) ((exponent : Int) - 1075) (exponent = 1)

/-- Whether a decimal rounds to the double. -/
def holds (i : Interval) (d : Decimal) : Bool :=
  let down := Nat.pow 10 (-d.exponent).toNat
  let point := d.digits * Nat.pow 10 d.exponent.toNat * i.denominator
  if i.closed then i.low * down ≤ point && point ≤ i.high * down
  else i.low * down < point && point < i.high * down

/-- How many digits stand before the decimal point; for a value below one, minus the number of
zeros after it. -/
def magnitude (i : Interval) : Int :=
  if i.denominator ≤ i.value then (Nat.toDigits 10 (i.value / i.denominator)).length
  else
    let length := (Nat.toDigits 10 (i.denominator / i.value)).length
    if i.denominator = i.value * Nat.pow 10 (length - 1) then 2 - length else 1 - length

/-- The decimal with `count` digits that rounds to the double: of the two grid points around the
value, the nearer one that is in the interval, on a tie the even one. -/
def atDigits (i : Interval) (count : Nat) : Option Decimal :=
  let exponent := i.magnitude - count
  let down := Nat.pow 10 (-exponent).toNat
  let unit := Nat.pow 10 exponent.toNat * i.denominator
  let below := i.value * down / unit
  let rest := i.value * down % unit
  let floor : Decimal := ⟨below, exponent⟩
  let ceiling : Decimal := ⟨below + 1, exponent⟩
  let floorFirst := 2 * rest < unit || (2 * rest = unit && below % 2 = 0)
  let (near, far) := if floorFirst then (floor, ceiling) else (ceiling, floor)
  if i.holds near then some near else if i.holds far then some far else none

end Interval

/-- Takes zeros off the end of the digits. -/
def Decimal.stripped (d : Decimal) : Decimal :=
  if 0 < d.digits ∧ d.digits % 10 = 0 then
    Decimal.stripped ⟨d.digits / 10, d.exponent + 1⟩
  else d
termination_by d.digits
decreasing_by omega

/-- The shortest decimal of the size of a finite double. Seventeen digits always suffice. -/
def shortest (x : Float) : Decimal :=
  if x == 0.0 then ⟨0, 0⟩
  else
    let i := Interval.ofFloat x
    match (List.range 17).findSome? fun n => i.atDigits (n + 1) with
    | some d => d.stripped
    | none => ⟨i.value, 0⟩

end ConfigScript.Number
