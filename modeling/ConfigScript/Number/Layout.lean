import ConfigScript.Number.Shortest
/-!
# Layouts of numbers

One printer serves every place where a double is written; a `Layout` holds the decisions that
differ between them.
-/

namespace ConfigScript.Number

/-- How a double is written. -/
structure Layout where
  /-- The range of magnitudes written without an exponent, both ends included; `none` never
  writes an exponent. A magnitude counts the digits before the decimal point. -/
  positional : Option (Int × Int)
  /-- Whether whole numbers end in `.0` when written without an exponent. -/
  point : Bool
  /-- Whether positive exponents carry a `+`. -/
  plus : Bool
  nan : String
  infinity : String
  minusInfinity : String

namespace Layout

/-- The form that tells all doubles apart: an exponent outside 1e-4 up to 1e16, and always a
point or an exponent. -/
def exact : Layout :=
  ⟨some (-3, 16), true, false, "NaN", "inf", "-inf"⟩

/-- The form in messages: no exponent and no idle point. -/
def plain : Layout :=
  ⟨none, false, false, "NaN", "inf", "-inf"⟩

/-- The form in JSON: an exponent outside 1e-5 up to 1e16, with its sign. -/
def json : Layout :=
  ⟨some (-4, 16), true, true, "null", "null", "null"⟩

/-- Digits with a decimal point after the first `magnitude` of them. -/
def positionalText (l : Layout) (digits : Text) (magnitude : Int) : Text :=
  let tail := if l.point then ".0".toList else []
  if magnitude ≤ 0 then
    "0.".toList ++ List.replicate (-magnitude).toNat '0' ++ digits
  else if digits.length ≤ magnitude.toNat then
    digits ++ List.replicate (magnitude.toNat - digits.length) '0' ++ tail
  else
    digits.take magnitude.toNat ++ '.' :: digits.drop magnitude.toNat

/-- One digit, the other digits after a point, and a power of ten. -/
def scientificText (l : Layout) (digits : Text) (magnitude : Int) : Text :=
  let exponent := magnitude - 1
  let sign := if exponent < 0 then ['-'] else if l.plus then ['+'] else []
  let mantissa :=
    match digits with
    | first :: second :: more => first :: '.' :: second :: more
    | _ => digits
  mantissa ++ 'e' :: sign ++ Text.ofNat exponent.natAbs

/-- The text of a number that is finite and not negative. -/
def sizeText (l : Layout) (x : Float) : Text :=
  if x == 0.0 then '0' :: (if l.point then ".0".toList else [])
  else
    let d := shortest x
    let digits := Text.ofNat d.digits
    let magnitude := d.exponent + digits.length
    match l.positional with
    | some (low, high) =>
      if low ≤ magnitude ∧ magnitude ≤ high then l.positionalText digits magnitude
      else l.scientificText digits magnitude
    | none => l.positionalText digits magnitude

/-- Whether the sign bit is set. -/
def hasMinus (x : Float) : Bool := x.toBits >>> 63 == 1

/-- The text of a number. -/
def text (l : Layout) (x : Float) : Text :=
  if x.isNaN then l.nan.toList
  else if x.abs == 1.0 / 0.0 then (if x < 0.0 then l.minusInfinity else l.infinity).toList
  else if hasMinus x then '-' :: l.sizeText x.abs
  else l.sizeText x

end Layout

end ConfigScript.Number
