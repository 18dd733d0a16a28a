/-!
# Whole numbers among doubles

Cutting, flooring and rounding are built from the exact conversion to 64-bit words: below 2^53 in
size it is exact, and from there on every double is whole. A zero keeps its sign.
-/

namespace ConfigScript.Number

def nan : Float := 0.0 / 0.0

def infinity : Float := 1.0 / 0.0

/-- From 2^53 on every double is whole. -/
def wholeFrom : Float := 9007199254740992.0

/-- Neither NaN nor an infinity. -/
def finite (x : Float) : Bool := x.abs < infinity

/-- The whole part, with the sign of `x`; NaN and infinities stay as they are. -/
def truncate (x : Float) : Float :=
  if x.abs < wholeFrom then
    if 0.0 < x then x.toUInt64.toFloat
    else if x < 0.0 then -((-x).toUInt64.toFloat)
    else x
  else x

/-- Finite and without a fraction. -/
def isWhole (x : Float) : Bool := finite x && truncate x == x

/-- The greatest whole number that is not above `x`. -/
def floor (x : Float) : Float :=
  let t := truncate x
  if x < t then t - 1.0 else t

/-- The least whole number that is not below `x`. -/
def ceil (x : Float) : Float :=
  let t := truncate x
  if t < x then t + 1.0 else t

/-- The nearest whole number; a half goes away from zero. -/
def round (x : Float) : Float :=
  let t := truncate x
  if 0.5 ≤ (x - t).abs then (if x < 0.0 then t - 1.0 else t + 1.0) else t

/-- The whole part as a natural number below 2^64: less than zero and NaN give zero, and what is
too large gives the greatest. -/
def toNat (x : Float) : Nat := x.toUInt64.toNat

/-- The lesser of two numbers, a NaN giving way to the other. -/
def least (x y : Float) : Float :=
  if x.isNaN then y else if y.isNaN then x else if y < x then y else x

/-- The greater of two numbers, a NaN giving way to the other. -/
def greatest (x y : Float) : Float :=
  if x.isNaN then y else if y.isNaN then x else if x < y then y else x

/-- What is left after taking away the multiple of `y` below `x`; for `y = 0` all of `x`. -/
def modulo (x y : Float) : Float :=
  if y == 0.0 then x else x - floor (x / y) * y

/-- The double nearest to a natural number below 2^64. -/
def ofNat (n : Nat) : Float := n.toUInt64.toFloat

/-- 1 for true and 0 for false. -/
def ofBool (b : Bool) : Float := if b then 1.0 else 0.0

end ConfigScript.Number
