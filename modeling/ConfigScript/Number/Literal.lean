import ConfigScript.Text.Basic
/-!
# Reading decimals

A numeral has a whole part, a fraction and a power of ten. It stands for the double nearest to
its exact value; what is too large is infinite and what is too small is zero.
-/

namespace ConfigScript.Number

/-- The parts of a numeral. -/
structure Numeral where
  whole : Text
  fraction : Text
  exponent : Int
deriving Repr

/-- Every power of ten above this one is infinite as a double, and every number below its inverse
is zero. -/
def farExponent : Int := 400

/-- The double nearest to `digits · 10 ^ exponent`. -/
def nearest (digits : Nat) (exponent : Int) : Float :=
  if digits = 0 then 0.0
  else if farExponent < exponent then 1.0 / 0.0
  else if exponent + digits.log2 + 1 < -farExponent then 0.0
  else if 0 ≤ exponent then Float.ofScientific digits false exponent.toNat
  else Float.ofScientific digits true (-exponent).toNat

def Numeral.value (n : Numeral) : Float :=
  nearest (Text.digitsValue (n.whole ++ n.fraction)) (n.exponent - n.fraction.length)

end ConfigScript.Number
