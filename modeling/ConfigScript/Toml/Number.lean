import ConfigScript.Number.Literal
import ConfigScript.Toml.Quoted
/-!
# Numbers in documents

Whole numbers in four bases and floats. An underscore may stand between two digits. A whole
number has to fit 64 bits and a float must not exceed the greatest double; the least of all
floats, minus infinity, may be reached.
-/

namespace ConfigScript.Toml

/-- Further digits, each with or without an underscore in front, and the text after them. -/
def moreDigits (isDigit : Char → Bool) : Text → Text × Text
  | [] => ([], [])
  | [c] => if isDigit c then ([c], []) else ([], [c])
  | c :: d :: t =>
    if isDigit c then
      let (digits, rest) := moreDigits isDigit (d :: t)
      (c :: digits, rest)
    else if c = '_' && isDigit d then
      let (digits, rest) := moreDigits isDigit t
      (d :: digits, rest)
    else ([], c :: d :: t)

/-- A run of digits. -/
def digits? (isDigit : Char → Bool) (t : Text) : Option (Text × Text) :=
  if t.head?.any isDigit then some (moreDigits isDigit t) else none

/-- Whether a minus stands in front, and the text after the sign. -/
def sign : Text → Bool × Text
  | '+' :: t => (false, t)
  | '-' :: t => (true, t)
  | t => (false, t)

/-- The digits of a decimal whole number: a zero stands alone. -/
def decimalDigits? : Text → Option (Text × Text)
  | '0' :: t => some (['0'], t)
  | t => digits? Char.isDigit t

/-- One more than the greatest whole number: 2^63. -/
def integerBound : Nat := 9223372036854775808

def basedInteger? (base : Nat) (isDigit : Char → Bool) (t : Text) : Option (Toml × Text) := do
  let (digits, rest) ← digits? isDigit t
  if valueIn base digits < integerBound then some (.integer (valueIn base digits), rest) else none

def decimalInteger? (t : Text) : Option (Toml × Text) := do
  let (minus, t) := sign t
  let (digits, rest) ← decimalDigits? t
  let size := Text.digitsValue digits
  if minus then
    if size ≤ integerBound then some (.integer (-size), rest) else none
  else if size < integerBound then some (.integer size, rest)
  else none

def integer? : Text → Option (Toml × Text)
  | '0' :: 'x' :: t => basedInteger? 16 isHexDigit t
  | '0' :: 'o' :: t => basedInteger? 8 (fun c => '0' ≤ c && c ≤ '7') t
  | '0' :: 'b' :: t => basedInteger? 2 (fun c => c = '0' || c = '1') t
  | t => decimalInteger? t

/-- The fraction behind a point. -/
def fraction? : Text → Option (Text × Text)
  | '.' :: t => digits? Char.isDigit t
  | _ => none

/-- The power of ten behind its mark. -/
def exponent? : Text → Option (Int × Text)
  | c :: t =>
    if c = 'e' || c = 'E' then do
      let (minus, t) := sign t
      let (digits, rest) ← digits? Char.isDigit t
      let size : Int := Text.digitsValue digits
      return (if minus then -size else size, rest)
    else none
  | [] => none

/-- The fraction, the power of ten or both; one of them makes a number a float. -/
def floatTail? (t : Text) : Option (Text × Int × Text) :=
  match fraction? t with
  | some (fraction, rest) =>
    let (exponent, rest) := (exponent? rest).getD (0, rest)
    some (fraction, exponent, rest)
  | none => (exponent? t).map fun (exponent, rest) => ([], exponent, rest)

def signed (minus : Bool) (x : Float) : Float := if minus then -x else x

/-- An infinity or a NaN by its name. -/
def namedFloat? (t : Text) : Option (Float × Text) :=
  match t with
  | 'i' :: 'n' :: 'f' :: rest => some (1.0 / 0.0, rest)
  | 'n' :: 'a' :: 'n' :: rest => some (0.0 / 0.0, rest)
  | _ => none

def float? (t : Text) : Option (Toml × Text) :=
  let (minus, t) := sign t
  match namedFloat? t with
  | some (x, rest) => some (.float (signed minus x), rest)
  | none => do
    let (whole, rest) ← decimalDigits? t
    let (fraction, exponent, rest) ← floatTail? rest
    let x := signed minus (Number.Numeral.value ⟨whole, fraction, exponent⟩)
    if x == 1.0 / 0.0 then none else some (.float x, rest)

end ConfigScript.Toml
