import ConfigScript.Value
import ConfigScript.Text.Blank
import ConfigScript.Number.Layout
/-!
# Values as script text

`Value.render` writes a value the way a script would, so that the text evaluates back to an
equivalent value.
-/

namespace ConfigScript

namespace Number

/-- From this size on a whole number is written with an exponent or a point. -/
def digitsUpTo : Float := 1e15

/-- A number in a script: whole numbers by their digits as long as they are not too large,
others so that they read back. -/
def render (x : Float) : Text :=
  if x.isNaN then "NaN".toList
  else if x == infinity then "Inf".toList
  else if x == -infinity then "-Inf".toList
  else if isWhole x && x.abs < digitsUpTo then
    if x < 0.0 then '-' :: Text.ofNat (toNat (-x)) else Text.ofNat (toNat x)
  else Layout.exact.text x

end Number

namespace Text

/-- The text between apostrophes, its own apostrophes doubled. -/
def quote (t : Text) : Text :=
  '\x27' :: t.flatMap (fun c => if c = '\x27' then [c, c] else [c]) ++ ['\x27']

/-- A control character as a call that makes it. -/
def spellControl (c : Char) : Text := "char(".toList ++ ofNat c.toNat ++ [')']

/-- The parts of a text with control characters: quoted runs and spelled characters. `run` holds
the run so far, latest first. -/
def spelledParts (run : Text) : Text → List Text
  | [] => if run.isEmpty then [] else [quote run.reverse]
  | c :: t =>
    if isControl c then
      (if run.isEmpty then [] else [quote run.reverse]) ++ spellControl c :: spelledParts [] t
    else spelledParts (c :: run) t

/-- A text on one line of script: quoted, and joined from parts if control characters have to be
spelled. -/
def render (t : Text) : Text :=
  if t.any isControl then '[' :: join ", ".toList (spelledParts [] t) ++ [']'] else quote t

end Text

namespace Matrix

/-- The elements of row `r`. -/
def rowList (m : Matrix) (r : Nat) : List Float :=
  (m.data.extract (r * m.cols) (r * m.cols + m.cols)).toList

def render (m : Matrix) : Text :=
  if m.isEmpty then
    if m.rows = 0 ∧ m.cols = 0 then "[]".toList
    else "zeros(".toList ++ Text.ofNat m.rows ++ ", ".toList ++ Text.ofNat m.cols ++ [')']
  else
    '[' :: Text.join "; ".toList ((List.range m.rows).map fun r =>
      Text.join ", ".toList ((m.rowList r).map Number.render)) ++ [']']

end Matrix

namespace Value

mutual

def render : Value → Text
  | logical b => (if b then "true" else "false").toList
  | double x => Number.render x
  | text content => Text.render content
  | matrix m => m.render
  | cell items => '\x7b' :: Text.join ", ".toList (renderItems items) ++ ['\x7d']
  | struct fields =>
    "struct(".toList ++ Text.join ", ".toList (renderFields fields) ++ [')']

def renderItems : List Value → List Text
  | [] => []
  | v :: rest => render v :: renderItems rest

def renderFields : List (Text × Value) → List Text
  | [] => []
  | (name, v) :: rest => (Text.quote name ++ ", ".toList ++ render v) :: renderFields rest

end

end Value

end ConfigScript
