import ConfigScript.Text.Basic
/-!
# Blank and control characters

`isBlank` is the White_Space property and `isControl` the general category Cc. Only the first
decides what `trim` removes and which signs inside brackets open an element.
-/

namespace ConfigScript

/-- Has the White_Space property. -/
def isBlank (c : Char) : Bool :=
  let n := c.toNat
  (9 ≤ n && n ≤ 13) || n == 0x20 || n == 0x85 || n == 0xA0 || n == 0x1680 ||
    (0x2000 ≤ n && n ≤ 0x200A) || n == 0x2028 || n == 0x2029 || n == 0x202F || n == 0x205F ||
    n == 0x3000

/-- Has the general category Cc. -/
def isControl (c : Char) : Bool :=
  let n := c.toNat
  n ≤ 0x1F || (0x7F ≤ n && n ≤ 0x9F)

namespace Text

def trimStart (t : Text) : Text := t.dropWhile isBlank

def trimEnd (t : Text) : Text := (t.reverse.dropWhile isBlank).reverse

/-- The text without blank characters at either end. -/
def trim (t : Text) : Text := trimEnd (trimStart t)

end Text

end ConfigScript
