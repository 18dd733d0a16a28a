import ConfigScript.Number.Layout
import ConfigScript.Table
/-!
# JSON

Documents and their two written forms: compact, and one item per line with an indent of two
blanks.
-/

namespace ConfigScript

inductive Json where
  | null
  | bool (b : Bool)
  | integer (n : Nat)
  | number (x : Float)
  | string (t : Text)
  | array (items : List Json)
  | object (members : List (Text × Json))
deriving Inhabited

namespace Json

def hexDigit (n : Nat) : Char := (Nat.toDigits 16 n).head?.getD '0'

/-- A character inside a string. Besides the delimiter and the backslash only control characters
below the blank are escaped. -/
def escape (c : Char) : Text :=
  if c = '"' then ['\\', '"']
  else if c = '\\' then ['\\', '\\']
  else if c.toNat < 0x20 then
    match c.toNat with
    | 8 => ['\\', 'b']
    | 9 => ['\\', 't']
    | 10 => ['\\', 'n']
    | 12 => ['\\', 'f']
    | 13 => ['\\', 'r']
    | n => ['\\', 'u', '0', '0', hexDigit (n / 16), hexDigit (n % 16)]
  else [c]

def quote (t : Text) : Text := '"' :: t.flatMap escape ++ ['"']

/-- A document that is one token, if it is. -/
def atom? : Json → Option Text
  | null => some "null".toList
  | bool b => some (if b then "true" else "false").toList
  | integer n => some (Text.ofNat n)
  | number x => some (Number.Layout.json.text x)
  | string t => some (quote t)
  | array [] => some "[]".toList
  | object [] => some ['\x7b', '\x7d']
  | _ => none

mutual

/-- The document without blanks. -/
def compact : Json → Text
  | array items => '[' :: Text.join [','] (compactItems items) ++ [']']
  | object members => '\x7b' :: Text.join [','] (compactMembers members) ++ ['\x7d']
  | j => (atom? j).getD []

def compactItems : List Json → List Text
  | [] => []
  | j :: rest => compact j :: compactItems rest

def compactMembers : List (Text × Json) → List Text
  | [] => []
  | (name, j) :: rest => (quote name ++ ':' :: compact j) :: compactMembers rest

end

/-- A line break and the blanks of a nesting depth. -/
def newLine (depth : Nat) : Text := '\n' :: List.replicate (2 * depth) ' '

/-- Items on lines of their own between brackets. -/
def spread (depth : Nat) (opening closing : Char) (items : List Text) : Text :=
  if items.isEmpty then [opening, closing]
  else
    opening :: newLine (depth + 1) ++ Text.join (',' :: newLine (depth + 1)) items ++
      newLine depth ++ [closing]

mutual

/-- The document with one item per line, at a nesting depth. -/
def prettyAt (depth : Nat) : Json → Text
  | array items => spread depth '[' ']' (prettyItems (depth + 1) items)
  | object members => spread depth '\x7b' '\x7d' (prettyMembers (depth + 1) members)
  | j => (atom? j).getD []

def prettyItems (depth : Nat) : List Json → List Text
  | [] => []
  | j :: rest => prettyAt depth j :: prettyItems depth rest

def prettyMembers (depth : Nat) : List (Text × Json) → List Text
  | [] => []
  | (name, j) :: rest =>
    (quote name ++ ": ".toList ++ prettyAt depth j) :: prettyMembers depth rest

end

def pretty (j : Json) : Text := prettyAt 0 j

mutual

/-- The document with the members of every object in order of their names. -/
def sorted : Json → Json
  | array items => .array (sortedItems items)
  | object members => .object (Table.ofList (sortedMembers members))
  | j => j

def sortedItems : List Json → List Json
  | [] => []
  | j :: rest => sorted j :: sortedItems rest

def sortedMembers : List (Text × Json) → List (Text × Json)
  | [] => []
  | (name, j) :: rest => (name, sorted j) :: sortedMembers rest

end

/-- An object with these members. -/
def ofMembers (members : List (String × Json)) : Json :=
  .object (members.map fun (name, j) => (name.toList, j))

end Json

end ConfigScript
