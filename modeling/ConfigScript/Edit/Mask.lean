import ConfigScript.Text.Basic
/-!
# Masks

A mask says of every character of a script whether it is a semicolon that ends no statement, and
whether it belongs to a continuation. Masked text has a control character for the first and
blanks for the second, so byte offsets stay what they are.
-/

namespace ConfigScript.Edit

/-- Stands for a semicolon that ends no statement. Never valid in a script. -/
def sentinel : Char := '\x01'

/-- What a mask does to one character. -/
structure Mark where
  /-- A semicolon in a string, a bracket or a comment. -/
  protect : Bool
  /-- A character of a continuation. -/
  blank : Bool
deriving Repr, DecidableEq, Inhabited

namespace Mask

/-- What the scan knows in front of a character. -/
structure State where
  comment : Bool
  /-- The delimiter of the string that is open. -/
  string : Option Char
  /-- Open brackets less closed ones on this line. A character moves it by one at most, so only a script of
  more than two gigabytes could take it out of 32 bits. -/
  depth : Int
  continuation : Bool
deriving Repr, DecidableEq, Inhabited

namespace State

def start : State := ⟨false, none, 0, false⟩

/-- Neither in a string nor in a comment. -/
def code (s : State) : Bool := s.string.isNone && !s.comment

def mark (s : State) (c : Char) : Mark where
  protect := c = ';' && (s.string.isSome || s.depth > 0 || s.comment)
  blank := s.continuation

/-- A delimiter opens a string or closes the one it opened. -/
def afterQuote (s : State) (c : Char) : State :=
  if (c = '\x27' || c = '"') && !s.comment then
    match s.string with
    | none => { s with string := some c }
    | some delimiter => if delimiter = c then { s with string := none } else s
  else s

/-- A line break ends comment, string and continuation, and the brackets too if it ends no
continuation. -/
def afterBreak (s : State) (c : Char) : State :=
  if c = '\n' then ⟨false, none, if s.continuation then s.depth else 0, false⟩ else s

/-- Brackets count in code, and a percent sign outside strings begins a comment. -/
def afterCode (s : State) (c : Char) : State :=
  if s.code && (c = '(' || c = '[' || c = '\x7b') then { s with depth := s.depth + 1 }
  else if s.code && (c = ')' || c = ']' || c = '\x7d') then { s with depth := s.depth - 1 }
  else if c = '%' && s.string.isNone then { s with comment := true }
  else s

def next (s : State) (c : Char) : State := ((s.afterQuote c).afterBreak c).afterCode c

/-- After the dots of a continuation. -/
def continued (s : State) : State := { s with comment := true, continuation := true }

end State

/-- The marks of a text, character by character. Three dots in code begin a continuation, which
reaches through the line break. -/
def scan (s : State) : Text → List Mark
  | [] => []
  | '.' :: '.' :: '.' :: t =>
    if s.code then
      ⟨false, true⟩ :: ⟨false, true⟩ :: ⟨false, true⟩ :: scan s.continued t
    else s.mark '.' :: scan (s.next '.') ('.' :: '.' :: t)
  | c :: t => s.mark c :: scan (s.next c) t

/-- The mask of a script. -/
def ofScript (script : Text) : List Mark := scan .start script

/-- The byte offsets of the characters, all bytes of them, that satisfy `p`. -/
def offsets (p : Mark → Bool) (offset : Nat) : List Mark → Text → List Nat
  | m :: marks, c :: t =>
    (if p m then List.range' offset c.utf8Size else []) ++ offsets p (offset + c.utf8Size) marks t
  | _, _ => []

/-- A masked character takes as many bytes as before. -/
def applyTo (m : Mark) (c : Char) : Text :=
  if m.blank then List.replicate c.utf8Size ' '
  else if m.protect then [sentinel]
  else [c]

/-- The masked text. -/
def apply (marks : List Mark) (script : Text) : Text :=
  (List.zipWith applyTo marks script).flatten

end Mask

/-- The masked text of a script. -/
def sanitize (script : Text) : Text := Mask.apply (Mask.ofScript script) script

/-- Masked text with its semicolons back. -/
def unmask (t : Text) : Text := t.map fun c => if c = sentinel then ';' else c

end ConfigScript.Edit
