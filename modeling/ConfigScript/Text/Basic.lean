/-!
# Text

Scripts, names and values are lists of characters. Places in a script are counted in UTF-8
bytes, so cutting a text takes a byte count, and `byteLength` is the measure that cutting keeps:
`splitAtByte_append` says that a cut loses nothing.
-/

namespace ConfigScript

/-- A piece of script, a name or a printed value. -/
abbrev Text := List Char

namespace Text

/-- The length in UTF-8 bytes. -/
def byteLength : Text → Nat
  | [] => 0
  | c :: t => c.utf8Size + byteLength t

/-- The text before byte `n` and the text from there on. A character that reaches over the cut
goes to the second part. -/
def splitAtByte : Nat → Text → Text × Text
  | _, [] => ([], [])
  | n, c :: t =>
    if c.utf8Size ≤ n then
      let (front, back) := splitAtByte (n - c.utf8Size) t
      (c :: front, back)
    else ([], c :: t)

theorem splitAtByte_append (n : Nat) (t : Text) :
    (splitAtByte n t).1 ++ (splitAtByte n t).2 = t := by
  induction t generalizing n with
  | nil => rfl
  | cons c t ih =>
    unfold splitAtByte
    split
    · simp [ih]
    · rfl

def takeBytes (n : Nat) (t : Text) : Text := (splitAtByte n t).1

def dropBytes (n : Nat) (t : Text) : Text := (splitAtByte n t).2

/-- The bytes from `start` up to `stop`. -/
def slice (start stop : Nat) (t : Text) : Text :=
  takeBytes (stop - start) (dropBytes start t)

/-- The number of line breaks. -/
def lineBreaks (t : Text) : Nat := t.count '\n'

/-- The text with its last line ended: a break is added unless the text is empty or ends in one. -/
def endLastLine (t : Text) : Text :=
  if t.isEmpty || t.getLast? = some '\n' then t else t ++ ['\n']

/-- The first line without its break, be it a lone line feed or one after a carriage return. -/
def firstLine (t : Text) : Text :=
  let line := t.takeWhile (· ≠ '\n')
  if line.length < t.length && line.getLast? = some '\r' then line.dropLast else line

/-- The pieces joined with `separator` between neighbours. -/
def join (separator : Text) (pieces : List Text) : Text :=
  (pieces.intersperse separator).flatten

theorem join_single (separator t : Text) : join separator [t] = t := by simp [join]

theorem join_cons_cons (separator t u : Text) (ts : List Text) :
    join separator (t :: u :: ts) = t ++ (separator ++ join separator (u :: ts)) := by
  simp [join, List.intersperse]

/-- The decimal digits of a number. -/
def ofNat (n : Nat) : Text := Nat.toDigits 10 n

/-- The number that a run of decimal digits spells. -/
def digitsValue (digits : Text) : Nat :=
  digits.foldl (fun n d => n * 10 + (d.toNat - '0'.toNat)) 0

/-- Zeros in front until there are at least `width` characters. -/
def padded (width : Nat) (t : Text) : Text :=
  List.replicate (width - t.length) '0' ++ t

/-- Whether `part` stands somewhere in the text. -/
def hasPart (part : Text) : Text → Bool
  | [] => part.isEmpty
  | c :: t => part.isPrefixOf (c :: t) || hasPart part t

/-- The text without `tail`, if it ends in it. -/
def dropTail? (tail t : Text) : Option Text :=
  if tail.isSuffixOf t then some (t.take (t.length - tail.length)) else none

/-- The text without `head`, if it begins with it. -/
def dropHead? : Text → Text → Option Text
  | [], t => some t
  | _ :: _, [] => none
  | h :: head, c :: t => if h = c then dropHead? head t else none

end Text

end ConfigScript
