import ConfigScript.Toml.Moment
import ConfigScript.Toml.Number
/-!
# Reading documents

A document is a sequence of lines: an entry, a header, a comment or nothing. `Toml.read?` gives
the entries of the document, or `none` if the text is not one. Brackets nest to a fixed depth, so
reading a value recurses on what is left of it; lists and lines go on as long as the text gets
shorter.
-/

namespace ConfigScript.Toml

/-- How deep brackets may nest, and how many names a key may have. -/
def maxDepth : Nat := 79

/-! ## Trivia -/

/-- The text after a comment, if one begins here. -/
def dropComment : Text → Text
  | '#' :: t => t.dropWhile isPrintable
  | t => t

/-- The text after the blanks, the comment and the break that end a line. -/
def lineEnd? (t : Text) : Option Text :=
  match dropComment (dropGap t) with
  | [] => some []
  | rest => break? rest

theorem length_dropGap_le (t : Text) : (dropGap t).length ≤ t.length :=
  (List.dropWhile_suffix _).length_le

/-- Drops blanks, line breaks and comments between the items of an array. -/
def dropTrivia (t : Text) : Option Text :=
  match h : dropGap t with
  | '#' :: rest =>
    match hr : break? (rest.dropWhile isPrintable) with
    | none => none
    | some after =>
      have : after.length < t.length := by
        have h1 := length_dropGap_le t
        have h2 := (List.dropWhile_suffix (l := rest) isPrintable).length_le
        have h3 := length_break?_le hr
        rw [h, List.length_cons] at h1
        omega
      dropTrivia after
  | '\n' :: after =>
    have : after.length < t.length := by
      have h1 := length_dropGap_le t
      rw [h, List.length_cons] at h1
      omega
    dropTrivia after
  | '\r' :: '\n' :: after =>
    have : after.length < t.length := by
      have h1 := length_dropGap_le t
      rw [h, List.length_cons, List.length_cons] at h1
      omega
    dropTrivia after
  | rest => some rest
termination_by t.length
decreasing_by all_goals assumption

/-! ## Keys -/

def isBareKey (c : Char) : Bool :=
  c.isDigit || ('a' ≤ c && c ≤ 'z') || ('A' ≤ c && c ≤ 'Z') || c = '-' || c = '_'

/-- One name of a key. -/
def keyPart? : Text → Option (Text × Text)
  | '"' :: t => quoted? t
  | '\x27' :: t => literal? t
  | t =>
    let name := t.takeWhile isBareKey
    if name.isEmpty then none else some (name, t.drop name.length)

/-- The names of a dotted key, with blanks around them. -/
def keyParts? (t : Text) : Option (List Text × Text) :=
  match keyPart? (dropGap t) with
  | none => none
  | some (name, rest) =>
    match dropGap rest with
    | '.' :: more =>
      if more.length < t.length then
        (keyParts? more).map fun (names, rest) => (name :: names, rest)
      else none
    | rest => some ([name], rest)
termination_by t.length

def key? (t : Text) : Option (Key × Text) := do
  let (names, rest) ← keyParts? t
  let name ← names.getLast?
  if names.length ≤ maxDepth then some (⟨names.dropLast, name⟩, rest) else none

/-! ## Values -/

/-- A value without brackets. -/
def scalar? (t : Text) : Option (Toml × Text) :=
  match t with
  | 't' :: 'r' :: 'u' :: 'e' :: rest => some (.flag true, rest)
  | 'f' :: 'a' :: 'l' :: 's' :: 'e' :: rest => some (.flag false, rest)
  | _ =>
    ((readText? t).map fun (content, rest) => (.text content, rest)).or <|
      ((Moment.read? t).map fun (m, rest) => (.moment m, rest)).or <|
        (float? t).or (integer? t)

/-- Reads one value. -/
abbrev ValueReader := Text → Option (Toml × Text)

/-- The items of an array behind its bracket. A comma may follow the last one. -/
def items? (value : ValueReader) (t : Text) : Option (List Toml × Text) :=
  match dropTrivia t with
  | none => none
  | some (']' :: rest) => some ([], rest)
  | some start =>
    match value start with
    | none => none
    | some (item, rest) =>
      match dropTrivia rest with
      | some (',' :: more) =>
        if more.length < t.length then
          (items? value more).map fun (items, rest) => (item :: items, rest)
        else none
      | some (']' :: rest) => some ([item], rest)
      | _ => none
termination_by t.length

/-- One entry: a key, an equals sign and a value. -/
def entry? (value : ValueReader) (t : Text) : Option (Key × Toml × Text) := do
  let (key, rest) ← key? t
  match rest with
  | '=' :: rest => do
    let (item, rest) ← value (dropGap rest)
    return (key, item, rest)
  | _ => none

/-- The entries of an inline table, of which there is at least one, added to those before. -/
def entries? (value : ValueReader) (before : Entries) (t : Text) : Option (Entries × Text) :=
  match entry? value t with
  | none => none
  | some (key, item, rest) =>
    match enter? key.name item key.path before with
    | none => none
    | some after =>
      match dropGap rest with
      | ',' :: more => if more.length < t.length then entries? value after more else none
      | '\x7d' :: rest => some (after, rest)
      | _ => none
termination_by t.length

/-- An inline table behind its bracket. -/
def inline? (value : ValueReader) (t : Text) : Option (Entries × Text) :=
  match dropGap t with
  | '\x7d' :: rest => some ([], rest)
  | _ => entries? value [] t

/-- A value in which brackets nest no deeper than `depth`. -/
def value? : (depth : Nat) → ValueReader
  | depth + 1, '[' :: t => (items? (value? depth) t).map fun (items, rest) => (.array items, rest)
  | depth + 1, '\x7b' :: t =>
    (inline? (value? depth) t).map fun (entries, rest) => (.table .inline entries, rest)
  | _, t => scalar? t

/-! ## Lines -/

/-- A header between single or double brackets. -/
def header? : Text → Option (Line × Text)
  | '[' :: '[' :: t =>
    match key? t with
    | some (key, ']' :: ']' :: rest) => some (.nextHeader key, rest)
    | _ => none
  | '[' :: t =>
    match key? t with
    | some (key, ']' :: rest) => some (.header key, rest)
    | _ => none
  | _ => none

/-- The line that begins here, if it holds more than a comment, and the text after it. -/
def line? (t : Text) : Option (Option Line × Text) :=
  match dropGap t with
  | [] => some (none, [])
  | '[' :: rest => do
    let (header, rest) ← header? ('[' :: rest)
    return (some header, ← lineEnd? rest)
  | c :: rest =>
    if c = '#' || c = '\n' || c = '\r' then (lineEnd? (c :: rest)).map (none, ·)
    else do
      let (key, item, rest) ← entry? (value? maxDepth) (c :: rest)
      return (some (.entry key item), ← lineEnd? rest)

/-- All lines of a document. -/
def lines? (t : Text) : Option (List Line) :=
  if t.isEmpty then some []
  else
    match line? t with
    | none => none
    | some (line, rest) =>
      if rest.length < t.length then (lines? rest).map (line.toList ++ ·) else none
termination_by t.length

/-- A mark that a text may begin with. -/
def byteOrderMark : Char := '\uFEFF'

/-- The entries of a document. -/
def read? (t : Text) : Option Entries := do
  ofLines (← lines? ((Text.dropHead? [byteOrderMark] t).getD t))

end ConfigScript.Toml
