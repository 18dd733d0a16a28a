import ConfigScript.Toml
/-!
# Quoted text

Text stands between quotation marks, where a backslash begins an escape, or between apostrophes,
where every character counts; three delimiters in a row open a block that may span lines. Each
reader starts behind the opening delimiter and gives the content and the text after the closing
one.
-/

namespace ConfigScript.Toml

/-- May stand in a quoted text or a comment: everything but control characters below the blank,
of which the tab is let through, and the delete character. -/
def isPrintable (c : Char) : Bool := c = '\t' || (' ' ≤ c && c ≠ '\x7F')

def isGap (c : Char) : Bool := c = ' ' || c = '\t'

/-- Drops blanks and tabs. -/
def dropGap (t : Text) : Text := t.dropWhile isGap

/-- Drops blanks, tabs and line breaks. -/
def dropLines : Text → Text
  | '\r' :: '\n' :: t => dropLines t
  | c :: t => if isGap c || c = '\n' then dropLines t else c :: t
  | [] => []

theorem length_dropLines_le (t : Text) : (dropLines t).length ≤ t.length := by
  fun_induction dropLines t <;> simp <;> omega

/-- The text after a line break. -/
def break? : Text → Option Text
  | '\n' :: t => some t
  | '\r' :: '\n' :: t => some t
  | _ => none

/-- The text after a line break, if there is one. -/
def dropBreak (t : Text) : Text := (break? t).getD t

/-! ## Escapes -/

def hexValue (c : Char) : Nat :=
  if c.isDigit then c.toNat - '0'.toNat
  else if 'a' ≤ c then c.toNat - 'a'.toNat + 10
  else c.toNat - 'A'.toNat + 10

def isHexDigit (c : Char) : Bool :=
  c.isDigit || ('a' ≤ c && c ≤ 'f') || ('A' ≤ c && c ≤ 'F')

/-- The number that digits of a base spell. -/
def valueIn (base : Nat) (digits : Text) : Nat := digits.foldl (fun n d => n * base + hexValue d) 0

/-- The character whose code `n` hexadecimal digits give. -/
def coded? (n : Nat) (t : Text) : Option (Char × Text) :=
  let digits := t.take n
  let code := valueIn 16 digits
  if digits.length = n && digits.all isHexDigit && code.isValidChar then
    some (Char.ofNat code, t.drop n)
  else none

/-- The character of an escape behind its backslash. -/
def escape? : Text → Option (Char × Text)
  | 'b' :: t => some ('\x08', t)
  | 't' :: t => some ('\t', t)
  | 'n' :: t => some ('\n', t)
  | 'f' :: t => some ('\x0C', t)
  | 'r' :: t => some ('\r', t)
  | '"' :: t => some ('"', t)
  | '\\' :: t => some ('\\', t)
  | 'u' :: t => coded? 4 t
  | 'U' :: t => coded? 8 t
  | _ => none

theorem length_coded?_le {n : Nat} {t rest : Text} {c : Char} (h : coded? n t = some (c, rest)) :
    rest.length ≤ t.length := by
  simp only [coded?] at h
  split at h
  · cases h; simp
  · cases h

theorem length_escape?_le {t rest : Text} {c : Char} (h : escape? t = some (c, rest)) :
    rest.length ≤ t.length := by
  unfold escape? at h
  split at h
  case h_8 | h_9 => exact Nat.le_succ_of_le (length_coded?_le h)
  all_goals cases h
  all_goals simp

/-- Puts characters in front of the content that was read. -/
def prepend (front : Text) (r : Option (Text × Text)) : Option (Text × Text) :=
  r.map fun (content, rest) => (front ++ content, rest)

/-! ## Readers -/

/-- Text between quotation marks. -/
def quoted? (t : Text) : Option (Text × Text) :=
  match t with
  | [] => none
  | '"' :: t => some ([], t)
  | '\\' :: t =>
    match h : escape? t with
    | some (c, rest) =>
      have := length_escape?_le h
      prepend [c] (quoted? rest)
    | none => none
  | c :: t => if isPrintable c then prepend [c] (quoted? t) else none
termination_by t.length

/-- A backslash at the end of a line, behind which all blanks and line breaks are dropped. -/
def continued? (t : Text) : Option Text := (break? (dropGap t)).map dropLines

theorem length_break?_le {t rest : Text} (h : break? t = some rest) :
    rest.length ≤ t.length := by
  unfold break? at h
  split at h
  all_goals cases h
  all_goals simp only [List.length_cons]; omega

theorem length_continued?_le {t rest : Text} (h : continued? t = some rest) :
    rest.length ≤ t.length := by
  unfold continued? at h
  obtain ⟨u, hu, rfl⟩ := Option.map_eq_some_iff.1 h
  have h1 := length_dropLines_le u
  have h2 := length_break?_le hu
  have h3 : (dropGap t).length ≤ t.length := (List.dropWhile_suffix _).length_le
  omega

/-- A block between triple quotation marks. Up to two marks in front of the closing ones belong
to the content. -/
def quotedBlock? (t : Text) : Option (Text × Text) :=
  match t with
  | [] => none
  | '"' :: '"' :: '"' :: '"' :: '"' :: t => some (['"', '"'], t)
  | '"' :: '"' :: '"' :: '"' :: t => some (['"'], t)
  | '"' :: '"' :: '"' :: t => some ([], t)
  | '\\' :: t =>
    match h : continued? t with
    | some rest =>
      have := length_continued?_le h
      quotedBlock? rest
    | none =>
      match h : escape? t with
      | some (c, rest) =>
        have := length_escape?_le h
        prepend [c] (quotedBlock? rest)
      | none => none
  | '\r' :: '\n' :: t => prepend ['\n'] (quotedBlock? t)
  | c :: t => if isPrintable c || c = '\n' then prepend [c] (quotedBlock? t) else none
termination_by t.length

/-- Text between apostrophes. -/
def literal? : Text → Option (Text × Text)
  | [] => none
  | '\x27' :: t => some ([], t)
  | c :: t => if isPrintable c then prepend [c] (literal? t) else none

/-- A block between triple apostrophes. -/
def literalBlock? : Text → Option (Text × Text)
  | [] => none
  | '\x27' :: '\x27' :: '\x27' :: '\x27' :: '\x27' :: t => some (['\x27', '\x27'], t)
  | '\x27' :: '\x27' :: '\x27' :: '\x27' :: t => some (['\x27'], t)
  | '\x27' :: '\x27' :: '\x27' :: t => some ([], t)
  | '\r' :: '\n' :: t => prepend ['\n'] (literalBlock? t)
  | c :: t => if isPrintable c || c = '\n' then prepend [c] (literalBlock? t) else none

/-- A text that may stand for a value. -/
def readText? : Text → Option (Text × Text)
  | '"' :: '"' :: '"' :: t => quotedBlock? (dropBreak t)
  | '"' :: t => quoted? t
  | '\x27' :: '\x27' :: '\x27' :: t => literalBlock? (dropBreak t)
  | '\x27' :: t => literal? t
  | _ => none

end ConfigScript.Toml
