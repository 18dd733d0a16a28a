import ConfigScript.Text.Blank
import ConfigScript.Number.Literal
import ConfigScript.ScriptError
/-!
# From text to tokens

`tokenize` reads a script from left to right. What depends on context is the apostrophe, which
opens a string or transposes, and the blank, which inside square and curly brackets may stand for
a comma. `lexeme_append` says that a lexeme is cut from the front of the text and is not empty;
that is also why the scan ends.
-/

namespace ConfigScript.Token

/-! ## Numerals -/

/-- A point after digits belongs to an operator or a continuation if one of these follows. -/
def opensOperator : Text → Bool
  | c :: _ => c == '*' || c == '/' || c == '^' || c == '\x27' || c == '.'
  | [] => false

/-- The digits after a decimal point, how they are spelled with the point, and the rest. -/
def fractionPart : Text → Text × Text × Text
  | '.' :: t =>
    if opensOperator t then ([], [], '.' :: t)
    else (t.takeWhile Char.isDigit, '.' :: t.takeWhile Char.isDigit, t.dropWhile Char.isDigit)
  | t => ([], [], t)

/-- The sign of an exponent and the text after it. -/
def exponentSign : Text → Text × Text
  | '+' :: t => (['+'], t)
  | '-' :: t => (['-'], t)
  | t => ([], t)

/-- The power of ten, how it is spelled, and the rest. An `e` that no digit follows is no part
of the numeral. -/
def exponentPart : Text → Int × Text × Text
  | [] => (0, [], [])
  | e :: t =>
    let (sign, u) := exponentSign t
    let power := u.takeWhile Char.isDigit
    if (e = 'e' || e = 'E') && !power.isEmpty then
      let size : Int := Text.digitsValue power
      (if sign = ['-'] then -size else size, e :: (sign ++ power), u.dropWhile Char.isDigit)
    else (0, [], e :: t)

/-! ## Lexemes -/

/-- A token's kind, the characters that spell it and the text after them. -/
structure Lexeme where
  kind : TokenKind
  spelling : Text
  rest : Text

def numeral (t : Text) : Lexeme :=
  let whole := t.takeWhile Char.isDigit
  let (fraction, pointed, afterPoint) := fractionPart (t.dropWhile Char.isDigit)
  let (exponent, scaled, rest) := exponentPart afterPoint
  ⟨.number (Number.Numeral.value ⟨whole, fraction, exponent⟩), whole ++ pointed ++ scaled, rest⟩

/-- Goes on with an identifier. -/
def isNamePart (c : Char) : Bool := c.isAlphanum || c == '_'

def name (t : Text) : Lexeme :=
  ⟨.word (t.takeWhile isNamePart), t.takeWhile isNamePart, t.dropWhile isNamePart⟩

/-- The content of a string up to its closing delimiter, how it is spelled with the delimiter,
and the rest. A doubled delimiter stands for one; a string ends on its line. -/
def stringBody (delimiter : Char) : Text → Option (Text × Text × Text)
  | [] => none
  | [c] => if c = delimiter then some ([], [c], []) else none
  | c :: d :: t =>
    if c = delimiter then
      if d = delimiter then
        (stringBody delimiter t).map fun (content, spelling, rest) =>
          (c :: content, c :: d :: spelling, rest)
      else some ([], [c], d :: t)
    else if c = '\n' then none
    else
      (stringBody delimiter (d :: t)).map fun (content, spelling, rest) =>
        (c :: content, c :: spelling, rest)

def string (delimiter : Char) (t : Text) : Except SyntaxCause Lexeme :=
  match stringBody delimiter t with
  | some (content, spelling, rest) => .ok ⟨.quoted content, delimiter :: spelling, rest⟩
  | none => .error .unterminatedString

/-- The operator that a character and the one after it begin, and whether it takes both. -/
def operator? (c : Char) (next : Option Char) : Option (TokenKind × Bool) :=
  match c, next with
  | '.', some '*' => some (.dotStar, true)
  | '.', some '/' => some (.dotSlash, true)
  | '.', some '^' => some (.dotCaret, true)
  | '.', some '\x27' => some (.transpose, true)
  | '=', some '=' => some (.equal, true)
  | '~', some '=' => some (.notEqual, true)
  | '!', some '=' => some (.notEqual, true)
  | '<', some '=' => some (.lessEqual, true)
  | '>', some '=' => some (.greaterEqual, true)
  | '&', some '&' => some (.andAnd, true)
  | '|', some '|' => some (.orOr, true)
  | '.', _ => some (.dot, false)
  | '=', _ => some (.assign, false)
  | '~', _ => some (.not, false)
  | '!', _ => some (.not, false)
  | '<', _ => some (.less, false)
  | '>', _ => some (.greater, false)
  | '&', _ => some (.and, false)
  | '|', _ => some (.or, false)
  | '+', _ => some (.plus, false)
  | '-', _ => some (.minus, false)
  | '*', _ => some (.star, false)
  | '/', _ => some (.slash, false)
  | '^', _ => some (.caret, false)
  | ',', _ => some (.comma, false)
  | ';', _ => some (.semicolon, false)
  | ':', _ => some (.colon, false)
  | '\n', _ => some (.newline, false)
  | '(', _ => some (.opening .round, false)
  | '[', _ => some (.opening .square, false)
  | '\x7b', _ => some (.opening .curly, false)
  | ')', _ => some (.closing .round, false)
  | ']', _ => some (.closing .square, false)
  | '\x7d', _ => some (.closing .curly, false)
  | _, _ => none

/-- The lexeme that begins with `c`. `transposes` says whether an apostrophe here transposes. -/
def lexeme (transposes : Bool) (c : Char) (t : Text) : Except SyntaxCause Lexeme :=
  if c.isDigit || (c = '.' && t.head?.any Char.isDigit) then .ok (numeral (c :: t))
  else if c.isAlpha then .ok (name (c :: t))
  else if c = '\x27' && transposes then .ok ⟨.transpose, [c], t⟩
  else if c = '\x27' || c = '"' then string c t
  else
    match operator? c t.head? with
    | some (kind, true) => .ok ⟨kind, c :: t.take 1, t.drop 1⟩
    | some (kind, false) => .ok ⟨kind, [c], t⟩
    | none => .error (.unexpectedCharacter c)

theorem fractionPart_append (t : Text) : (fractionPart t).2.1 ++ (fractionPart t).2.2 = t := by
  unfold fractionPart
  split
  · split <;> simp
  · simp

theorem exponentSign_append (t : Text) : (exponentSign t).1 ++ (exponentSign t).2 = t := by
  unfold exponentSign
  split <;> simp

theorem exponentPart_append (t : Text) : (exponentPart t).2.1 ++ (exponentPart t).2.2 = t := by
  cases t with
  | nil => rfl
  | cons e t =>
    have h := exponentSign_append t
    simp only [exponentPart]
    split
    · simp [h]
    · rfl

theorem numeral_append (t : Text) : (numeral t).spelling ++ (numeral t).rest = t := by
  have h := fractionPart_append (t.dropWhile Char.isDigit)
  have h' := exponentPart_append (fractionPart (t.dropWhile Char.isDigit)).2.2
  simp only [numeral, List.append_assoc, h', h, List.takeWhile_append_dropWhile]

theorem name_append (t : Text) : (name t).spelling ++ (name t).rest = t :=
  List.takeWhile_append_dropWhile

theorem stringBody_append {delimiter : Char} {t content spelling rest : Text}
    (h : stringBody delimiter t = some (content, spelling, rest)) : spelling ++ rest = t := by
  fun_induction stringBody delimiter t generalizing content spelling rest with
  | case1 => simp at h
  | case2 => simp_all
  | case3 => simp at h
  | case4 t ih =>
    obtain ⟨⟨a, b, r⟩, hr, he⟩ := Option.map_eq_some_iff.1 h
    simp only [Prod.mk.injEq] at he
    obtain ⟨-, rfl, rfl⟩ := he
    simp [ih hr]
  | case5 d t hd =>
    simp only [Option.some.injEq, Prod.mk.injEq] at h
    obtain ⟨-, rfl, rfl⟩ := h
    rfl
  | case6 => simp at h
  | case7 c d t _ _ ih =>
    obtain ⟨⟨a, b, r⟩, hr, he⟩ := Option.map_eq_some_iff.1 h
    simp only [Prod.mk.injEq] at he
    obtain ⟨-, rfl, rfl⟩ := he
    simp [ih hr]

theorem numeral_spelling_ne_nil {c : Char} {t : Text}
    (h : (c.isDigit || (c = '.' && t.head?.any Char.isDigit)) = true) :
    (numeral (c :: t)).spelling ≠ [] := by
  simp only [numeral]
  by_cases hc : c.isDigit
  · simp [hc]
  · cases t with
    | nil => simp_all
    | cons d t =>
      have hd : d.isDigit = true ∧ c = '.' := by simp_all
      have : opensOperator (d :: t) = false := by
        rcases hd with ⟨hd, -⟩
        simp only [opensOperator, Bool.or_eq_false_iff, beq_eq_false_iff_ne]
        refine ⟨⟨⟨⟨?_, ?_⟩, ?_⟩, ?_⟩, ?_⟩ <;> (rintro rfl; simp [Char.isDigit] at hd)
      simp [hd.2, List.takeWhile_cons, Char.isDigit, fractionPart, this]

/-- A lexeme is a piece at the front of the text, and never the empty one. -/
theorem lexeme_append {transposes : Bool} {c : Char} {t : Text} {l : Lexeme}
    (h : lexeme transposes c t = .ok l) : l.spelling ++ l.rest = c :: t ∧ l.spelling ≠ [] := by
  unfold lexeme at h
  split at h
  · next hc =>
    cases h
    exact ⟨numeral_append _, numeral_spelling_ne_nil hc⟩
  split at h
  · next hc =>
    cases h
    refine ⟨name_append _, ?_⟩
    simp [name, isNamePart, Char.isAlphanum, hc]
  split at h
  · cases h; simp
  split at h
  · unfold string at h
    split at h
    · next hb => cases h; simp [stringBody_append hb]
    · cases h
  split at h
  · cases h; exact ⟨congrArg (c :: ·) (List.take_append_drop 1 t), List.cons_ne_nil _ _⟩
  · cases h; simp
  · cases h

theorem lexeme_rest_length {transposes : Bool} {c : Char} {t : Text} {l : Lexeme}
    (h : lexeme transposes c t = .ok l) : l.rest.length ≤ t.length := by
  obtain ⟨h, hn⟩ := lexeme_append h
  have := congrArg List.length h
  have := List.length_pos_iff.2 hn
  simp at *
  omega

/-! ## The scan -/

/-- What has been read so far. -/
structure Scan where
  line : Nat
  offset : Nat
  /-- The brackets that are open, innermost first. -/
  groups : List Bracket
  /-- Whether blanks or a continuation stand between the last token and here. -/
  spaced : Bool
  /-- The tokens read, latest first. -/
  tokens : List Token

namespace Scan

def start : Scan := ⟨1, 0, [], false, []⟩

/-- Moves over characters. -/
def pass (s : Scan) (t : Text) : Scan :=
  { s with offset := s.offset + t.byteLength, line := s.line + t.lineBreaks }

/-- Adds a token that starts here. -/
def emit (s : Scan) (kind : TokenKind) : Scan :=
  { s with tokens := ⟨kind, s.line, s.offset⟩ :: s.tokens }

def afterOperand (s : Scan) : Bool := s.tokens.head?.any (·.kind.endsOperand)

def concatenates (s : Scan) : Bool := s.groups.head?.any (·.concatenates)

def fail {α : Type} (s : Scan) (cause : SyntaxCause) : Except SyntaxError α :=
  .error ⟨s.line, cause⟩

/-- Opens or closes a bracket. -/
def regroup (s : Scan) : TokenKind → Except SyntaxError Scan
  | .opening b => .ok { s with groups := b :: s.groups }
  | .closing b =>
    match s.groups with
    | innermost :: outer =>
      if innermost = b then .ok { s with groups := outer } else s.fail (.unbalanced b)
    | [] => s.fail (.unbalanced b)
  | _ => .ok s

/-- The kind under which a token counts: a line break that ends a row of a bracket is a
semicolon. -/
def settledKind (s : Scan) (kind : TokenKind) : TokenKind :=
  if kind == .newline && s.concatenates then .semicolon else kind

/-- Adds a lexeme's token and moves over it. -/
def take (s : Scan) (l : Lexeme) : Except SyntaxError Scan := do
  let kind := s.settledKind l.kind
  let grouped ← s.regroup kind
  return { ((grouped.emit kind).pass l.spelling) with spaced := false }

end Scan

/-- Whether a character that follows blanks inside brackets begins a new element; a sign does so
only if its operand follows at once. -/
def startsElement (c : Char) (next : Option Char) : Bool :=
  if c = '+' || c = '-' then next.any fun n => !isBlank n && n != '='
  else if c = '~' || c = '!' then next != some '='
  else if c = '.' then next.any Char.isDigit
  else c = '\x27' || c = '"' || c = '(' || c = '[' || c = '\x7b' || c.isAlphanum

/-- The text up to the end of the line, and the rest, which starts with the line break. -/
def restOfLine (t : Text) : Text × Text := (t.takeWhile (· ≠ '\n'), t.dropWhile (· ≠ '\n'))

/-- Three dots begin a continuation. -/
def startsContinuation : Text → Bool
  | '.' :: '.' :: '.' :: _ => true
  | _ => false

/-- A continuation runs from its dots through the line break. -/
def continuation (t : Text) : Text × Text :=
  match restOfLine t with
  | (tail, '\n' :: rest) => (tail ++ ['\n'], rest)
  | (tail, rest) => (tail, rest)

theorem dropWhile_length_le {α : Type} (p : α → Bool) (l : List α) :
    (l.dropWhile p).length ≤ l.length :=
  (List.dropWhile_suffix p).length_le

theorem restOfLine_length (t : Text) : (restOfLine t).2.length ≤ t.length :=
  dropWhile_length_le _ t

theorem continuation_length (t : Text) : (continuation t).2.length ≤ t.length := by
  have h := restOfLine_length t
  unfold continuation
  split
  · next heq => rw [heq] at h; simp at h; dsimp only; omega
  · next heq => rw [heq] at h; exact h

/-- Reads the rest of a script. -/
def scan (s : Scan) : Text → Except SyntaxError (List Token)
  | [] =>
    match s.groups with
    | innermost :: _ => s.fail (.unclosed innermost)
    | [] => .ok s.tokens.reverse
  | c :: t =>
    if c = ' ' || c = '\t' || c = '\r' then scan { s.pass [c] with spaced := true } t
    else if startsContinuation (c :: t) then
      scan { s.pass (c :: (continuation t).1) with spaced := true } (continuation t).2
    else if c = '%' then scan (s.pass (c :: (restOfLine t).1)) (restOfLine t).2
    else
      let separated :=
        if s.spaced && s.concatenates && s.afterOperand && startsElement c t.head? then
          s.emit .comma
        else s
      match _h : lexeme (separated.afterOperand && !s.spaced) c t with
      | .error cause => separated.fail cause
      | .ok l =>
        match separated.take l with
        | .error e => .error e
        | .ok next => scan next l.rest
termination_by t => t.length
decreasing_by
  · simp
  · have := continuation_length t; simp; omega
  · have := restOfLine_length t; simp; omega
  · have := lexeme_rest_length _h; simp; omega

/-- The tokens of a script. -/
def tokenize (source : Text) : Except SyntaxError (List Token) := scan .start source

end ConfigScript.Token
