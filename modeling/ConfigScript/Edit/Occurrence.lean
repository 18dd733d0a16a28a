import ConfigScript.Text.WordCharacter
/-!
# Occurrences of an assignment

An occurrence is a statement `name = …;` as it stands in masked text: the name at a word boundary
and not behind a dot, blanks, one equals sign, and anything on the line up to a semicolon.
-/

namespace ConfigScript.Edit

/-- A statement that assigns to a variable, by its byte offsets. -/
structure Occurrence where
  start : Nat
  stop : Nat
  /-- Counted from one in the order of the script. -/
  id : Nat
deriving Repr, DecidableEq, Inhabited

namespace Occurrence

def text (o : Occurrence) (script : Text) : Text := script.slice o.start o.stop

/-- The line on which the statement starts. -/
def line (o : Occurrence) (script : Text) : Nat := (script.takeBytes o.start).lineBreaks + 1

/-- Separates a name from its equals sign. -/
def isGap (c : Char) : Bool := c = ' ' || c = '\t'

theorem isGap_iff {c : Char} : isGap c = true ↔ c = ' ' ∨ c = '\t' := by simp [isGap]

/-- The text from the equals sign through the semicolon, if `t` begins with blanks and an equals
sign that lead to a semicolon on their line. -/
def rightSide? (t : Text) : Option Text :=
  match t.dropWhile isGap with
  | '=' :: value =>
    let body := value.takeWhile fun c => c ≠ ';' && c ≠ '\n'
    match value.drop body.length with
    | ';' :: _ => some ('=' :: body ++ [';'])
    | _ => none
  | _ => none

/-- The statement that begins here, spelled out, if `name` with blanks, an equals sign and a
semicolon stands here. -/
def shape? (name t : Text) : Option Text := do
  let afterName ← Text.dropHead? name t
  let right ← rightSide? afterName
  return name ++ afterName.takeWhile isGap ++ right

/-- Whether the equals sign behind `name` is the first of two. -/
def comparesAfter (name t : Text) : Bool :=
  match (t.drop name.length).dropWhile isGap with
  | '=' :: '=' :: _ => true
  | _ => false

/-- The last character of a text, or else the one in front of it. -/
def lastOr (before : Option Char) (t : Text) : Option Char := t.getLast?.or before

/-- The byte spans of the statements in a text whose first character has the offset `offset` and
is preceded by `before`. Behind a name that is compared or is a field the search goes on after
the name. -/
def spans (name : Text) (before : Option Char) (offset : Nat) (t : Text) : List (Nat × Nat) :=
  match t with
  | [] => []
  | c :: rest =>
    let pass (n : Nat) : List (Nat × Nat) :=
      let skipped : Text := c :: rest.take n
      spans name (lastOr before skipped) (offset + skipped.byteLength) (rest.drop n)
    if isWordBoundary before (some c) then
      match shape? name (c :: rest) with
      | none => pass 0
      | some statement =>
        if comparesAfter name (c :: rest) || before = some '.' then pass (name.length - 1)
        else (offset, offset + statement.byteLength) :: pass (statement.length - 1)
    else pass 0
termination_by t.length
decreasing_by all_goals (simp only [List.length_drop, List.length_cons]; omega)

/-- The occurrences of assignments to `name` in masked text. -/
def find (masked name : Text) : List Occurrence :=
  (spans name none 0 masked).mapIdx fun i (start, stop) => ⟨start, stop, i + 1⟩

end Occurrence

end ConfigScript.Edit
