import ConfigScript.Text.Basic
/-!
# Paths

A path is a text of names between slashes. Its file name is the last name, whatever idle slashes
and dots follow; everything before is the directory, kept as it is written.
-/

namespace ConfigScript.Path

/-- The pieces between slashes. -/
def pieces : Text → List Text
  | [] => [[]]
  | c :: t =>
    if c = '/' then [] :: pieces t
    else
      match pieces t with
      | [] => [[c]]
      | piece :: more => (c :: piece) :: more

/-- The slash or the single dot that a path starts with, and the rest. -/
def lead : Text → Text × Text
  | '/' :: t => (['/'], t)
  | ['.'] => (['.'], [])
  | '.' :: '/' :: t => (['.'], '/' :: t)
  | t => ([], t)

/-- Empty pieces and single dots name nothing. -/
def isIdle (piece : Text) : Bool := piece.isEmpty || piece = ['.']

/-- The pieces of a path after its lead, idle ones at the end dropped, the last first. -/
def namesBackwards (path : Text) : List Text :=
  ((pieces (lead path).2).reverse).dropWhile isIdle

/-- The last name of a path. A step up is no name. -/
def fileName? (path : Text) : Option Text :=
  match namesBackwards path with
  | [] => none
  | name :: _ => if name = "..".toList then none else some name

/-- The path without its last name. -/
def parent (path : Text) : Text :=
  (lead path).1 ++ Text.join ['/'] ((namesBackwards path).drop 1 |>.dropWhile isIdle).reverse

/-- The directory of a path, the current one for a bare name. -/
def directory (path : Text) : Text :=
  let dir := parent path
  if dir.isEmpty then ['.'] else dir

/-- A name up to its last dot, unless that dot comes first. -/
def stemOf (name : Text) : Text :=
  let afterDot := name.reverse.dropWhile (· ≠ '.')
  let front := (afterDot.drop 1).reverse
  if front.isEmpty then name else front

/-- The file name without its extension. -/
def stem? (path : Text) : Option Text := (fileName? path).map stemOf

/-- A name inside a directory. -/
def join (dir name : Text) : Text :=
  if dir.isEmpty || dir.getLast? = some '/' then dir ++ name else dir ++ '/' :: name

/-- The path with another last name. -/
def withFileName (path name : Text) : Text :=
  join (if (fileName? path).isSome then parent path else path) name

/-- The names in a path. -/
def names (path : Text) : List Text := (pieces path).filter (!·.isEmpty)

/-- The names that lead to a path; a slash at the end asks for a directory, as a dot does. -/
def steps (path : Text) : List Text :=
  if path.getLast? = some '/' then names path ++ [['.']] else names path

end ConfigScript.Path
