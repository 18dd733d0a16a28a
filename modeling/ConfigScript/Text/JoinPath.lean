import ConfigScript.Text.Basic
/-!
# Paths from parts

Parts of a path are joined by one separator each, whatever separators they begin or end with.
-/

namespace ConfigScript.Text

/-- The slash separates on every platform. -/
def isSeparator (separator c : Char) : Bool := c == '/' || c == separator

/-- `path` and then `part`. An empty text adds nothing. -/
def joinPath (separator : Char) (path part : Text) : Text :=
  if part.isEmpty then path
  else if path.isEmpty then part
  else
    (path.reverse.dropWhile (isSeparator separator)).reverse ++
      separator :: part.dropWhile (isSeparator separator)

/-- All parts, from the left. -/
def joinPaths (separator : Char) (parts : List Text) : Text :=
  parts.foldl (joinPath separator) []

end ConfigScript.Text
