import ConfigScript.Edit.Occurrence
import ConfigScript.Text.Blank
/-!
# Replacing a value

A replacement keeps an occurrence up to its equals sign and the blanks behind it, byte for byte,
and puts the new value and a semicolon in place of the rest.
-/

namespace ConfigScript.Edit

/-- A value as it is written into a script: without blanks around it and without one semicolon
at its end. -/
def normalize (value : Text) : Text :=
  let trimmed := value.trim
  Text.trimEnd ((Text.dropTail? [';'] trimmed).getD trimmed)

/-- An occurrence up to its first equals sign and the blanks behind it; all of it if there is no
equals sign. -/
def leftSide (t : Text) : Text :=
  let name := t.takeWhile (· ≠ '=')
  match t.drop name.length with
  | [] => name
  | equals :: rest => name ++ equals :: rest.takeWhile Occurrence.isGap

/-- The script with the right side of an occurrence replaced. -/
def splice (script : Text) (o : Occurrence) (value : Text) : Text :=
  script.takeBytes o.start ++ leftSide (o.text script) ++ normalize value ++ ';' ::
    script.dropBytes o.stop

end ConfigScript.Edit
