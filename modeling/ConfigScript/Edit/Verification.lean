import ConfigScript.EditError
import ConfigScript.Edit.Replacement
/-!
# Comparing variables before and after

An edit is accepted if every variable but the edited one keeps an equivalent value and the edited
one has the value that was asked for.
-/

namespace ConfigScript.Edit

/-- Every variable of `before` but `name` is in `after` with an equivalent value. -/
def checkKept (after : Workspace) (name : Text) : Workspace → Except Difference Unit
  | [] => .ok ()
  | (n, old) :: rest =>
    if n = name then checkKept after name rest
    else
      match after.lookup n with
      | none => .error (.lost n)
      | some new =>
        if old.equivalent new then checkKept after name rest else .error (.changed n old new)

/-- The edited variable has the expected value. -/
def checkEdited (after : Workspace) (name : Text) (expected : Value) : Except Difference Unit :=
  match after.lookup name with
  | none => .error (.unset name)
  | some actual =>
    if actual.equivalent expected then .ok () else .error (.wrong name actual expected)

/-- Whether the variables after an edit of `name` are what they should be. -/
def compare (before after : Workspace) (name : Text) (expected : Value) :
    Except Difference Unit := do
  checkKept after name before
  checkEdited after name expected

end ConfigScript.Edit
