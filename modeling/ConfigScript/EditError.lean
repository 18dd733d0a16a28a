import ConfigScript.Runner
import ConfigScript.Files.FileSystem
/-!
# Errors of an edit

Why a script cannot be read, searched, edited or restored. `EditError.message` holds the wording.
-/

namespace ConfigScript

/-- Which text was running. -/
inductive Stage where
  | unchanged
  | instrumented
  | edited
deriving Repr, DecidableEq

def Stage.name : Stage → String
  | unchanged => "original"
  | instrumented => "instrumented"
  | edited => "edited"

/-- Why the assignments of a script cannot be told apart by running it. -/
inductive TraceFault where
  | reservedCharacter
  | reservedName
  | nothingRan
  | kind (got : ValueKind)
  | unbound
  | badId (id : Float) (count : Nat)
  | missing (id : Nat)

/-- The variable that a traced script collects ids in. -/
def traceName : Text := "cfgedit_trace__".toList

def TraceFault.message : TraceFault → String
  | reservedCharacter => "script contains a reserved control character"
  | reservedName => s!"script already uses the reserved name '{String.ofList traceName}'"
  | nothingRan => "no matched assignment was executed"
  | kind got => s!"trace recorded a {got.name} value"
  | unbound => "trace variable was not bound"
  | badId id count =>
    s!"trace recorded id {String.ofList (Number.Layout.plain.text id)} outside 1..={count}"
  | missing id => s!"no occurrence with id {id}"

/-- How the variables after an edit differ from what they should be. -/
inductive Difference where
  | changed (name : Text) (old new : Value)
  | lost (name : Text)
  | wrong (name : Text) (actual expected : Value)
  | unset (name : Text)

def Difference.message : Difference → String
  | changed name old new =>
    s!"'{String.ofList name}' would change from {String.ofList old.render} to " ++
      String.ofList new.render
  | lost name => s!"'{String.ofList name}' would no longer be defined"
  | wrong name actual expected =>
    s!"'{String.ofList name}' would be {String.ofList actual.render} instead of " ++
      String.ofList expected.render
  | unset name => s!"'{String.ofList name}' would not be defined"

/-- What cannot be done with a file. -/
inductive AccessFault where
  | read (error : FileError)
  | backUp (error : FileError)
  | write (error : FileError)
  | list (error : FileError)
  | restore (backup : Text) (error : FileError)
  | fileName

def AccessFault.message : AccessFault → String
  | read e => s!"not readable: {e.message}"
  | backUp e => s!"cannot create backup: {e.message}"
  | write e => s!"write failed: {e.message}"
  | list e => s!"cannot list directory: {e.message}"
  | restore backup e => s!"cannot restore from {String.ofList backup}: {e.message}"
  | fileName => "file name is not valid UTF-8"

/-- Why execution settings cannot be used. -/
inductive SettingsFault where
  | read (path : Text) (error : FileError)
  | content (path : Text)
  | absent (path : Text)
  | binding (error : EngineError)

def SettingsFault.message : SettingsFault → String
  | read path e => s!"cannot read {String.ofList path}: {e.message}"
  | content path => s!"invalid {String.ofList path}: TOML parse error"
  | absent path => s!"execution settings file {String.ofList path} does not exist"
  | binding e => s!"invalid pre-bound variable: {e.message}"

inductive EditError where
  | fileNotFound (path : Text)
  | invalidIdentifier (name : Text)
  | invalidValue (expression : Text) (source : EngineError)
  | variableNotFound (name : Text)
  | notAssigned (name : Text)
  | scriptFailed (stage : Stage) (source : EngineError)
  | inconsistent (fault : TraceFault)
  | unverified (difference : Difference)
  | access (path : Text) (fault : AccessFault)
  /-- An edit failed, and so did putting the first backup back. -/
  | rollbackFailed (cause : EditError) (target backup : Text) (reason : EditError)
  | settings (fault : SettingsFault)

namespace EditError

def message : EditError → String
  | fileNotFound path => s!"Config file not found: {String.ofList path}"
  | invalidIdentifier name => s!"Invalid identifier: '{String.ofList name}'"
  | invalidValue expression source =>
    s!"Value cannot be evaluated: {String.ofList expression}: {source.message}"
  | variableNotFound name =>
    s!"Variable not found: '{String.ofList name}' is not bound after running the script"
  | notAssigned name => s!"Variable '{String.ofList name}' is not assigned in script"
  | scriptFailed stage source => s!"Script failed ({stage.name}): {source.message}"
  | inconsistent fault => s!"Not all assignments correctly identified: {fault.message}"
  | unverified difference => s!"Config file can not be properly updated: {difference.message}"
  | access path fault => s!"Permission error on {String.ofList path}: {fault.message}"
  | rollbackFailed cause target backup reason =>
    s!"{cause.message}; restoring {String.ofList target} from backup " ++
      s!"{String.ofList backup} also failed ({reason.message}). " ++
      "Recover manually by copying the backup over the file."
  | settings fault => s!"Configuration error: {fault.message}"

/-- The messages of an error and its cause, from the outside in. -/
def chain : EditError → List String
  | e@(invalidValue _ source) => [e.message, source.message]
  | e@(scriptFailed _ source) => [e.message, source.message]
  | e => [e.message]

end EditError

end ConfigScript
