import ConfigScript.Edit.Trace
import ConfigScript.Edit.Verification
import ConfigScript.Files.Backup
/-!
# The editor

Reading, locating and setting the variables of script files. The editor runs scripts through an
engine, which may keep a state of its own and may even touch files. An edit goes through a fixed
sequence of gates and writes last; what fails before leaves the file as it was.
-/

namespace ConfigScript

/-- The files, and the state of the engine. -/
structure World (σ : Type) where
  files : FileSystem
  engine : σ

/-- An action that may fail; what it did to the world before stays done. -/
abbrev Edit.Action (σ α : Type) := EStateM EditError (World σ) α

/-- Runs scripts and evaluates expressions. -/
structure Engine (σ : Type) where
  execute : Text → World σ → Except EngineError Workspace × World σ
  evaluate : Text → World σ → Except EngineError Value × World σ

/-- The runner as an engine that keeps no state and touches no files. -/
def Runner.engine {σ : Type} (r : Runner) : Engine σ where
  execute script w := (r.execute script, w)
  evaluate source w := (r.evaluate source, w)

/-- An assignment as it is reported. -/
structure LocatedOccurrence where
  id : Nat
  start : Nat
  stop : Nat
  line : Nat
  text : Text
deriving Repr, DecidableEq

/-- All assignments to a variable and the live one among them. -/
structure LiveAssignment where
  name : Text
  occurrences : List LocatedOccurrence
  live : Nat
deriving Repr, DecidableEq

def LiveAssignment.occurrence? (a : LiveAssignment) : Option LocatedOccurrence :=
  a.occurrences.find? (·.id = a.live)

/-- An edit that has passed the comparison. -/
structure Verified where
  live : Nat
  value : Value
  candidate : Text

namespace Editor

open Edit (Action)

variable {σ α : Type}

/-- A result, its error worded for the editor. -/
def lift {ε : Type} (wrap : ε → EditError) : Except ε α → Action σ α
  | .ok a => pure a
  | .error e => throw (wrap e)

/-- An action on the files. -/
def onFiles (f : FileSystem → Except EditError (α × FileSystem)) : Action σ α := do
  let w ← get
  let (a, files) ← lift id (f w.files)
  set { w with files }
  return a

/-- Looks at the files. -/
def readFiles (f : FileSystem → Except EditError α) : Action σ α := do
  lift id (f (← get).files)

def execute (engine : Engine σ) (stage : Stage) (script : Text) : Action σ Workspace := do
  let (result, w) := engine.execute script (← get)
  set w
  lift (.scriptFailed stage) result

def evaluate (engine : Engine σ) (expression : Text) : Action σ Value := do
  let (result, w) := engine.evaluate expression (← get)
  set w
  lift (.invalidValue expression) result

def checkName (name : Text) : Action σ Unit :=
  if isIdentifier name then pure () else throw (.invalidIdentifier name)

/-- The occurrences of a variable in masked text, of which there has to be one. -/
def findOccurrences (masked name : Text) : Except EditError (List Edit.Occurrence) :=
  match Edit.Occurrence.find masked name with
  | [] => .error (.notAssigned name)
  | occurrences => .ok occurrences

/-- Runs a traced script and tells which of `count` assignments is live. -/
def resolveLive (engine : Engine σ) (traced : Text) (count : Nat) : Action σ Nat := do
  let w ← execute engine .instrumented traced
  lift .inconsistent (Edit.liveId w count)

/-- Checks that the live assignment of `name` can get the new value with no other effect: runs
the traced script, evaluates the value, runs the script as it is and as it would be. -/
def verify (engine : Engine σ) (script name : Text) (occurrences : List Edit.Occurrence)
    (traced value : Text) : Action σ Verified := do
  let live ← resolveLive engine traced occurrences.length
  let expected ← evaluate engine (Edit.normalize value)
  let before ← execute engine .unchanged script
  match occurrences.find? (·.id = live) with
  | none => throw (.inconsistent (.missing live))
  | some occurrence =>
    let candidate := Edit.splice script occurrence value
    let after ← execute engine .edited candidate
    lift .unverified (Edit.compare before after name expected)
    return ⟨live, expected, candidate⟩

/-! ## Reading -/

/-- The variables that a script binds. -/
def bindings (engine : Engine σ) (path : Text) : Action σ Workspace := do
  let file ← readFiles (ScriptFile.read · path)
  execute engine .unchanged file.content

/-- The value that a script gives a variable. -/
def value (engine : Engine σ) (path name : Text) : Action σ Value := do
  checkName name
  match (← bindings engine path).lookup name with
  | some v => return v
  | none => throw (.variableNotFound name)

/-- The assignments to a variable and the live one among them. -/
def locate (engine : Engine σ) (path name : Text) : Action σ LiveAssignment := do
  checkName name
  let script := (← readFiles (ScriptFile.read · path)).content
  lift .inconsistent (Edit.checkTraceable script)
  let masked := Edit.sanitize script
  let occurrences ← lift id (findOccurrences masked name)
  let live ← resolveLive engine (Edit.instrument masked occurrences) occurrences.length
  let located := occurrences.map fun o => ⟨o.id, o.start, o.stop, o.line script, o.text script⟩
  return ⟨name, located, live⟩

/-! ## Writing -/

/-- Reads a script and verifies an edit of it; touches no file. -/
def prepare (engine : Engine σ) (path name value : Text) : Action σ (ScriptFile × Verified) := do
  checkName name
  let file ← readFiles (ScriptFile.read · path)
  let script := file.content
  lift .inconsistent (Edit.checkTraceable script)
  let masked := Edit.sanitize script
  let occurrences ← lift id (findOccurrences masked name)
  let traced := Edit.instrument masked occurrences
  let verified ← verify engine script name occurrences traced value
  return (file, verified)

/-- Writes a verified edit. -/
def commit (file : ScriptFile) (verified : Verified) : Action σ Unit :=
  onFiles fun fs => return ((), ← file.write fs verified.candidate)

/-- Gives the live assignment of a variable a new value. With `backUp` the script as read goes
into the next backup first. -/
def setValue (engine : Engine σ) (path name value : Text) (backUp : Bool) :
    Action σ (Option Backup) := do
  let (file, verified) ← prepare engine path name value
  if backUp then
    let backup ← onFiles file.backup
    commit file verified
    return some backup
  else
    commit file verified
    return none

/-- Puts the first backup of a failed batch back and fails with the error of the batch. -/
def rollBack (path : Text) (backup : Backup) (error : EditError) : Action σ α := do
  let w ← get
  match Backup.copyBack w.files path backup.path with
  | .ok files =>
    set { w with files }
    throw error
  | .error reason => throw (.rollbackFailed error path backup.path reason)

/-- The edits after the first of a batch. If one fails, the first backup is put back. -/
def setRest (engine : Engine σ) (path : Text) (backup : Backup) :
    List (Text × Text) → Action σ Unit
  | [] => pure ()
  | (name, value) :: rest => do
    tryCatch (discard <| setValue engine path name value false) (rollBack path backup)
    setRest engine path backup rest

/-- Applies edits in order. The first one takes a backup, and if any fails from there on, that
backup is put back. -/
def setAll (engine : Engine σ) (path : Text) : List (Text × Text) → Action σ (Option Backup)
  | [] => pure none
  | (name, value) :: rest => do
    let (file, verified) ← prepare engine path name value
    let backup ← onFiles file.backup
    tryCatch (commit file verified) (rollBack path backup)
    setRest engine path backup rest
    return some backup

/-! ## Backups -/

def backups (path : Text) : Action σ (List Backup) := readFiles (Backup.all · path)

def restore (path : Text) (sequence : Option UInt32) : Action σ Backup :=
  onFiles (Backup.restore · path sequence)

end Editor

end ConfigScript
