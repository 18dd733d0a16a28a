import ConfigScript.CommandLine.Arguments
import ConfigScript.Editor
import ConfigScript.Logging
import ConfigScript.Settings.File
import ConfigScript.Value.Json
/-!
# The command line program

A run starts logging, finds the settings, carries out one command and answers in plain text or in
JSON. Everything it does to files is in the file system that it gives back.
-/

namespace ConfigScript

namespace CommandLine

/-- Why a command fails. -/
inductive Fault where
  | edit (error : EditError)
  /-- A pre-bound variable of the settings cannot be evaluated. -/
  | seeds (error : EngineError)
  /-- A name without a value. -/
  | unpaired (name : Text)

/-- The messages of a fault and its causes, from the outside in. -/
def Fault.chain : Fault → List String
  | edit error => error.chain
  | seeds error =>
    "cannot prepare the script runtime" :: (EditError.settings (.binding error)).chain
  | unpaired name => [s!"set expects NAME VALUE pairs; '{String.ofList name}' has no value"]

def Fault.message (f : Fault) : String := ": ".intercalate f.chain

/-! ## Answers -/

def line (t : Text) : Text := t ++ ['\n']

def jsonLine (j : Json) : Text := line j.pretty

/-- Switches between plain text and JSON. -/
def answer (json : Bool) (plain : Text) (document : Json) : Text :=
  if json then jsonLine document else plain

def backupJson (b : Backup) : Json :=
  .ofMembers [("path", .string b.path), ("sequence", .integer b.sequence.toNat)]

def backupLine (b : Backup) : Text :=
  line (Text.padded 3 (Text.ofNat b.sequence.toNat) ++ '\t' :: b.path)

def bindingLine (binding : Text × Value) : Text :=
  line (binding.1 ++ " = ".toList ++ binding.2.render ++ [';'])

def occurrenceJson (o : LocatedOccurrence) : Json :=
  .ofMembers [("sequence_id", .integer o.id), ("start", .integer o.start),
    ("end", .integer o.stop), ("line", .integer o.line), ("text", .string o.text)]

def liveJson (a : LiveAssignment) : Json :=
  .ofMembers [("name", .string a.name), ("occurrences", .array (a.occurrences.map occurrenceJson)),
    ("live", .integer a.live)]

/-- An occurrence on one line, the live one marked. -/
def occurrenceLine (live : Nat) (o : LocatedOccurrence) : Text :=
  line ((if o.id = live then '*' else ' ') :: " [".toList ++ Text.ofNat o.id ++
    "] line ".toList ++ Text.ofNat o.line ++ ": ".toList ++ o.text.firstLine)

/-! ## Commands -/

/-- Names and values in turn as pairs. -/
def pairs : List Text → Except Fault (List (Text × Text))
  | [] => .ok []
  | name :: value :: rest => return (name, value) :: (← pairs rest)
  | [name] => .error (.unpaired name)

/-- An action of the editor that runs scripts by a runner. -/
abbrev Run := Edit.Action Unit

/-- What a command prints. -/
def answerTo (engine : Engine Unit) (json : Bool) : Command → Except Fault (Run Text)
  | .get file name => return do
    let v ← Editor.value engine file name
    let document : Json := .ofMembers [("name", .string name), ("value", v.toJson)]
    return answer json (line v.render) document.sorted
  | .set file name value more => do
    let edits := (name, value) :: (← pairs more)
    return do
      let backup ← Editor.setAll engine file edits
      let document : Json := .ofMembers [("backup", (backup.map backupJson).getD .null),
        ("file", .string file), ("updated", .array (edits.map fun e => .string e.1))]
      return answer json ((backup.map (line ·.path)).getD []) document
  | .show file => return do
    let w ← Editor.bindings engine file
    return answer json (w.flatMap bindingLine) (.object (Value.fieldsToJson w))
  | .locate file name => return do
    let a ← Editor.locate engine file name
    return answer json (a.occurrences.flatMap (occurrenceLine a.live)) (liveJson a)
  | .backups file => return do
    let found ← Editor.backups file
    return answer json (found.flatMap backupLine) (.array (found.map backupJson))
  | .restore file sequence => return do
    let b ← Editor.restore file sequence
    return answer json (line b.path)
      (.ofMembers [("file", .string file), ("restored_from", backupJson b)])

/-- What a run leaves behind. -/
structure Outcome where
  failed : Bool
  stdout : Text
  stderr : Text
  files : FileSystem

/-- The output of a fault. -/
def faultOutput (json : Bool) (f : Fault) : Text × Text :=
  let message := f.message.toList
  if json then
    (line (Json.ofMembers [("error", .bool true), ("message", .string message)]).compact, [])
  else ([], line ("error: ".toList ++ message))

/-- The runner for the settings that a run asks for. -/
def runner (i : Invocation) (process : Table Text) (fs : FileSystem) : Except Fault Runner :=
  match Settings.resolve fs process i.context with
  | .error fault => .error (.edit (.settings fault))
  | .ok settings =>
    match Runner.ofSettings settings process with
    | .ok r => .ok r
    | .error e => .error (.seeds e)

/-- Carries out a command on the files. -/
def perform (i : Invocation) (process : Table Text) (fs : FileSystem) :
    Except Fault Text × FileSystem :=
  match (do answerTo (← runner i process fs).engine i.json i.command) with
  | .error fault => (.error fault, fs)
  | .ok action =>
    match action.run ⟨fs, ()⟩ with
    | .ok output w => (.ok output, w.files)
    | .error e w => (.error (.edit e), w.files)

/-- The log settings of a run. -/
def logSettings (i : Invocation) (process : Table Text) : LogSettings :=
  (if i.verbose then LogSettings.verbose else {}).withEnvironment process

/-- Starts logging; a failure is only reported. -/
def startLog (i : Invocation) (process : Table Text) (fs : FileSystem) : Text × FileSystem :=
  match (logSettings i process).start fs with
  | .ok after => ([], after)
  | .error fault => (line s!"Failed to initialize logging: {fault.message}".toList, fs)

/-- A whole run. -/
def run (i : Invocation) (process : Table Text) (fs : FileSystem) : Outcome :=
  let (report, fs) := startLog i process fs
  match perform i process fs with
  | (.ok output, files) => ⟨false, output, report, files⟩
  | (.error fault, files) =>
    let (stdout, stderr) := faultOutput i.json fault
    ⟨true, stdout, report ++ stderr, files⟩

end CommandLine

end ConfigScript
