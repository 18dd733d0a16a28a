import ConfigScript.EditError
/-!
# Script files and their backups

The backups of a script stand beside it under its stem, a marker and a number. A new backup takes
the number after the highest one there is.
-/

namespace ConfigScript

/-- A numbered backup. -/
structure Backup where
  path : Text
  sequence : UInt32
deriving Repr, DecidableEq

namespace Backup

/-- Stands between the stem and the number. -/
def marker : Text := ".bak".toList

/-- The name of a backup. -/
def fileName (stem : Text) (sequence : UInt32) : Text :=
  stem ++ marker ++ Text.padded 3 (Text.ofNat sequence.toNat)

/-- The number in a file name, if it is the name of a backup of `stem`. -/
def sequence? (stem name : Text) : Option UInt32 := do
  let numbered ← Text.dropHead? stem name
  let digits ← Text.dropHead? marker numbered
  if digits.isEmpty || !digits.all Char.isDigit then none
  else if Text.digitsValue digits < UInt32.size then
    some (UInt32.ofNat (Text.digitsValue digits))
  else none

def stemOf (path : Text) : Except EditError Text :=
  match Path.stem? path with
  | some stem => .ok stem
  | none => .error (.access path .fileName)

/-- Where the backup of a script with a given number stands. -/
def pathFor (path : Text) (sequence : UInt32) : Except EditError Text :=
  return Path.withFileName path (fileName (← stemOf path) sequence)

/-- The backups of a script, by number. -/
def all (fs : FileSystem) (path : Text) : Except EditError (List Backup) := do
  let stem ← stemOf path
  let dir := Path.directory path
  match fs.list dir with
  | .error e => .error (.access dir (.list e))
  | .ok names =>
    let found := names.filterMap fun name =>
      (sequence? stem name).map fun n => ⟨Path.join dir name, n⟩
    return found.mergeSort fun a b => a.sequence ≤ b.sequence

/-- The number of the next backup. -/
def next (fs : FileSystem) (path : Text) : Except EditError UInt32 := do
  let backups ← all fs path
  return (backups.getLast?.map (·.sequence)).getD 0 + 1

/-- Copies a backup over a file. -/
def copyBack (fs : FileSystem) (target backup : Text) : Except EditError FileSystem :=
  if fs.isFile backup then
    match fs.copy backup target with
    | .ok after => .ok after
    | .error e => .error (.access target (.restore backup e))
  else .error (.fileNotFound backup)

/-- The backup that a restore asks for: the one with the number, or the last one. -/
def choose? (backups : List Backup) (sequence : Option UInt32) : Option Backup :=
  match sequence with
  | some n => backups.find? (·.sequence = n)
  | none => backups.getLast?

/-- Copies a backup of a script over it. -/
def restore (fs : FileSystem) (path : Text) (sequence : Option UInt32) :
    Except EditError (Backup × FileSystem) := do
  match choose? (← all fs path) sequence with
  | some backup => return (backup, ← copyBack fs path backup.path)
  | none => .error (.fileNotFound (← pathFor path (sequence.getD 1)))

end Backup

/-- A script as it was read. -/
structure ScriptFile where
  path : Text
  content : Text

namespace ScriptFile

/-- Reads a script. -/
def read (fs : FileSystem) (path : Text) : Except EditError ScriptFile :=
  if fs.isFile path then
    match fs.readText path with
    | .ok content => .ok ⟨path, content⟩
    | .error e => .error (.access path (.read e))
  else .error (.fileNotFound path)

def encode (content : Text) : ByteArray := (String.ofList content).toUTF8

/-- Puts the content as read into the next backup. -/
def backup (file : ScriptFile) (fs : FileSystem) : Except EditError (Backup × FileSystem) := do
  let sequence ← Backup.next fs file.path
  let path ← Backup.pathFor file.path sequence
  match fs.writeNew path (encode file.content) with
  | .ok after => return (⟨path, sequence⟩, after)
  | .error e => .error (.access path (.backUp e))

/-- Overwrites the script; the last line gets a line break if it has none. -/
def write (file : ScriptFile) (fs : FileSystem) (content : Text) : Except EditError FileSystem :=
  match fs.write file.path (encode content.endLastLine) with
  | .ok after => .ok after
  | .error e => .error (.access file.path (.write e))

end ScriptFile

end ConfigScript
