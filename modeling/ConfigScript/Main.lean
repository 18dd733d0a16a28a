import ConfigScript.CommandLine
/-!
# The program

`main` takes a picture of the files that a command may look at, runs the command on it and writes
back the files that have changed.
-/

namespace ConfigScript

namespace CommandLine

/-! ## Messages -/

def usage : String := "\n".intercalate [
  "Read and safely edit assignments in executable config scripts",
  "",
  "Usage: cfgedit [OPTIONS] <COMMAND>",
  "",
  "Commands:",
  "  get <FILE> <NAME>                           Print a variable",
  "  set <FILE> <NAME> <VALUE> [NAME VALUE]...   Change variables",
  "  show <FILE>                                 Print every variable",
  "  locate <FILE> <NAME>                        List the assignments to a variable",
  "  backups <FILE>                              List the backups of a script",
  "  restore <FILE> [-s <SEQUENCE>]              Copy a backup over the script",
  "",
  "Options:",
  "  -v, --verbose         Log more",
  "      --json            Answer in JSON",
  "  -c, --context <FILE>  Settings file",
  "  -h, --help            Print help",
  "  -V, --version         Print version"]

/-- Says why there is nothing to run. -/
def Refusal.report : Refusal → IO Unit
  | .help => IO.println usage
  | .version => IO.println "cfgedit 0.1.0"
  | .misuse => IO.eprintln usage

/-! ## The environment -/

/-- A variable from its name, an equals sign and its value. -/
def entry? (t : Text) : Option (Text × Text) :=
  match t.takeWhile (· ≠ '='), t.dropWhile (· ≠ '=') with
  | c :: name, _ :: value => some (c :: name, value)
  | _, _ => none

/-- The variables of the process. -/
def environment : IO (Table Text) := do
  match String.fromUTF8? (← IO.FS.readBinFile "/proc/self/environ") with
  | some block =>
    return Table.ofList ((block.splitOn "\x00").filterMap fun binding => entry? binding.toList)
  | none => return []

/-! ## Files -/

/-- A location as an absolute path. -/
def absolute (l : Location) : String := String.ofList ('/' :: Text.join ['/'] l)

/-- What stands at a location; nothing if it cannot be read. -/
def nodeAt (l : Location) : IO (Option Node) := do
  try
    let path ← IO.FS.realPath (absolute l)
    match (← path.metadata).type with
    | .dir => return some .directory
    | .file => return some (.file (← IO.FS.readBinFile path))
    | _ => return none
  catch _ => return none

/-- Adds everything that names lead through from a location. -/
def addAlong (fs : FileSystem) (l : Location) : List Text → IO FileSystem
  | [] => return fs
  | name :: rest => do
    let next := l.step name
    match ← nodeAt next with
    | some node => addAlong (if next.isEmpty then fs else fs.put next node) next rest
    | none => return fs

/-- Adds what a path leads to. -/
def addPath (fs : FileSystem) (path : Text) : IO FileSystem :=
  addAlong fs (fs.start path) (Path.steps path)

/-- The names in a directory. -/
def namesIn (fs : FileSystem) (dir : Text) : IO (List Text) := do
  match fs.locate dir with
  | .ok l =>
    try
      let entries ← (← IO.FS.realPath (absolute l)).readDir
      return entries.toList.map (·.fileName.toList)
    catch _ => return []
  | .error _ => return []

/-- Adds the backups of a script. -/
def addBackups (fs : FileSystem) (script : Text) : IO FileSystem := do
  match Path.stem? script with
  | some stem =>
    let dir := Path.directory script
    let names := (← namesIn fs dir).filter fun name => (Backup.sequence? stem name).isSome
    (names.map (Path.join dir)).foldlM addPath fs
  | none => return fs

/-- The files that a run may look at. -/
def picture (i : Invocation) (process : Table Text) : IO FileSystem := do
  let current := Path.names (← IO.currentDir).toString.toList
  let fs ← addAlong ⟨[], current⟩ [] current
  let paths := [some i.command.file, i.context.or (Settings.defaultPath? process),
    (logSettings i process).filePath]
  addBackups (← (paths.filterMap id).foldlM addPath fs) i.command.file

/-- Writes the files that have changed. -/
def store (before after : FileSystem) : IO Unit :=
  after.nodes.forM fun (l, node) =>
    match node, before.node? l with
    | .directory, _ => return
    | .file content, some (.file old) =>
      if content == old then return else IO.FS.writeBinFile (absolute l) content
    | .file content, _ => IO.FS.writeBinFile (absolute l) content

/-- Runs the program on its arguments and gives its exit code. -/
def program (args : List String) : IO UInt32 := do
  match read (args.map (·.toList)) with
  | .error refusal =>
    refusal.report
    return UInt32.ofNat refusal.code
  | .ok invocation =>
    let process ← environment
    let before ← picture invocation process
    let outcome := run invocation process before
    store before outcome.files
    IO.print (String.ofList outcome.stdout)
    IO.eprint (String.ofList outcome.stderr)
    return if outcome.failed then 1 else 0

end CommandLine

end ConfigScript

def main (args : List String) : IO UInt32 := ConfigScript.CommandLine.program args
