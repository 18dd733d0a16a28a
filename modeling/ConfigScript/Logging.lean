import ConfigScript.Files.FileSystem
import ConfigScript.Table
import ConfigScript.Text.LetterCase
/-!
# Log settings

What is logged, how and where to. The settings start from a base and are changed by variables of
the process environment; a variable that cannot be read changes nothing.
-/

namespace ConfigScript

inductive LogLevel where
  | trace
  | debug
  | info
  | warn
  | error
deriving Repr, DecidableEq, Inhabited

inductive LogFormat where
  | pretty
  | compact
  | json
deriving Repr, DecidableEq, Inhabited

inductive LogOutput where
  | stderr
  | file
deriving Repr, DecidableEq, Inhabited

/-- A word that names no level, format or output. -/
inductive LogFault where
  | level (word : Text)
  | format (word : Text)
  | output (word : Text)
deriving Repr, DecidableEq

def LogFault.message : LogFault → String
  | level word => s!"Invalid log level: {String.ofList word}"
  | format word => s!"Invalid log format: {String.ofList word}"
  | output word => s!"Invalid log output: {String.ofList word}"

/-- The entry that a word names, in whatever case it is written. -/
def readWord {α : Type} (entries : List (String × α)) (word : Text) : Option α :=
  entries.lookup (String.ofList word.lower)

def LogLevel.read (word : Text) : Except LogFault LogLevel :=
  match readWord [("trace", LogLevel.trace), ("debug", .debug), ("info", .info), ("warn", .warn),
      ("error", .error)] word with
  | some level => .ok level
  | none => .error (.level word)

def LogFormat.read (word : Text) : Except LogFault LogFormat :=
  match readWord [("pretty", LogFormat.pretty), ("compact", .compact), ("json", .json)] word with
  | some format => .ok format
  | none => .error (.format word)

def LogOutput.read (word : Text) : Except LogFault LogOutput :=
  match readWord [("stderr", LogOutput.stderr), ("file", .file)] word with
  | some output => .ok output
  | none => .error (.output word)

structure LogSettings where
  level : LogLevel := .warn
  format : LogFormat := .compact
  output : LogOutput := .stderr
  filePath : Option Text := none
  /-- Whether events tell the place in the program they come from. -/
  includeSource : Bool := false
deriving Repr, DecidableEq

namespace LogSettings

/-- The settings of a run that is asked to be verbose. -/
def verbose : LogSettings := { level := .debug, includeSource := true }

/-- The value of a variable, read; `otherwise` if it is not set or cannot be read. -/
def readOr {ε α : Type} (otherwise : α) (read : Text → Except ε α) (setting : Option Text) : α :=
  match setting with
  | none => otherwise
  | some word =>
    match read word with
    | .ok a => a
    | .error _ => otherwise

/-- The settings changed as the environment says. -/
def withEnvironment (s : LogSettings) (environment : Table Text) : LogSettings :=
  let of (name : String) : Option Text := environment.lookup name.toList
  { level := readOr s.level LogLevel.read (of "CFGEDIT_LOG_LEVEL")
    format := readOr s.format LogFormat.read (of "CFGEDIT_LOG_FORMAT")
    output := readOr s.output LogOutput.read (of "CFGEDIT_LOG_OUTPUT")
    filePath := (of "CFGEDIT_LOG_FILE").or s.filePath
    includeSource :=
      match of "CFGEDIT_LOG_SOURCE" with
      | some word => word.lower = "true".toList
      | none => s.includeSource }

end LogSettings

/-- Why logging cannot start. -/
inductive LogStartFault where
  | noPath
  | file (error : FileError)

def LogStartFault.message : LogStartFault → String
  | noPath => "File path required for file output"
  | file error => error.message

/-- Makes sure that the log file is there if logs go to a file. -/
def LogSettings.start (s : LogSettings) (fs : FileSystem) : Except LogStartFault FileSystem :=
  match s.output, s.filePath with
  | .stderr, _ => .ok fs
  | .file, none => .error .noPath
  | .file, some path =>
    match fs.touch path with
    | .ok after => .ok after
    | .error e => .error (.file e)

end ConfigScript
