import ConfigScript.EditError
import ConfigScript.Toml.Reader
/-!
# Settings files

Execution settings are kept in a TOML document. An entry that is missing has its default and an
entry of another name is passed over.
-/

namespace ConfigScript.Settings

/-! ## Decoding -/

def platformNamed? (name : Text) : Option Platform :=
  Platform.all.find? fun p => p.name.toList = name

/-- A platform by its name, or by the only name in a table that says nothing about it. -/
def platform? : Toml → Option Platform
  | .text name => platformNamed? name
  | .table _ [(name, t)] => if t.isEmpty then platformNamed? name else none
  | _ => none

def flag? : Toml → Option Bool
  | .flag b => some b
  | _ => none

def text? : Toml → Option Text
  | .text content => some content
  | _ => none

/-- The name under which a moment is found where a table is asked for. -/
def momentName : Text := "$__toml_private_datetime".toList

/-- A table of texts. -/
def texts? : Toml → Option (Table Text)
  | .table _ entries =>
    (entries.mapM fun (entry : Text × Toml) => (text? entry.2).map (entry.1, ·)).map Table.ofList
  | .moment m => some [(momentName, m.text)]
  | _ => none

/-- The entry of a name, decoded; `otherwise` if there is none. -/
def entryOr {α : Type} (entries : Toml.Entries) (name : String) (decode : Toml → Option α)
    (otherwise : α) : Option α :=
  match entries.lookup name.toList with
  | some t => decode t
  | none => some otherwise

/-- The settings in a document. -/
def ofToml? (entries : Toml.Entries) : Option Settings := do
  let default : Settings := {}
  let platform ← entryOr entries "platform" platform? default.platform
  let environment ← entryOr entries "environment" texts? default.environment
  let inheritEnvironment ← entryOr entries "inherit_environment" flag? default.inheritEnvironment
  let presets ← entryOr entries "variables" texts? default.presets
  return { platform, environment, inheritEnvironment, presets }

/-! ## Loading -/

/-- The settings in a file. -/
def load (fs : FileSystem) (path : Text) : Except SettingsFault Settings :=
  match fs.readText path with
  | .error e => .error (.read path e)
  | .ok content =>
    match Toml.read? content >>= ofToml? with
    | some s => .ok s
    | none => .error (.content path)

/-- The directory of a user's settings. -/
def userDirectory? (process : Table Text) : Option Text :=
  match process.lookup "XDG_CONFIG_HOME".toList with
  | some ('/' :: dir) => some ('/' :: dir)
  | _ =>
    match process.lookup "HOME".toList with
    | some (c :: home) => some (Path.join (c :: home) ".config".toList)
    | _ => none

/-- Where settings are looked for if no file is named. -/
def defaultPath? (process : Table Text) : Option Text :=
  (userDirectory? process).map fun dir =>
    Path.join (Path.join dir "cfgedit".toList) "context.toml".toList

/-- The settings to run under: those of the named file, else those of the default file if there
is one, else the default settings. -/
def resolve (fs : FileSystem) (process : Table Text) (path : Option Text) :
    Except SettingsFault Settings :=
  match path with
  | some path => if fs.has path then load fs path else .error (.absent path)
  | none =>
    match defaultPath? process with
    | some path => if fs.isFile path then load fs path else .ok {}
    | none => .ok {}

end ConfigScript.Settings
