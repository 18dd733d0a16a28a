import ConfigScript.Files.Path
/-!
# The file system

Directories and files as a value. A location is the list of names from the root; a path is
resolved to one step by step, and every step but the last has to be a directory. Each operation
either fails and changes nothing, or gives the file system after it.
-/

namespace ConfigScript

/-- The names from the root to a file or directory. -/
abbrev Location := List Text

/-- Where a name leads. A dot stays, and two dots go up. -/
def Location.step (l : Location) (name : Text) : Location :=
  if name = ['.'] then l else if name = "..".toList then l.dropLast else l ++ [name]

inductive Node where
  | directory
  | file (content : ByteArray)
deriving Inhabited

/-- Why a file operation fails. -/
inductive FileError where
  | notFound
  | taken
  | notDirectory
  | isDirectory
  | nameTooLong
  | notText
  | nulByte
deriving Repr, DecidableEq, Inhabited

def FileError.message : FileError → String
  | notFound => "No such file or directory (os error 2)"
  | taken => "File exists (os error 17)"
  | notDirectory => "Not a directory (os error 20)"
  | isDirectory => "Is a directory (os error 21)"
  | nameTooLong => "File name too long (os error 36)"
  | notText => "stream did not contain valid UTF-8"
  | nulByte => "file name contained an unexpected NUL byte"

structure FileSystem where
  /-- Everything there is below the root, in order of creation. -/
  nodes : List (Location × Node)
  /-- Where relative paths start. -/
  current : Location

namespace FileSystem

/-- What is at a location. -/
def node? (fs : FileSystem) (l : Location) : Option Node :=
  if l.isEmpty then some .directory else fs.nodes.lookup l

def replace (l : Location) (n : Node) : List (Location × Node) → List (Location × Node)
  | [] => [(l, n)]
  | (k, m) :: rest => if k = l then (k, n) :: rest else (k, m) :: replace l n rest

/-- Puts a node at a location. -/
def put (fs : FileSystem) (l : Location) (n : Node) : FileSystem :=
  { fs with nodes := replace l n fs.nodes }

theorem lookup_replace (l : Location) (n : Node) (k : Location) (nodes : List (Location × Node)) :
    (replace l n nodes).lookup k = if k = l then some n else nodes.lookup k := by
  induction nodes with
  | nil =>
    by_cases hk : k = l
    · simp [replace, hk]
    · simp [replace, List.lookup_cons, beq_eq_false_iff_ne.2 hk, hk]
  | cons p rest ih =>
    obtain ⟨j, m⟩ := p
    simp only [replace]
    split
    · next h =>
      subst h
      by_cases hk : k = j
      · simp [hk]
      · simp [List.lookup_cons, beq_eq_false_iff_ne.2 hk, hk]
    · next h =>
      by_cases hk : k = j
      · subst hk; simp [h]
      · simp [List.lookup_cons, beq_eq_false_iff_ne.2 hk, ih]

/-- What is put is there, and nothing else changes. -/
theorem node?_put (fs : FileSystem) {l : Location} (hl : l ≠ []) (n : Node) (k : Location) :
    (fs.put l n).node? k = if k = l then some n else fs.node? k := by
  unfold node?
  by_cases hk : k = []
  · subst hk; simp [Ne.symm hl]
  · simp [hk, put, lookup_replace]

/-! ## Resolving paths -/

/-- The longest name, and the longest path with its end mark, in bytes. -/
def maxName : Nat := 255

def maxPath : Nat := 4096

/-- Goes from a location along names. The last one need not exist. -/
def walk (fs : FileSystem) (l : Location) : List Text → Except FileError Location
  | [] => .ok l
  | name :: rest =>
    match fs.node? l with
    | none => .error .notFound
    | some (.file _) => .error .notDirectory
    | some .directory =>
      if maxName < Text.byteLength name then .error .nameTooLong else walk fs (l.step name) rest

/-- Where a path starts. -/
def start (fs : FileSystem) (path : Text) : Location :=
  if path.head? = some '/' then [] else fs.current

/-- The location that names lead to from where the path starts. -/
def follow (fs : FileSystem) (path : Text) (steps : List Text) : Except FileError Location :=
  if path.contains '\x00' then .error .nulByte
  else if path.isEmpty then .error .notFound
  else if maxPath ≤ Text.byteLength path then .error .nameTooLong
  else fs.walk (fs.start path) steps

/-- The location of a path, whether or not something is there. -/
def locate (fs : FileSystem) (path : Text) : Except FileError Location :=
  fs.follow path (Path.steps path)

/-- What a path leads to. -/
def find (fs : FileSystem) (path : Text) : Except FileError (Location × Node) := do
  let l ← fs.locate path
  match fs.node? l with
  | some n => return (l, n)
  | none => .error .notFound

def isFile (fs : FileSystem) (path : Text) : Bool :=
  match fs.find path with
  | .ok (_, .file _) => true
  | _ => false

/-- Whether a path leads to anything. -/
def has (fs : FileSystem) (path : Text) : Bool :=
  match fs.find path with
  | .ok _ => true
  | .error _ => false

/-! ## Operations -/

def read (fs : FileSystem) (path : Text) : Except FileError ByteArray := do
  match ← fs.find path with
  | (_, .file content) => return content
  | (_, .directory) => .error .isDirectory

/-- The content of a file as text. -/
def readText (fs : FileSystem) (path : Text) : Except FileError Text := do
  match String.fromUTF8? (← fs.read path) with
  | some s => return s.toList
  | none => .error .notText

/-- Where a path would be created. -/
def locateNew (fs : FileSystem) (path : Text) : Except FileError Location :=
  if path.getLast? = some '/' then do
    let _ ← fs.follow path (Path.names path)
    .error .isDirectory
  else fs.locate path

/-- Writes a file, which is made if it does not exist and emptied before if it does. -/
def write (fs : FileSystem) (path : Text) (content : ByteArray) : Except FileError FileSystem := do
  let l ← fs.locateNew path
  match fs.node? l with
  | some .directory => .error .isDirectory
  | _ => return fs.put l (.file content)

/-- Writes a file that must not exist before. -/
def writeNew (fs : FileSystem) (path : Text) (content : ByteArray) :
    Except FileError FileSystem := do
  let l ← fs.locateNew path
  match fs.node? l with
  | some _ => .error .taken
  | none => return fs.put l (.file content)

/-- Makes sure that a file exists and can be written. -/
def touch (fs : FileSystem) (path : Text) : Except FileError FileSystem := do
  let l ← fs.locateNew path
  match fs.node? l with
  | some .directory => .error .isDirectory
  | some (.file _) => return fs
  | none => return fs.put l (.file .empty)

/-- Copies a file over another. The target is emptied before the source is read, so a file copied
over itself is empty afterwards. -/
def copy (fs : FileSystem) (source target : Text) : Except FileError FileSystem := do
  let _ ← fs.read source
  let emptied ← fs.write target .empty
  emptied.write target (← emptied.read source)

/-- The names in a directory. -/
def list (fs : FileSystem) (path : Text) : Except FileError (List Text) := do
  match ← fs.find path with
  | (_, .file _) => .error .notDirectory
  | (l, .directory) =>
    return fs.nodes.filterMap fun (k, _) =>
      if k.dropLast = l && !k.isEmpty then k.getLast? else none

/-- Makes the directories that lead to a location. -/
def makeParents (fs : FileSystem) (l : Location) : FileSystem :=
  ((List.range l.length).map (l.take ·)).foldl
    (fun fs k => if (fs.node? k).isSome then fs else fs.put k .directory) fs

/-- Takes away everything at and below a location. -/
def removeAt (fs : FileSystem) (l : Location) : FileSystem :=
  { fs with nodes := fs.nodes.filter fun (k, _) => !l.isPrefixOf k }

end FileSystem

end ConfigScript
