import ConfigScript.Text.Basic
/-!
# Command line arguments

Arguments are read from the left. Switches may stand in front of the verb and behind it, and an
option takes its value from the same argument or from the next one. After `--` every argument is
a plain one. Where a plain argument may begin with a hyphen, a word that is no switch is one.
-/

namespace ConfigScript

/-- What the program is asked to do. -/
inductive Command where
  | get (file name : Text)
  /-- The first name and value, and further names and values in turn. -/
  | set (file name value : Text) (more : List Text)
  | show (file : Text)
  | locate (file name : Text)
  | backups (file : Text)
  | restore (file : Text) (sequence : Option UInt32)
deriving Repr, DecidableEq

/-- The script that a command works on. -/
def Command.file : Command → Text
  | get file _ | set file _ _ _ | «show» file | locate file _ | backups file | restore file _ => file

/-- A command and the switches that go with every command. -/
structure Invocation where
  verbose : Bool
  json : Bool
  /-- The settings file. -/
  context : Option Text
  command : Command
deriving Repr, DecidableEq

namespace CommandLine

/-- Why there is nothing to run. -/
inductive Refusal where
  /-- Help was asked for. -/
  | help
  /-- The version was asked for. -/
  | version
  | misuse
deriving Repr, DecidableEq

/-- The exit code of a refusal. -/
def Refusal.code : Refusal → Nat
  | help | version => 0
  | misuse => 2

/-! ## What may be written -/

inductive Verb where
  | get
  | set
  | show
  | locate
  | backups
  | restore
deriving Repr, DecidableEq

def Verb.named : List (Text × Verb) :=
  [("get", get), ("set", set), ("show", «show»), ("locate", locate), ("backups", backups),
    ("restore", restore)].map fun (name, verb) => (name.toList, verb)

/-- The word that asks for help in place of a verb. -/
def helpWord : Text := "help".toList

/-- An option takes a value. -/
inductive OptionKey where
  | context
  | sequence
deriving Repr, DecidableEq

inductive Switch where
  | verbose
  | json
  | help
  | version
  | option (key : OptionKey)
deriving Repr, DecidableEq

/-- The place of a plain argument. -/
structure Place where
  /-- A path must not be empty. -/
  isPath : Bool
  /-- Whether it may begin with a hyphen. -/
  hyphens : Bool
  /-- Whether any number of arguments may stand here. -/
  many : Bool
deriving Repr, DecidableEq

namespace Place

def file : Place := ⟨true, false, false⟩

def name : Place := ⟨false, false, false⟩

def value : Place := ⟨false, true, false⟩

def rest : Place := ⟨false, true, true⟩

end Place

/-- What may be written in one part of the command line. -/
structure Form where
  short : List (Char × Switch)
  long : List (Text × Switch)
  places : List Place

namespace Form

/-- Switches that may stand anywhere. -/
def commonShort : List (Char × Switch) :=
  [('v', .verbose), ('c', .option .context), ('h', .help)]

def commonLong : List (Text × Switch) :=
  [("verbose", Switch.verbose), ("json", .json), ("context", .option .context),
    ("help", .help)].map fun (name, s) => (name.toList, s)

/-- In front of the verb. -/
def front : Form where
  short := ('V', .version) :: commonShort
  long := ("version".toList, .version) :: commonLong
  places := []

/-- Behind a verb. -/
def behind : Verb → Form
  | .get | .locate => ⟨commonShort, commonLong, [.file, .name]⟩
  | .set => ⟨commonShort, commonLong, [.file, .name, .value, .rest]⟩
  | .show | .backups => ⟨commonShort, commonLong, [.file]⟩
  | .restore =>
    ⟨('s', .option .sequence) :: commonShort,
      ("sequence".toList, .option .sequence) :: commonLong, [.file]⟩

end Form

/-! ## What has been read -/

/-- An option whose value has not been looked at, or has not been given yet. -/
structure Pending where
  key : OptionKey
  value : Option Text

/-- What one part of the command line has said so far. -/
structure Reading where
  verbose : Bool := false
  json : Bool := false
  context : Option Text := none
  sequence : Option UInt32 := none
  pending : Option Pending := none
  /-- The plain arguments. -/
  values : List Text := []
  /-- Whether `--` has been read. -/
  literal : Bool := false

/-- Whole numbers up to the greatest sequence number, with or without a sign. -/
def sequence? (t : Text) : Option UInt32 :=
  let digits :=
    match t with
    | '+' :: rest => rest
    | '-' :: rest => rest
    | _ => t
  let size := Text.digitsValue digits
  if digits.isEmpty || !digits.all Char.isDigit || UInt32.size ≤ size then none
  else if t.head? = some '-' && size ≠ 0 then none
  else some (UInt32.ofNat size)

namespace Reading

/-- Gives an option its value. Every option may be given once. -/
def assign (r : Reading) : OptionKey → Text → Except Refusal Reading
  | .context, value =>
    if r.context.isSome || value.isEmpty then .error .misuse
    else .ok { r with context := some value }
  | .sequence, value =>
    match sequence? value with
    | some n => if r.sequence.isSome then .error .misuse else .ok { r with sequence := some n }
    | none => .error .misuse

/-- Looks at the value of the last option. -/
def settle (r : Reading) : Except Refusal Reading :=
  match r.pending with
  | none => .ok r
  | some ⟨_, none⟩ => .error .misuse
  | some ⟨key, some value⟩ => assign { r with pending := none } key value

/-- Whether the next argument is the value of an option. -/
def awaitsValue (r : Reading) : Bool :=
  match r.pending with
  | some ⟨_, none⟩ => true
  | _ => false

/-- A switch, with the value that is attached to it. -/
def switch (r : Reading) (s : Switch) (attached : Option Text) : Except Refusal Reading := do
  let r ← r.settle
  match s, attached with
  | .option key, some value => r.assign key value
  | .option key, none => return { r with pending := some ⟨key, none⟩ }
  | _, some _ => .error .misuse
  | .help, none => .error .help
  | .version, none => .error .version
  | .verbose, none => if r.verbose then .error .misuse else return { r with verbose := true }
  | .json, none => if r.json then .error .misuse else return { r with json := true }

/-- Where the next plain argument goes. -/
def place? (f : Form) (r : Reading) : Option Place :=
  match f.places[r.values.length]? with
  | some place => some place
  | none => f.places.getLast?.filter (·.many)

/-- Whether the next plain argument may begin with a hyphen. -/
def allowsHyphens (f : Form) (r : Reading) : Bool := (r.place? f).any (·.hyphens)

/-- Whether arguments have begun that may be any number. -/
def inRest (f : Form) (r : Reading) : Bool :=
  match r.values.length with
  | 0 => false
  | n + 1 => match f.places[n]? with
    | some place => place.many
    | none => true

/-- A plain argument. -/
def plain (f : Form) (r : Reading) (arg : Text) : Except Refusal Reading := do
  match r.place? f with
  | none => .error .misuse
  | some place => do
    let r ← r.settle
    if place.isPath && arg.isEmpty then .error .misuse
    else return { r with values := r.values ++ [arg] }

/-- An argument that is no switch. -/
def take (f : Form) (r : Reading) (arg : Text) : Except Refusal Reading :=
  match r.pending with
  | some ⟨key, none⟩ => .ok { r with pending := some ⟨key, some arg⟩ }
  | _ => r.plain f arg

/-- Switches of one letter each. The first that takes a value takes the rest as its value, an
equals sign in front of it left out. -/
def shorts (f : Form) (r : Reading) : List Char → Except Refusal Reading
  | [] => .ok r
  | c :: rest =>
    match f.short.lookup c with
    | none => .error .misuse
    | some (.option key) =>
      match rest with
      | [] => r.switch (.option key) none
      | '=' :: value => r.switch (.option key) (some value)
      | value => r.switch (.option key) (some value)
    | some s => do shorts f (← r.switch s none) rest

/-- The argument of a switch by its name, split at the first equals sign. -/
def long (f : Form) (r : Reading) (arg body : Text) : Except Refusal Reading :=
  let name := body.takeWhile (· ≠ '=')
  match f.long.lookup name with
  | some s => r.switch s ((body.drop name.length).tail?)
  | none => if r.allowsHyphens f then r.take f arg else .error .misuse

/-- The reading after one more argument. -/
def step (f : Form) (r : Reading) (arg : Text) : Except Refusal Reading :=
  if r.literal || r.inRest f then r.plain f arg
  else
    match arg with
    | ['-', '-'] => .ok { r with literal := true }
    | '-' :: '-' :: body => r.long f arg body
    | '-' :: c :: more =>
      if r.allowsHyphens f && (c :: more).any (fun c => (f.short.lookup c).isNone) then
        r.take f arg
      else r.shorts f (c :: more)
    | _ => r.take f arg

end Reading

/-! ## The whole line -/

/-- The command that a verb and its plain arguments make up. -/
def command? (verb : Verb) (r : Reading) : Option Command :=
  match verb, r.values with
  | .get, [file, name] => some (.get file name)
  | .set, file :: name :: value :: more => some (.set file name value more)
  | .show, [file] => some (.show file)
  | .locate, [file, name] => some (.locate file name)
  | .backups, [file] => some (.backups file)
  | .restore, [file] => some (.restore file r.sequence)
  | _, _ => none

/-- Reads what stands behind a verb. -/
def readBehind (verb : Verb) (args : List Text) : Except Refusal (Reading × Command) := do
  let r ← args.foldlM (Reading.step (.behind verb)) {}
  let r ← r.settle
  match command? verb r with
  | some command => return (r, command)
  | none => .error .misuse

/-- A question for help may name one verb. -/
def readHelp : List Text → Refusal
  | [] => .help
  | [word] => if word = helpWord || (Verb.named.lookup word).isSome then .help else .misuse
  | _ => .misuse

/-- Reads a whole line, `r` of which has been read in front of the verb. A switch behind the verb
counts before one in front of it. -/
def readFrom (r : Reading) : List Text → Except Refusal Invocation
  | [] => .error .misuse
  | arg :: rest => do
    match if r.literal || r.awaitsValue then none else Verb.named.lookup arg with
    | some verb => do
      let (inner, command) ← readBehind verb rest
      let outer ← r.settle
      return {
        verbose := outer.verbose || inner.verbose
        json := outer.json || inner.json
        context := inner.context.or outer.context
        command }
    | none =>
      if arg = helpWord && !(r.literal || r.awaitsValue) then .error (readHelp rest)
      else readFrom (← r.step .front arg) rest

/-- Reads the arguments of the program. -/
def read (args : List Text) : Except Refusal Invocation := readFrom {} args

end CommandLine

end ConfigScript
