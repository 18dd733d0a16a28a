import ConfigScript.Function
import ConfigScript.Fault
import ConfigScript.Settings
import ConfigScript.Text.JoinPath
import ConfigScript.Text.LetterCase
/-!
# Calling functions

`Function.call` gives the result of a call. Besides the arguments a function sees the settings,
the environment of the process and the variables of the script; only `getenv`, `exist` and the
platform queries look at them.
-/

namespace ConfigScript

/-- What a call sees besides its arguments. -/
structure Surroundings where
  settings : Settings
  /-- The environment of the process. -/
  process : Table Text
  workspace : Workspace

namespace Function

/-- A fault of the call of `name`. -/
def fault {α : Type} (name : Text) (f : CallFault) : Except Fault α := .error (.call name f)

def one (name : Text) : List Value → Except Fault Value
  | [v] => .ok v
  | args => fault name (.argumentCount 1 args.length)

def two (name : Text) : List Value → Except Fault (Value × Value)
  | [a, b] => .ok (a, b)
  | args => fault name (.argumentCount 2 args.length)

/-- A result that takes no arguments. -/
def constant (name : Text) (args : List Value) (v : Value) : Except Fault Value :=
  if args.isEmpty then .ok v else fault name .takesNone

def textOf (name : Text) (v : Value) : Except Fault Text :=
  match v.text? with
  | some t => .ok t
  | none => fault name (.expectsText v.kind)

def numbersOf (name : Text) (v : Value) : Except Fault Matrix :=
  match v.matrix? with
  | some m => .ok m
  | none => fault name (.expectsNumbers v.kind)

/-- A number of rows or columns. -/
def dimension (name : Text) (v : Value) : Except Fault Nat :=
  match v.scalar? with
  | some n => if 0.0 ≤ n && Number.isWhole n then .ok (Number.toNat n) else fault name .badDimension
  | none => fault name .badDimension

/-- A matrix of one number over and over: one element, a square, or rows and columns. -/
def filled (name : Text) (args : List Value) (x : Float) : Except Fault Value := do
  let (rows, cols) ←
    match args with
    | [] => pure (1, 1)
    | [n] => do
      let n ← dimension name n
      pure (n, n)
    | [r, c] => do
      let rows ← dimension name r
      let cols ← dimension name c
      pure (rows, cols)
    | _ => fault name .tooManyDimensions
  if Matrix.fits rows cols then return .ofMatrix (.filled rows cols x)
  else .error (.tooLarge rows cols)

/-- A function of the argument's kind or shape. -/
def query (name : Text) (args : List Value) (f : Value → Value) : Except Fault Value :=
  return f (← one name args)

/-- A function applied to every number. -/
def eachNumber (name : Text) (args : List Value) (f : Float → Float) : Except Fault Value := do
  let m ← numbersOf name (← one name args)
  return .ofMatrix (m.map f)

/-- Two arguments combined number by number. -/
def pairwise (name : Text) (a b : Value) (f : Float → Float → Float) : Except Fault Value := do
  let a ← numbersOf name a
  let b ← numbersOf name b
  match Matrix.combine? f a b with
  | some m => return .ofMatrix m
  | none => fault name .sizesDiffer

/-- The result of `f` over all numbers of one argument, or over the pairs of two. -/
def extreme (name : Text) (args : List Value) (f : Float → Float → Float) : Except Fault Value :=
  match args with
  | [v] => do
    let m ← numbersOf name v
    match m.data.toList with
    | [] => return .empty
    | x :: rest => return .double (rest.foldl f x)
  | [a, b] => pairwise name a b f
  | _ => fault name .oneOrTwo

/-- 1 for a variable, 5 for a function unless only variables are asked for, and 0 otherwise. -/
def existence (s : Surroundings) (name : Text) (args : List Value) : Except Fault Value := do
  let (target, kind) ←
    match args with
    | [target] => do pure (← textOf name target, none)
    | [target, kind] => do
      let target ← textOf name target
      pure (target, some (← textOf name kind))
    | _ => fault name .oneOrTwo
  if s.workspace.contains target then return .double 1.0
  else if kind != some "var".toList && isName target then return .double 5.0
  else return .double 0.0

def sizeOf (name : Text) (args : List Value) : Except Fault Value :=
  match args with
  | [v] => .ok (.matrix (.row #[Number.ofNat v.size.1, Number.ofNat v.size.2]))
  | [v, d] => do
    match ← dimension name d with
    | 0 => fault name .zeroDimension
    | 1 => return .double (Number.ofNat v.size.1)
    | 2 => return .double (Number.ofNat v.size.2)
    | _ => return .double 1.0
  | _ => fault name .oneOrTwo

/-- The greater of rows and columns, but nothing if there are no elements. -/
def lengthOf (v : Value) : Nat :=
  if v.size.1 = 0 || v.size.2 = 0 then 0 else Nat.max v.size.1 v.size.2

def nanFlags (name : Text) (args : List Value) : Except Fault Value := do
  match ← one name args with
  | .text content => return .ofMatrix (.filled 1 content.length 0.0)
  | v => return .ofFlags ((← numbersOf name v).map fun x => Number.ofBool x.isNaN)

/-- The fields that names and values by turns give. -/
def fields (name : Text) : List Value → Except Fault (List (Text × Value))
  | [] => .ok []
  | [_] => fault name .unpairedField
  | key :: v :: rest => do
    let key ← textOf name key
    return (key, v) :: (← fields name rest)

/-- The character of a code. -/
def characterOf (name : Text) (code : Float) : Except Fault Char :=
  if 0.0 ≤ code && Number.isWhole code && (Number.toNat code).isValidChar then
    .ok (Char.ofNat (Number.toNat code))
  else fault name (.noCharacter code)

def characters (name : Text) (args : List Value) : Except Fault Value := do
  match ← one name args with
  | .text content => return .text content
  | v => return .text (← (← numbersOf name v).data.toList.mapM (characterOf name))

def numbersAsText (name : Text) (args : List Value) : Except Fault Value := do
  match ← one name args with
  | .text content => return .text content
  | v =>
    let numbers := (← numbersOf name v).data.toList
    return .text (Text.join "  ".toList (numbers.map Number.render))

/-- The sum of a row or column, and of a matrix the sums of its columns. -/
def total (name : Text) (args : List Value) : Except Fault Value := do
  let m ← numbersOf name (← one name args)
  if m.rows ≤ 1 || m.cols = 1 then return .double (Matrix.sum m.data)
  else return .matrix m.columnSums

/-- Whether two arguments are texts that are the same after `fold`. -/
def sameText (name : Text) (args : List Value) (fold : Text → Text) : Except Fault Value := do
  let (a, b) ← two name args
  match a.text?, b.text? with
  | some x, some y => return .logical (fold x == fold y)
  | _, _ => return .logical false

/-- The result of a call of the function `f` under the name `name`. -/
def call (s : Surroundings) (f : Function) (name : Text) (args : List Value) :
    Except Fault Value :=
  match f with
  | trueValue => constant name args (.logical true)
  | falseValue => constant name args (.logical false)
  | pi => constant name args (.double 3.141592653589793)
  | eps => constant name args (.double 2.220446049250313e-16)
  | nan => filled name args Number.nan
  | infinity => filled name args Number.infinity
  | zeros => filled name args 0.0
  | ones => filled name args 1.0
  | ispc => constant name args (.logical (s.settings.platform = .windows))
  | isunix => constant name args (.logical (s.settings.platform ≠ .windows))
  | ismac => constant name args (.logical (s.settings.platform = .macos))
  | getenv => do
    let key ← textOf name (← one name args)
    return .text ((s.settings.lookupEnvironment s.process key).getD [])
  | exist => existence s name args
  | strcmp => sameText name args id
  | strcmpi => sameText name args Text.lower
  | isempty => query name args fun v => .logical v.isEmpty
  | numel => query name args fun v => .double (Number.ofNat v.count)
  | length => query name args fun v => .double (Number.ofNat (lengthOf v))
  | size => sizeOf name args
  | isnan => nanFlags name args
  | isnumeric => query name args fun v => .logical (v.kind = .double || v.kind = .matrix)
  | ischar => query name args fun v => .logical (v.kind = .text)
  | islogical => query name args fun v => .logical (v.kind = .logical)
  | iscell => query name args fun v => .logical (v.kind = .cell)
  | isstruct => query name args fun v => .logical (v.kind = .struct)
  | isfield => do
    let (v, field) ← two name args
    let field ← textOf name field
    match v with
    | .struct fields => return .logical (Table.contains field fields)
    | _ => return .logical false
  | struct => do
    if args.length % 2 = 1 then fault name .unpairedField
    else return .struct (Table.ofList (← fields name args))
  | fullfile => do
    let parts ← args.mapM (textOf name)
    return .text (Text.joinPaths s.settings.platform.separator parts)
  | num2str => numbersAsText name args
  | upper => do return .text (← textOf name (← one name args)).upper
  | lower => do return .text (← textOf name (← one name args)).lower
  | abs => eachNumber name args Float.abs
  | floor => eachNumber name args Number.floor
  | ceil => eachNumber name args Number.ceil
  | round => eachNumber name args Number.round
  | min => extreme name args Number.least
  | max => extreme name args Number.greatest
  | sum => total name args
  | mod => do
    let (a, b) ← two name args
    pairwise name a b Number.modulo
  | char => characters name args
  | disp => do
    let _ ← one name args
    return .empty
  | error =>
    match args with
    | [] => .error (.raised "error() called".toList)
    | .text content :: _ => .error (.raised content)
    | v :: _ => .error (.raised v.render)

end Function

end ConfigScript
