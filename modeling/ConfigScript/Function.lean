import ConfigScript.Text.Basic
/-!
# Functions

The functions that scripts may call, and the names they go by.
-/

namespace ConfigScript

inductive Function where
  | trueValue
  | falseValue
  | pi
  | eps
  | nan
  | infinity
  | zeros
  | ones
  | ispc
  | isunix
  | ismac
  | getenv
  | exist
  | strcmp
  | strcmpi
  | isempty
  | numel
  | length
  | size
  | isnan
  | isnumeric
  | ischar
  | islogical
  | iscell
  | isstruct
  | isfield
  | struct
  | fullfile
  | num2str
  | upper
  | lower
  | abs
  | floor
  | ceil
  | round
  | min
  | max
  | sum
  | mod
  | char
  | disp
  | error
deriving Repr, DecidableEq

namespace Function

/-- Every function under each of its names. -/
def named : List (Text × Function) :=
  [("true", trueValue), ("false", falseValue), ("pi", pi), ("eps", eps), ("NaN", nan),
    ("nan", nan), ("Inf", infinity), ("inf", infinity), ("zeros", zeros), ("ones", ones),
    ("ispc", ispc), ("isunix", isunix), ("ismac", ismac), ("getenv", getenv), ("exist", exist),
    ("strcmp", strcmp), ("strcmpi", strcmpi), ("isempty", isempty), ("numel", numel),
    ("length", length), ("size", size), ("isnan", isnan), ("isnumeric", isnumeric),
    ("ischar", ischar), ("islogical", islogical), ("iscell", iscell), ("isstruct", isstruct),
    ("isfield", isfield), ("struct", struct), ("fullfile", fullfile), ("num2str", num2str),
    ("upper", upper), ("lower", lower), ("abs", abs), ("floor", floor), ("ceil", ceil),
    ("round", round), ("min", min), ("max", max), ("sum", sum), ("mod", mod), ("char", char),
    ("disp", disp), ("error", error)].map fun (name, f) => (name.toList, f)

def ofName? (name : Text) : Option Function := named.lookup name

/-- Whether a function goes by this name. -/
def isName (name : Text) : Bool := (ofName? name).isSome

end Function

end ConfigScript
