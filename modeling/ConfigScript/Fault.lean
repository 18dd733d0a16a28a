import ConfigScript.Value
import ConfigScript.Value.Render
/-!
# Faults

Why a script stops while it runs. `Fault.message` holds the wording.
-/

namespace ConfigScript

/-- What is wrong with a function call. -/
inductive CallFault where
  | argumentCount (expected got : Nat)
  | takesNone
  | oneOrTwo
  | expectsText (got : ValueKind)
  | expectsNumbers (got : ValueKind)
  | badDimension
  | tooManyDimensions
  | zeroDimension
  | sizesDiffer
  | unpairedField
  | noCharacter (code : Float)

inductive Fault where
  | undefinedName (name : Text)
  | call (function : Text) (fault : CallFault)
  | raised (message : Text)
  | nanCondition
  | badCondition (got : ValueKind)
  | noField (field : Text)
  | fieldOf (field : Text) (got : ValueKind)
  | setFieldOf (field : Text) (got : ValueKind)
  | operand (sign : String) (got : ValueKind)
  | sizes (sign : String) (left right : Nat × Nat)
  | innerSizes (left right : Nat × Nat)
  | tooLarge (rows cols : Nat)
  | rightDivision
  | matrixPower
  | rangeStart
  | rangeStep
  | rangeEnd
  | rangeTooLong
  | transposedText
  | joinedText (other : ValueKind)
  | joined (got : ValueKind)
  | joinedSizes
  | textRows
  | subscriptKind (got : ValueKind)
  | subscript (got : Float)
  | beyondEnd (position count : Nat)
  | structSubscript
  | indexed (got : ValueKind)
  | subscriptPair
  | outside (row col rows cols : Nat)
  | subscriptCount
  | braced (got : ValueKind)
  | bracedMany
  | bracedCount
  /-- A fault given in words by an engine of another make. -/
  | reported (message : Text)

def CallFault.message (f : String) : CallFault → String
  | argumentCount expected got => s!"{f}() expects {expected} argument(s), got {got}"
  | takesNone => s!"{f}() takes no arguments"
  | oneOrTwo => s!"{f}() expects one or two arguments"
  | expectsText got => s!"{f}() expects text, got {got.name}"
  | expectsNumbers got => s!"{f}() expects numbers, got {got.name}"
  | badDimension => s!"{f}() dimensions must be non-negative integers"
  | tooManyDimensions => s!"{f}() takes at most two dimensions"
  | zeroDimension => s!"{f}() dimension must be positive"
  | sizesDiffer => s!"{f}() arguments must have matching sizes"
  | unpairedField => s!"{f}() expects field/value pairs"
  | noCharacter code =>
    s!"{f}() cannot convert {String.ofList (Number.render code)} to a character"

/-- A size as `rows` x `cols`. -/
def sizeText (size : Nat × Nat) : String := s!"{size.1}x{size.2}"

namespace Fault

def message : Fault → String
  | undefinedName name => s!"undefined variable or function '{String.ofList name}'"
  | call f fault => fault.message (String.ofList f)
  | raised text => String.ofList text
  | nanCondition => "NaN cannot be used as a condition"
  | badCondition got => s!"a {got.name} value cannot be used as a condition"
  | noField field => s!"reference to non-existent field '{String.ofList field}'"
  | fieldOf field got => s!"cannot read field '{String.ofList field}' of a {got.name} value"
  | setFieldOf field got => s!"cannot set field '{String.ofList field}' on a {got.name} value"
  | operand sign got => s!"operator '{sign}' is not defined for {got.name} values"
  | sizes sign left right =>
    s!"matrix dimensions must agree for '{sign}' ({sizeText left} vs {sizeText right})"
  | innerSizes left right =>
    s!"inner matrix dimensions must agree ({sizeText left} * {sizeText right})"
  | tooLarge rows cols =>
    s!"a {rows}x{cols} matrix exceeds the limit of {Matrix.maxElements} elements"
  | rightDivision => "matrix right division is not supported"
  | matrixPower => "use '.^' for elementwise powers of matrices"
  | rangeStart => "range start must be a scalar"
  | rangeStep => "range step must be a scalar"
  | rangeEnd => "range end must be a scalar"
  | rangeTooLong => s!"range produces more than {Matrix.maxElements} elements"
  | transposedText => "transposing text is not supported"
  | joinedText other => s!"cannot concatenate text with a {other.name} value"
  | joined got => s!"cannot concatenate a {got.name} value"
  | joinedSizes => "dimensions of arrays being concatenated are not consistent"
  | textRows => "multi-row text is not supported"
  | subscriptKind got => s!"index must be numeric, not {got.name}"
  | subscript got =>
    s!"index must be a positive integer, got {String.ofList (Number.Layout.plain.text got)}"
  | beyondEnd position count => s!"index {position} exceeds the number of elements ({count})"
  | structSubscript => "struct index must be 1"
  | indexed got => s!"cannot index a {got.name} value"
  | subscriptPair => "two-dimensional indexing takes scalar subscripts"
  | outside row col rows cols =>
    s!"index ({row}, {col}) exceeds matrix dimensions ({sizeText (rows, cols)})"
  | subscriptCount => "indexing takes one or two subscripts"
  | braced got => s!"brace indexing is not supported for {got.name} values"
  | bracedMany => "brace indexing must select a single element"
  | bracedCount => "brace indexing takes one subscript"
  | reported text => String.ofList text

end Fault

end ConfigScript
