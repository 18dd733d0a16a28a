import ConfigScript.Matrix
import ConfigScript.Table
/-!
# Values

What a script computes. A single number is a `double` and never a matrix of one element; a text
is a sequence of characters; a struct is a table of fields.
-/

namespace ConfigScript

inductive Value where
  | logical (b : Bool)
  | double (x : Float)
  | text (content : Text)
  | matrix (m : Matrix)
  | cell (items : List Value)
  | struct (fields : List (Text × Value))
deriving Inhabited

/-- The kinds of value that messages tell apart. -/
inductive ValueKind where
  | logical
  | double
  | text
  | matrix
  | cell
  | struct
deriving Repr, DecidableEq, Inhabited

def ValueKind.name : ValueKind → String
  | logical => "logical"
  | double => "double"
  | text => "char"
  | matrix => "matrix"
  | cell => "cell"
  | struct => "struct"

namespace Value

def kind : Value → ValueKind
  | logical _ => .logical
  | double _ => .double
  | text _ => .text
  | matrix _ => .matrix
  | cell _ => .cell
  | struct _ => .struct

/-- The matrix without rows and columns. -/
def empty : Value := .matrix .empty

/-- A matrix as a value: one element alone is a double. -/
def ofMatrix (m : Matrix) : Value :=
  match m.scalar? with
  | some x => .double x
  | none => .matrix m

/-- A matrix of flags as a value: one flag alone is a logical. -/
def ofFlags (m : Matrix) : Value :=
  match m.scalar? with
  | some x => .logical (x != 0.0)
  | none => .matrix m

def isEmpty : Value → Bool
  | text content => content.isEmpty
  | matrix m => m.isEmpty
  | cell items => items.isEmpty
  | _ => false

/-- A matrix without elements, which concatenation passes over. -/
def isBlankMatrix : Value → Bool
  | matrix m => m.isEmpty
  | _ => false

/-- How many elements there are. -/
def count : Value → Nat
  | text content => content.length
  | matrix m => m.data.size
  | cell items => items.length
  | _ => 1

/-- Rows and columns. -/
def size (v : Value) : Nat × Nat :=
  match v with
  | matrix m => (m.rows, m.cols)
  | text _ | cell _ => if v.count = 0 then (0, 0) else (1, v.count)
  | _ => (1, 1)

/-- The number that a double or a logical is. -/
def scalar? : Value → Option Float
  | double x => some x
  | logical b => some (Number.ofBool b)
  | _ => none

def text? : Value → Option Text
  | text content => some content
  | _ => none

/-- The numbers of a value, if it has any. -/
def matrix? : Value → Option Matrix
  | matrix m => some m
  | v => v.scalar?.map .single

/-! ## Equality -/

mutual

/-- Whether two values have the same shape and `same` relates their numbers. -/
def agrees (same : Float → Float → Bool) : Value → Value → Bool
  | logical a, logical b => a == b
  | double x, double y => same x y
  | text a, text b => a == b
  | matrix a, matrix b =>
    a.rows == b.rows && a.cols == b.cols && (Array.zipWith same a.data b.data).all id
  | cell a, cell b => agreeItems same a b
  | struct a, struct b => agreeFields same a b
  | _, _ => false

def agreeItems (same : Float → Float → Bool) : List Value → List Value → Bool
  | [], [] => true
  | a :: as, b :: bs => agrees same a b && agreeItems same as bs
  | _, _ => false

def agreeFields (same : Float → Float → Bool) : List (Text × Value) → List (Text × Value) → Bool
  | [], [] => true
  | (n, a) :: as, (m, b) :: bs => n == m && agrees same a b && agreeFields same as bs
  | _, _ => false

end

/-- Equality of numbers under which NaN equals itself. -/
def sameNumber (x y : Float) : Bool := x == y || (x.isNaN && y.isNaN)

/-- Equality of values under which NaN equals itself. -/
def equivalent (a b : Value) : Bool := agrees sameNumber a b

/-- Equality of values under which NaN differs from itself. -/
def equal (a b : Value) : Bool := agrees (· == ·) a b

end Value

/-- The variables that a script binds. -/
abbrev Workspace := Table Value

end ConfigScript
