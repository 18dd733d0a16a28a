import ConfigScript.Fault
import ConfigScript.Program
/-!
# Operators

Operators work on numbers, element by element; a text stands for the codes of its characters.
Comparisons and logic give flags.
-/

namespace ConfigScript.Value

/-- The numbers an operator works on. -/
def operand (sign : String) : Value → Except Fault Matrix
  | text content => .ok (.row (content.map fun c => Number.ofNat c.toNat).toArray)
  | v =>
    match v.matrix? with
    | some m => .ok m
    | none => .error (.operand sign v.kind)

/-- Two operands combined element by element. -/
def combined (sign : String) (f : Float → Float → Float) (a b : Matrix) : Except Fault Matrix :=
  match Matrix.combine? f a b with
  | some m => .ok m
  | none => .error (.sizes sign (a.rows, a.cols) (b.rows, b.cols))

/-- The product of two matrices. -/
def product (a b : Matrix) : Except Fault Matrix :=
  if h : a.cols = b.rows then
    if Matrix.fits a.rows b.cols then .ok (a.product b h) else .error (.tooLarge a.rows b.cols)
  else .error (.innerSizes (a.rows, a.cols) (b.rows, b.cols))

/-- Two operands compared element by element. -/
def compared (sign : String) (p : Float → Float → Bool) (a b : Matrix) : Except Fault Value :=
  return ofFlags (← combined sign (fun x y => Number.ofBool (p x y)) a b)

def isTrue (x : Float) : Bool := x != 0.0

/-- A binary operator on numbers. -/
def binaryMatrix (op : BinaryOp) (a b : Matrix) : Except Fault Value :=
  let arithmetic f := do return ofMatrix (← combined op.sign f a b)
  let comparison p := compared op.sign p a b
  match op with
  | .add => arithmetic (· + ·)
  | .sub => arithmetic (· - ·)
  | .elemMul => arithmetic (· * ·)
  | .elemDiv => arithmetic (· / ·)
  | .elemPow => arithmetic Float.pow
  | .mul =>
    if a.isScalar || b.isScalar then arithmetic (· * ·) else do return ofMatrix (← product a b)
  | .div => if b.isScalar then arithmetic (· / ·) else .error .rightDivision
  | .pow => if a.isScalar && b.isScalar then arithmetic Float.pow else .error .matrixPower
  | .equal => comparison (· == ·)
  | .notEqual => comparison (· != ·)
  | .less => comparison fun x y => x < y
  | .lessEqual => comparison fun x y => x ≤ y
  | .greater => comparison fun x y => y < x
  | .greaterEqual => comparison fun x y => y ≤ x
  | .and | .andAnd => comparison fun x y => isTrue x && isTrue y
  | .or | .orOr => comparison fun x y => isTrue x || isTrue y

def binary (op : BinaryOp) (left right : Value) : Except Fault Value := do
  let a ← operand op.sign left
  let b ← operand op.sign right
  binaryMatrix op a b

def unary (op : UnaryOp) (v : Value) : Except Fault Value := do
  let m ← operand op.sign v
  match op with
  | .negate => return ofMatrix (m.map (- ·))
  | .plus => return ofMatrix m
  | .not => return ofFlags (m.map fun x => Number.ofBool (x == 0.0))

/-- Rows and columns exchanged. A text of at most one character stays as it is. -/
def transpose : Value → Except Fault Value
  | matrix m => .ok (.matrix m.transpose)
  | text content => if content.length ≤ 1 then .ok (.text content) else .error .transposedText
  | v => .ok v

/-- Whether a value used as a condition holds. -/
def holds : Value → Except Fault Bool
  | logical b => .ok b
  | double x => if x.isNaN then .error .nanCondition else .ok (isTrue x)
  | matrix m =>
    if m.data.any Float.isNaN then .error .nanCondition
    else .ok (!m.isEmpty && m.data.all isTrue)
  | text content => .ok (!content.isEmpty && content.all (· != '\x00'))
  | v => .error (.badCondition v.kind)

/-! ## Ranges -/

/-- The slack that lets a range reach its end in spite of rounding. -/
def rangeSlack : Float := 1e-10

/-- `start`, `start + step`, … up to `stop`. -/
def range (start step stop : Float) : Except Fault Value :=
  let steps := (stop - start) / step
  if step == 0.0 || !Number.finite start || !Number.finite stop || steps.isNaN || steps < 0.0 then
    .ok (.matrix (.row #[]))
  else
    let steps := Number.floor (steps + rangeSlack)
    if Number.ofNat Matrix.maxElements ≤ steps then .error .rangeTooLong
    else
      let elements := Array.ofFn (n := Number.toNat steps + 1) fun i =>
        start + Number.ofNat i * step
      .ok (ofMatrix (.row elements))

end ConfigScript.Value
