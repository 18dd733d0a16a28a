import ConfigScript.Fault
/-!
# Subscripts

`index` is the subscript in parentheses and `brace` the one in braces. Positions count from one;
with one subscript they run down the columns of a matrix.
-/

namespace ConfigScript.Value

/-- The position that a number stands for: a whole number from one on. -/
def position (x : Float) : Except Fault Nat :=
  if 1.0 ≤ x && Number.isWhole x then .ok (Number.toNat x) else .error (.subscript x)

/-- The positions that a subscript lists, row by row. -/
def positions : Value → Except Fault (List Nat)
  | double x => return [← position x]
  | matrix m => m.data.toList.mapM position
  | v => .error (.subscriptKind v.kind)

/-- The element at a position. -/
def pick {α : Type} (elements : Array α) (p : Nat) : Except Fault α :=
  match elements[p - 1]? with
  | some a => .ok a
  | none => .error (.beyondEnd p elements.size)

/-- The number at a position of a matrix. -/
def pickNumber (m : Matrix) (p : Nat) : Except Fault Float :=
  match m.linear? p with
  | some x => .ok x
  | none => .error (.beyondEnd p m.data.size)

/-- The numbers of the value that is indexed. -/
def indexedMatrix (v : Value) : Except Fault Matrix :=
  match v.matrix? with
  | some m => .ok m
  | none => .error (.indexed v.kind)

/-- The elements at the positions of one subscript. -/
def index1 (target arg : Value) : Except Fault Value :=
  match target with
  | text content => do
    let chars := content.toArray
    return .text (← (← positions arg).mapM (pick chars))
  | cell items => do
    let elements := items.toArray
    return .cell (← (← positions arg).mapM (pick elements))
  | struct _ => do
    match ← positions arg with
    | [1] => return target
    | _ => .error .structSubscript
  | logical _ => do
    let m ← indexedMatrix target
    let numbers ← (← positions arg).mapM (pickNumber m)
    if numbers.length = 1 then return target else return ofMatrix (.row numbers.toArray)
  | double _ | matrix _ => do
    let m ← indexedMatrix target
    return ofMatrix (.row (← (← positions arg).mapM (pickNumber m)).toArray)

/-- The number in one row and one column. -/
def index2 (target row col : Value) : Except Fault Value := do
  let m ← indexedMatrix target
  let rows ← positions row
  let cols ← positions col
  match rows, cols with
  | [r], [c] =>
    if h : r - 1 < m.rows ∧ c - 1 < m.cols then return .double (m.get (r - 1) (c - 1) h.1 h.2)
    else .error (.outside r c m.rows m.cols)
  | _, _ => .error .subscriptPair

/-- `target(args)`. -/
def index (target : Value) : List Value → Except Fault Value
  | [arg] => index1 target arg
  | [row, col] => index2 target row col
  | _ => .error .subscriptCount

/-- `target{args}`, with braces, selects one element of a cell. -/
def brace (target : Value) (args : List Value) : Except Fault Value :=
  match target with
  | cell items =>
    match args with
    | [arg] => do
      match ← positions arg with
      | [p] => pick items.toArray p
      | _ => .error .bracedMany
    | _ => .error .bracedCount
  | v => .error (.braced v.kind)

end ConfigScript.Value
