import ConfigScript.Function.Call
import ConfigScript.Value.Join
import ConfigScript.Value.Operators
import ConfigScript.Value.Subscript
/-!
# Running programs

Expressions are evaluated under fixed variables; only statements change them. A fault carries the
line of the statement that ran.
-/

namespace ConfigScript

/-- A fault and the line of the statement it stopped. -/
structure RuntimeError where
  line : Nat
  fault : Fault

/-! ## Expressions -/

namespace Expr

/-- A call by name. -/
def callName (s : Surroundings) (name : Text) (args : List Value) : Except Fault Value :=
  match Function.ofName? name with
  | some f => f.call s name args
  | none => .error (.undefinedName name)

/-- The number that an end or the step of a range has to be. -/
def rangeNumber (otherwise : Fault) (v : Value) : Except Fault Float :=
  match v.scalar? with
  | some x => .ok x
  | none => .error otherwise

/-- A field of a struct. -/
def readField (field : Text) (v : Value) : Except Fault Value :=
  match v with
  | .struct fields =>
    match fields.lookup field with
    | some entry => .ok entry
    | none => .error (.noField field)
  | v => .error (.fieldOf field v.kind)

mutual

/-- The value of an expression. -/
def eval (s : Surroundings) : Expr → Except Fault Value
  | number x => .ok (.double x)
  | quoted content => .ok (.text content)
  | name n =>
    match s.workspace.lookup n with
    | some v => .ok v
    | none => callName s n []
  | matrix rows => do
    let rows ← evalRows s rows
    Value.stacked (← rows.mapM Value.beside)
  | cell rows => return .cell (← evalRows s rows).flatten
  | unary op e => do
    Value.unary op (← eval s e)
  | binary .andAnd l r => do
    if ← Value.holds (← eval s l) then return .logical (← Value.holds (← eval s r))
    else return .logical false
  | binary .orOr l r => do
    if ← Value.holds (← eval s l) then return .logical true
    else return .logical (← Value.holds (← eval s r))
  | binary op l r => do
    let left ← eval s l
    let right ← eval s r
    Value.binary op left right
  | range start none stop => do
    let start ← rangeNumber .rangeStart (← eval s start)
    let stop ← rangeNumber .rangeEnd (← eval s stop)
    Value.range start 1.0 stop
  | range start (some step) stop => do
    let start ← rangeNumber .rangeStart (← eval s start)
    let step ← rangeNumber .rangeStep (← eval s step)
    let stop ← rangeNumber .rangeEnd (← eval s stop)
    Value.range start step stop
  | apply (name n) args => do
    let args ← evalList s args
    match s.workspace.lookup n with
    | some v => v.index args
    | none => callName s n args
  | apply callee args => do
    let args ← evalList s args
    (← eval s callee).index args
  | brace callee args => do
    let target ← eval s callee
    target.brace (← evalList s args)
  | field base f => do
    readField f (← eval s base)
  | transpose e => do
    (← eval s e).transpose

/-- The values of expressions, from the left. -/
def evalList (s : Surroundings) : List Expr → Except Fault (List Value)
  | [] => .ok []
  | e :: rest => do
    let v ← eval s e
    return v :: (← evalList s rest)

/-- The values of rows of expressions. -/
def evalRows (s : Surroundings) : List (List Expr) → Except Fault (List (List Value))
  | [] => .ok []
  | row :: rest => do
    let vs ← evalList s row
    return vs :: (← evalRows s rest)

end

end Expr

/-! ## Statements -/

namespace Value

/-- The value with the field at the end of the path set. Missing structs on the way are made, and
an empty matrix on the way counts as a struct without fields. -/
def setField (v : Value) (path : List Text) (new : Value) : Except Fault Value :=
  match path with
  | [] => .ok new
  | field :: path => do
    match if v.isBlankMatrix then .struct [] else v with
    | .struct fields => do
      let old := (fields.lookup field).getD (.struct [])
      return .struct (Table.insert field (← setField old path new) fields)
    | other => .error (.setFieldOf field other.kind)

end Value

namespace Workspace

/-- The variables after an assignment to `target` or a field in it. -/
def assign (w : Workspace) (target : Text) (path : List Text) (v : Value) :
    Except Fault Workspace := do
  let old := (w.lookup target).getD (.struct [])
  return w.insert target (← old.setField path v)

end Workspace

/-- Marks a fault with the line of its statement. -/
def onLine {α : Type} (line : Nat) : Except Fault α → Except RuntimeError α
  | .ok a => .ok a
  | .error fault => .error ⟨line, fault⟩

namespace Statement

/-- The surroundings with other variables. -/
def within (s : Surroundings) (w : Workspace) : Surroundings := { s with workspace := w }

mutual

/-- The variables after a statement. -/
def run (s : Surroundings) (w : Workspace) : Statement → Except RuntimeError Workspace
  | assign line target path e => onLine line do
    let v ← e.eval (within s w)
    w.assign target path v
  | eval line e => onLine line do
    let _ ← e.eval (within s w)
    return w
  | cond line branches otherwise => do
    match ← runBranches s w line branches with
    | some after => return after
    | none =>
      match otherwise with
      | some body => runAll s w body
      | none => return w

/-- The variables after the first branch whose condition holds. -/
def runBranches (s : Surroundings) (w : Workspace) (line : Nat) :
    List Branch → Except RuntimeError (Option Workspace)
  | [] => .ok none
  | .mk condition body :: rest => do
    let holds ← onLine line do
      let v ← condition.eval (within s w)
      v.holds
    if holds then return some (← runAll s w body) else runBranches s w line rest

/-- The variables after statements, one after the other. -/
def runAll (s : Surroundings) (w : Workspace) : List Statement → Except RuntimeError Workspace
  | [] => .ok w
  | statement :: rest => do
    runAll s (← run s w statement) rest

end

end Statement

end ConfigScript
