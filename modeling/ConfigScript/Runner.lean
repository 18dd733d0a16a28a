import ConfigScript.Evaluation
import ConfigScript.Program.Parser
import ConfigScript.Token.Lexer
/-!
# Running scripts

A runner runs whole scripts and evaluates single expressions. Every run starts afresh from the
pre-bound variables of the settings; an expression sees no variables.
-/

namespace ConfigScript

/-- A script cannot be read, or fails while it runs. -/
inductive EngineError where
  | unreadable (error : SyntaxError)
  | failed (error : RuntimeError)

def EngineError.message : EngineError → String
  | unreadable e => s!"syntax error on line {e.line}: {e.cause.message}"
  | failed e => s!"runtime error on line {e.line}: {e.fault.message}"

structure Runner where
  settings : Settings
  /-- The environment of the process. -/
  process : Table Text
  /-- The pre-bound variables. -/
  seeds : Workspace

namespace Runner

def readProgram (script : Text) : Except EngineError Program :=
  match Token.tokenize script >>= Program.ofTokens with
  | .ok program => .ok program
  | .error e => .error (.unreadable e)

def readExpr (source : Text) : Except EngineError Expr :=
  match Token.tokenize source >>= Expr.ofTokens with
  | .ok e => .ok e
  | .error e => .error (.unreadable e)

/-- The value of an expression that sees no variables. Its faults have line zero. -/
def evaluateUnder (settings : Settings) (process : Table Text) (source : Text) :
    Except EngineError Value := do
  let e ← readExpr source
  match onLine 0 (e.eval ⟨settings, process, []⟩) with
  | .ok v => return v
  | .error error => .error (.failed error)

/-- The pre-bound variables, evaluated in order of their names. -/
def evaluateSeeds (settings : Settings) (process : Table Text) :
    List (Text × Text) → Except EngineError Workspace
  | [] => .ok []
  | (name, source) :: rest => do
    if isIdentifier name then
      let v ← evaluateUnder settings process source
      return Table.insert name v (← evaluateSeeds settings process rest)
    else .error (.unreadable ⟨0, .badVariableName name⟩)

/-- The runner for these settings. -/
def ofSettings (settings : Settings) (process : Table Text) : Except EngineError Runner := do
  let seeds ← evaluateSeeds settings process settings.presets
  return ⟨settings, process, seeds⟩

/-- The variables that a script binds. -/
def execute (r : Runner) (script : Text) : Except EngineError Workspace := do
  let program ← readProgram script
  match Statement.runAll ⟨r.settings, r.process, []⟩ r.seeds program with
  | .ok w => return w
  | .error error => .error (.failed error)

/-- The value of an expression. -/
def evaluate (r : Runner) (source : Text) : Except EngineError Value :=
  evaluateUnder r.settings r.process source

end Runner

end ConfigScript
