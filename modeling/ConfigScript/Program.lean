import ConfigScript.Text.Basic
/-!
# Programs

A program is a list of statements over expressions: assignments to a variable or one of its
fields, expressions run for their own sake, and conditionals.
-/

namespace ConfigScript

inductive UnaryOp where
  | negate
  | plus
  | not
deriving Repr, DecidableEq, Inhabited

inductive BinaryOp where
  | add
  | sub
  | mul
  | div
  | pow
  | elemMul
  | elemDiv
  | elemPow
  | equal
  | notEqual
  | less
  | lessEqual
  | greater
  | greaterEqual
  | and
  | or
  | andAnd
  | orOr
deriving Repr, DecidableEq, Inhabited

/-- The sign under which messages name an operator. -/
def UnaryOp.sign : UnaryOp → String
  | negate => "-"
  | plus => "+"
  | not => "~"

def BinaryOp.sign : BinaryOp → String
  | add => "+"
  | sub => "-"
  | mul => "*"
  | div => "/"
  | pow => "^"
  | elemMul => ".*"
  | elemDiv => "./"
  | elemPow => ".^"
  | equal => "=="
  | notEqual => "~="
  | less => "<"
  | lessEqual => "<="
  | greater => ">"
  | greaterEqual => ">="
  | and => "&"
  | or => "|"
  | andAnd => "&&"
  | orOr => "||"

inductive Expr where
  | number (value : Float)
  | quoted (content : Text)
  | name (name : Text)
  | matrix (rows : List (List Expr))
  | cell (rows : List (List Expr))
  | unary (op : UnaryOp) (operand : Expr)
  | binary (op : BinaryOp) (left right : Expr)
  | range (start : Expr) (step : Option Expr) (stop : Expr)
  /-- An index into a variable, or a call of a function if there is no such variable. -/
  | apply (callee : Expr) (args : List Expr)
  | brace (callee : Expr) (args : List Expr)
  | field (base : Expr) (field : Text)
  | transpose (operand : Expr)
deriving Repr, Inhabited

mutual

inductive Statement where
  /-- An assignment to the variable `target`, or to the field that `path` leads to in it. -/
  | assign (line : Nat) (target : Text) (path : List Text) (value : Expr)
  | eval (line : Nat) (value : Expr)
  /-- The first branch whose condition holds runs, and `otherwise` if there is none. -/
  | cond (line : Nat) (branches : List Branch) (otherwise : Option (List Statement))

inductive Branch where
  | mk (condition : Expr) (body : List Statement)

end

instance : Inhabited Statement := ⟨.eval 0 default⟩

instance : Inhabited Branch := ⟨.mk default []⟩

abbrev Program := List Statement

/-! ## Names -/

/-- Words that cannot name a variable. -/
def keywords : List Text :=
  ["if", "elseif", "else", "end", "for", "while", "switch", "case", "otherwise", "try", "catch",
    "function", "return", "break", "continue"].map String.toList

/-- Keywords of statements that configuration scripts do not have. -/
def unsupportedKeywords : List Text :=
  ["for", "while", "switch", "try", "function", "return", "break", "continue"].map String.toList

def isKeyword (name : Text) : Bool := keywords.contains name

/-- The longest name of a variable, in bytes. -/
def maxNameLength : Nat := 63

/-- A letter, then letters, digits and `_`; not too long and no keyword. -/
def isIdentifier : Text → Bool
  | [] => false
  | c :: t =>
    c.isAlpha && t.all (fun d => d.isAlphanum || d == '_') &&
      Text.byteLength (c :: t) ≤ maxNameLength && !isKeyword (c :: t)

end ConfigScript
