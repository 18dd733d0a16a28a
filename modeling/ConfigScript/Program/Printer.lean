import ConfigScript.Program
import ConfigScript.Token
/-!
# From programs to tokens

`Expr.tokenKinds` spells an expression with parentheses only where the binding of operators asks
for them, and `Program.tokens` spells a program with one statement a line. It is what the parser
undoes.
-/

namespace ConfigScript

def UnaryOp.token : UnaryOp → TokenKind
  | negate => .minus
  | plus => .plus
  | not => .not

def BinaryOp.token : BinaryOp → TokenKind
  | add => .plus
  | sub => .minus
  | mul => .star
  | div => .slash
  | pow => .caret
  | elemMul => .dotStar
  | elemDiv => .dotSlash
  | elemPow => .dotCaret
  | equal => .equal
  | notEqual => .notEqual
  | less => .less
  | lessEqual => .lessEqual
  | greater => .greater
  | greaterEqual => .greaterEqual
  | and => .and
  | or => .or
  | andAnd => .andAnd
  | orOr => .orOr

/-! ## Expressions -/

/-- How tightly expressions bind, from loose to tight. -/
inductive Binding where
  | orOr
  | andAnd
  | or
  | and
  | comparison
  | range
  | sum
  | product
  | sign
  | power
  | suffix
deriving Repr, DecidableEq, Inhabited

namespace Binding

def rank : Binding → Nat
  | orOr => 0
  | andAnd => 1
  | or => 2
  | and => 3
  | comparison => 4
  | range => 5
  | sum => 6
  | product => 7
  | sign => 8
  | power => 9
  | suffix => 10

/-- The next tighter binding. -/
def tighter : Binding → Binding
  | orOr => andAnd
  | andAnd => or
  | or => and
  | and => comparison
  | comparison => range
  | range => sum
  | sum => product
  | product => sign
  | sign => power
  | power | suffix => suffix

end Binding

def BinaryOp.binding : BinaryOp → Binding
  | orOr => .orOr
  | andAnd => .andAnd
  | or => .or
  | and => .and
  | equal | notEqual | less | lessEqual | greater | greaterEqual => .comparison
  | add | sub => .sum
  | mul | div | elemMul | elemDiv => .product
  | pow | elemPow => .power

namespace Expr

/-- Puts parentheses around an expression that binds more loosely than its place asks for. -/
def enclose (place own : Binding) (kinds : List TokenKind) : List TokenKind :=
  if own.rank < place.rank then .opening .round :: kinds ++ [.closing .round] else kinds

/-- Pieces with a token between neighbours. -/
def separated (separator : TokenKind) (pieces : List (List TokenKind)) : List TokenKind :=
  (pieces.intersperse [separator]).flatten

mutual

/-- The tokens of an expression in a place that asks for a binding. -/
def tokenKindsAt (place : Binding) : Expr → List TokenKind
  | number x => [.number x]
  | quoted content => [.quoted content]
  | name n => [.word n]
  | matrix rows =>
    .opening .square :: separated .semicolon (tokenKindsOfRows rows) ++ [.closing .square]
  | cell rows =>
    .opening .curly :: separated .semicolon (tokenKindsOfRows rows) ++ [.closing .curly]
  | unary op e => enclose place .sign (op.token :: tokenKindsAt .sign e)
  | binary .pow l r =>
    enclose place .power (tokenKindsAt .power l ++ .caret :: tokenKindsOfExponent r)
  | binary .elemPow l r =>
    enclose place .power (tokenKindsAt .power l ++ .dotCaret :: tokenKindsOfExponent r)
  | binary op l r =>
    enclose place op.binding
      (tokenKindsAt op.binding l ++ op.token :: tokenKindsAt op.binding.tighter r)
  | range start none stop =>
    enclose place .range (tokenKindsAt .sum start ++ .colon :: tokenKindsAt .sum stop)
  | range start (some step) stop =>
    enclose place .range (tokenKindsAt .sum start ++ .colon :: tokenKindsAt .sum step ++
      .colon :: tokenKindsAt .sum stop)
  | apply callee args =>
    tokenKindsAt .suffix callee ++ .opening .round ::
      separated .comma (tokenKindsOfList args) ++ [.closing .round]
  | brace callee args =>
    tokenKindsAt .suffix callee ++ .opening .curly ::
      separated .comma (tokenKindsOfList args) ++ [.closing .curly]
  | field base f => tokenKindsAt .suffix base ++ [.dot, .word f]
  | transpose e => tokenKindsAt .suffix e ++ [.transpose]

/-- The tokens of an exponent, which may have signs of its own. -/
def tokenKindsOfExponent : Expr → List TokenKind
  | unary op e => op.token :: tokenKindsOfExponent e
  | e => tokenKindsAt .suffix e

def tokenKindsOfList : List Expr → List (List TokenKind)
  | [] => []
  | e :: rest => tokenKindsAt .orOr e :: tokenKindsOfList rest

def tokenKindsOfRows : List (List Expr) → List (List TokenKind)
  | [] => []
  | row :: rest => separated .comma (tokenKindsOfList row) :: tokenKindsOfRows rest

end

/-- The tokens that spell an expression. -/
def tokenKinds (e : Expr) : List TokenKind := tokenKindsAt .orOr e

end Expr

/-! ## Statements -/

/-- Tokens on one line. -/
def Token.onLine (line : Nat) (kinds : List TokenKind) : List Token :=
  kinds.map fun kind => ⟨kind, line, 0⟩

/-- The word that a statement or a part of it begins with. -/
def keyword (word : String) : TokenKind := .word word.toList

mutual

/-- The tokens of a statement, on the line that it carries. -/
def Statement.tokens : Statement → List Token
  | .assign line target path value =>
    Token.onLine line (.word target :: path.flatMap (fun f => [.dot, .word f]) ++
      .assign :: value.tokenKinds ++ [.newline])
  | .eval line value => Token.onLine line (value.tokenKinds ++ [.newline])
  | .cond line branches none =>
    branchTokens line "if" branches ++ Token.onLine line [keyword "end", .newline]
  | .cond line branches (some body) =>
    branchTokens line "if" branches ++ Token.onLine line [keyword "else", .newline] ++
      Program.tokens body ++ Token.onLine line [keyword "end", .newline]

/-- The tokens of branches; the first begins with `word`. -/
def branchTokens (line : Nat) (word : String) : List Branch → List Token
  | [] => []
  | .mk condition body :: rest =>
    Token.onLine line (keyword word :: condition.tokenKinds ++ [.newline]) ++
      Program.tokens body ++ branchTokens line "elseif" rest

/-- The tokens that spell a program. -/
def Program.tokens : List Statement → List Token
  | [] => []
  | statement :: rest => statement.tokens ++ Program.tokens rest

end

end ConfigScript
