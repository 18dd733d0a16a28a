import ConfigScript.Program
import ConfigScript.ScriptError
/-!
# From tokens to programs

A recursive descent. Operators bind, from loose to tight: `||`, `&&`, `|`, `&`, comparisons, the
range colon, sums, products, signs, powers, and last transposition, fields, indices and calls.
Binary operators group to the left. Every step hands on the tokens it has not used, with a proof
that they are fewer than before (`Used`) or no more (`Kept`); that is why the descent ends.
-/

namespace ConfigScript

namespace Program

/-- What a step has read, and the tokens after it, fewer than `n`. -/
structure Used (α : Type) (n : Nat) where
  value : α
  rest : List Token
  lt : rest.length < n

/-- What a step has read, and the tokens after it, at most `n`. -/
structure Kept (α : Type) (n : Nat) where
  value : α
  rest : List Token
  le : rest.length ≤ n

/-- A step that uses at least one of `n` tokens. -/
abbrev Step (α : Type) (n : Nat) := Except SyntaxError (Used α n)

/-- A step that may use none of `n` tokens. -/
abbrev Tail (α : Type) (n : Nat) := Except SyntaxError (Kept α n)

/-- The line of the next token, and after the last token the last line that has one. -/
def lineAt (lastLine : Nat) : List Token → Nat
  | [] => lastLine
  | t :: _ => t.line

def fail {α : Type} (lastLine : Nat) (rest : List Token) (cause : SyntaxCause) :
    Except SyntaxError α :=
  .error ⟨lineAt lastLine rest, cause⟩

/-! ## Expressions -/

/-- The left-grouping binary levels, loosest first; the range lies between comparisons and
sums. -/
inductive Level where
  | orOr
  | andAnd
  | or
  | and
  | comparison
  | sum
  | product
deriving Repr, DecidableEq

namespace Level

/-- The operator of this level that a token stands for. -/
def operator? : Level → TokenKind → Option BinaryOp
  | orOr, .orOr => some .orOr
  | andAnd, .andAnd => some .andAnd
  | or, .or => some .or
  | and, .and => some .and
  | comparison, .equal => some .equal
  | comparison, .notEqual => some .notEqual
  | comparison, .less => some .less
  | comparison, .lessEqual => some .lessEqual
  | comparison, .greater => some .greater
  | comparison, .greaterEqual => some .greaterEqual
  | sum, .plus => some .add
  | sum, .minus => some .sub
  | product, .star => some .mul
  | product, .slash => some .div
  | product, .dotStar => some .elemMul
  | product, .dotSlash => some .elemDiv
  | _, _ => none

/-- Grows from tight to loose; orders the steps that start at the same token. -/
def rank : Level → Nat
  | product => 5
  | sum => 7
  | comparison => 10
  | and => 12
  | or => 14
  | andAnd => 16
  | orOr => 18

theorem rank_lt (level : Level) : level.rank < 32 := by
  cases level <;> decide

end Level

/-- The sign in front of an operand. -/
def sign? : TokenKind → Option UnaryOp
  | .minus => some .negate
  | .plus => some .plus
  | .not => some .not
  | _ => none

def power? : TokenKind → Option BinaryOp
  | .caret => some .pow
  | .dotCaret => some .elemPow
  | _ => none

/-- A row is kept unless it is empty. -/
def closeRow (row : List Expr) (rows : List (List Expr)) : List (List Expr) :=
  if row.isEmpty then rows else row.reverse :: rows

mutual

/-- Operands of one level, joined from the left. -/
def joined (lastLine : Nat) (level : Level) (tokens : List Token) : Step Expr tokens.length := do
  let ⟨first, rest, h⟩ ← operand lastLine level tokens
  let ⟨e, rest', h'⟩ ← joinMore lastLine level first rest
  return ⟨e, rest', by omega⟩
termination_by 32 * tokens.length + level.rank + 1

/-- An operand of a level: whatever binds tighter. -/
def operand (lastLine : Nat) (level : Level) (tokens : List Token) : Step Expr tokens.length :=
  match level with
  | .orOr => joined lastLine .andAnd tokens
  | .andAnd => joined lastLine .or tokens
  | .or => joined lastLine .and tokens
  | .and => joined lastLine .comparison tokens
  | .comparison => range lastLine tokens
  | .sum => joined lastLine .product tokens
  | .product => signed lastLine tokens
termination_by 32 * tokens.length + level.rank
decreasing_by all_goals simp [Level.rank]

/-- Goes on with a level's operators after `left`. -/
def joinMore (lastLine : Nat) (level : Level) (left : Expr) (tokens : List Token) :
    Tail Expr tokens.length :=
  match tokens with
  | [] => .ok ⟨left, [], Nat.le_refl _⟩
  | t :: rest =>
    match level.operator? t.kind with
    | none => .ok ⟨left, t :: rest, Nat.le_refl _⟩
    | some op => do
      have := level.rank_lt
      let ⟨right, rest', h⟩ ← operand lastLine level rest
      let ⟨e, rest'', h'⟩ ← joinMore lastLine level (.binary op left right) rest'
      return ⟨e, rest'', by simp only [List.length_cons]; omega⟩
termination_by 32 * tokens.length

/-- `start`, `start:stop` or `start:step:stop`. -/
def range (lastLine : Nat) (tokens : List Token) : Step Expr tokens.length := do
  let ⟨start, afterStart, h⟩ ← joined lastLine .sum tokens
  match afterStart, h with
  | ⟨.colon, _, _⟩ :: rest, h => do
    have h : rest.length + 1 < tokens.length := h
    let ⟨second, afterSecond, h'⟩ ← joined lastLine .sum rest
    match afterSecond, h' with
    | ⟨.colon, _, _⟩ :: rest', h' => do
      have h' : rest'.length + 1 < rest.length := h'
      let ⟨stop, afterStop, _⟩ ← joined lastLine .sum rest'
      return ⟨.range start (some second) stop, afterStop, by omega⟩
    | afterSecond, h' => return ⟨.range start none second, afterSecond, by omega⟩
  | afterStart, h => return ⟨start, afterStart, h⟩
termination_by 32 * tokens.length + 9
decreasing_by all_goals (try simp only [Level.rank]); omega

/-- Signs, then a power. -/
def signed (lastLine : Nat) (tokens : List Token) : Step Expr tokens.length :=
  match tokens with
  | [] => power lastLine []
  | t :: rest =>
    match sign? t.kind with
    | some op => do
      let ⟨operand, rest', h⟩ ← signed lastLine rest
      return ⟨.unary op operand, rest', Nat.lt_succ_of_lt h⟩
    | none => power lastLine (t :: rest)
termination_by 32 * tokens.length + 4

/-- A base and the exponents after it. -/
def power (lastLine : Nat) (tokens : List Token) : Step Expr tokens.length := do
  let ⟨base, rest, h⟩ ← attachment lastLine tokens
  let ⟨e, rest', h'⟩ ← powerMore lastLine base rest
  return ⟨e, rest', by omega⟩
termination_by 32 * tokens.length + 3

def powerMore (lastLine : Nat) (base : Expr) (tokens : List Token) : Tail Expr tokens.length :=
  match tokens with
  | [] => .ok ⟨base, [], Nat.le_refl _⟩
  | t :: rest =>
    match power? t.kind with
    | none => .ok ⟨base, t :: rest, Nat.le_refl _⟩
    | some op => do
      let ⟨e, rest', h⟩ ← exponent lastLine rest
      let ⟨e, rest'', h'⟩ ← powerMore lastLine (.binary op base e) rest'
      return ⟨e, rest'', by simp only [List.length_cons]; omega⟩
termination_by 32 * tokens.length

/-- An exponent may have signs of its own. -/
def exponent (lastLine : Nat) (tokens : List Token) : Step Expr tokens.length :=
  match tokens with
  | [] => attachment lastLine []
  | t :: rest =>
    match sign? t.kind with
    | some op => do
      let ⟨operand, rest', h⟩ ← exponent lastLine rest
      return ⟨.unary op operand, rest', Nat.lt_succ_of_lt h⟩
    | none => attachment lastLine (t :: rest)
termination_by 32 * tokens.length + 3

/-- A primary expression and what is attached behind it. -/
def attachment (lastLine : Nat) (tokens : List Token) : Step Expr tokens.length := do
  let ⟨base, rest, h⟩ ← primary lastLine tokens
  let ⟨e, rest', h'⟩ ← attached lastLine base rest
  return ⟨e, rest', by omega⟩
termination_by 32 * tokens.length + 2

/-- Transpositions, fields, indices and calls behind `base`. -/
def attached (lastLine : Nat) (base : Expr) (tokens : List Token) : Tail Expr tokens.length :=
  match tokens with
  | ⟨.transpose, _, _⟩ :: rest => do
    let ⟨e, rest', h⟩ ← attached lastLine (.transpose base) rest
    return ⟨e, rest', Nat.le_succ_of_le h⟩
  | ⟨.dot, _, _⟩ :: ⟨.word field, _, _⟩ :: rest => do
    let ⟨e, rest', h⟩ ← attached lastLine (.field base field) rest
    return ⟨e, rest', Nat.le_succ_of_le (Nat.le_succ_of_le h)⟩
  | ⟨.dot, _, _⟩ :: rest => fail lastLine (rest.drop 1) .missingFieldName
  | ⟨.opening .round, _, _⟩ :: rest => do
    let ⟨args, rest', h⟩ ← arguments lastLine .round rest
    let ⟨e, rest'', h'⟩ ← attached lastLine (.apply base args) rest'
    return ⟨e, rest'', by simp only [List.length_cons]; omega⟩
  | ⟨.opening .curly, _, _⟩ :: rest => do
    let ⟨args, rest', h⟩ ← arguments lastLine .curly rest
    let ⟨e, rest'', h'⟩ ← attached lastLine (.brace base args) rest'
    return ⟨e, rest'', by simp only [List.length_cons]; omega⟩
  | rest => .ok ⟨base, rest, Nat.le_refl _⟩
termination_by 32 * tokens.length

/-- Arguments up to the closing bracket. -/
def arguments (lastLine : Nat) (bracket : Bracket) (tokens : List Token) :
    Step (List Expr) tokens.length :=
  match tokens with
  | [] => moreArguments lastLine bracket []
  | t :: rest =>
    if t.kind == .closing bracket then .ok ⟨[], rest, Nat.lt_succ_self _⟩
    else moreArguments lastLine bracket (t :: rest)
termination_by 32 * tokens.length + 21

/-- At least one argument, up to the closing bracket. -/
def moreArguments (lastLine : Nat) (bracket : Bracket) (tokens : List Token) :
    Step (List Expr) tokens.length := do
  let ⟨arg, after, h⟩ ← joined lastLine .orOr tokens
  match after, h with
  | [], _ => fail lastLine [] (.missingClosing bracket none)
  | t :: rest, h =>
    have h : rest.length + 1 < tokens.length := h
    if t.kind == .comma then do
      let ⟨args, rest', _⟩ ← moreArguments lastLine bracket rest
      return ⟨arg :: args, rest', by omega⟩
    else if t.kind == .closing bracket then return ⟨[arg], rest, by omega⟩
    else fail lastLine (t :: rest) (.missingClosing bracket (some t.kind))
termination_by 32 * tokens.length + 20
decreasing_by all_goals (try simp only [Level.rank]); omega

/-- A literal, a name, a parenthesis or a bracket of rows. -/
def primary (lastLine : Nat) (tokens : List Token) : Step Expr tokens.length :=
  match tokens with
  | [] => fail lastLine [] .endOfScript
  | t :: rest =>
    match t.kind with
    | .number x => .ok ⟨.number x, rest, Nat.lt_succ_self _⟩
    | .quoted content => .ok ⟨.quoted content, rest, Nat.lt_succ_self _⟩
    | .word name =>
      if isKeyword name then fail lastLine (t :: rest) (.unexpectedWord name)
      else .ok ⟨.name name, rest, Nat.lt_succ_self _⟩
    | .opening .round => do
      let ⟨inner, rest', h⟩ ← joined lastLine .orOr rest
      match rest', h with
      | [], _ => fail lastLine [] (.missingClosing .round none)
      | u :: rest'', h =>
        have h : rest''.length + 1 < rest.length := h
        if u.kind == .closing .round then
          return ⟨inner, rest'', by simp only [List.length_cons]; omega⟩
        else fail lastLine (u :: rest'') (.missingClosing .round (some u.kind))
    | .opening .square => do
      let ⟨rows, rest', h⟩ ← rowsUpTo lastLine .square [] [] rest
      return ⟨.matrix rows, rest', Nat.lt_succ_of_lt h⟩
    | .opening .curly => do
      let ⟨rows, rest', h⟩ ← rowsUpTo lastLine .curly [] [] rest
      return ⟨.cell rows, rest', Nat.lt_succ_of_lt h⟩
    | kind => fail lastLine (t :: rest) (.unexpectedToken kind)
termination_by 32 * tokens.length + 1
decreasing_by all_goals (try simp only [Level.rank, List.length_cons]); omega

/-- The rows of a bracket. `row` holds the elements read of the current row and `rows` the rows
before it, latest first; empty rows are dropped. -/
def rowsUpTo (lastLine : Nat) (bracket : Bracket) (row : List Expr) (rows : List (List Expr))
    (tokens : List Token) : Step (List (List Expr)) tokens.length :=
  match tokens with
  | [] => fail lastLine [] .unclosedBracket
  | t :: rest =>
    if t.kind == .closing bracket then
      .ok ⟨(closeRow row rows).reverse, rest, Nat.lt_succ_self _⟩
    else if t.kind == .semicolon then do
      let ⟨all, rest', h⟩ ← rowsUpTo lastLine bracket [] (closeRow row rows) rest
      return ⟨all, rest', Nat.lt_succ_of_lt h⟩
    else if t.kind == .comma then do
      let ⟨all, rest', h⟩ ← rowsUpTo lastLine bracket row rows rest
      return ⟨all, rest', Nat.lt_succ_of_lt h⟩
    else do
      let ⟨element, rest', h⟩ ← joined lastLine .orOr (t :: rest)
      let ⟨all, rest'', _⟩ ← rowsUpTo lastLine bracket (element :: row) rows rest'
      return ⟨all, rest'', by omega⟩
termination_by 32 * tokens.length + 20
decreasing_by all_goals (try simp only [Level.rank, List.length_cons] at *); omega

end

/-- An expression, its loosest operators included. -/
def expression (lastLine : Nat) (tokens : List Token) : Step Expr tokens.length :=
  joined lastLine .orOr tokens

/-! ## Statements -/

def skipSeparators (tokens : List Token) : List Token :=
  tokens.dropWhile (·.kind.separates)

theorem skipSeparators_length (tokens : List Token) :
    (skipSeparators tokens).length ≤ tokens.length :=
  (List.dropWhile_suffix _).length_le

/-- The field path and the tokens after the `=` of an assignment, given the tokens after its
variable. -/
def assignmentPath? : (tokens : List Token) → Option (Used (List Text) tokens.length)
  | ⟨.assign, _, _⟩ :: rest => some ⟨[], rest, Nat.lt_succ_self _⟩
  | ⟨.dot, _, _⟩ :: ⟨.word field, _, _⟩ :: rest =>
    (assignmentPath? rest).map fun r =>
      ⟨field :: r.value, r.rest, Nat.lt_succ_of_lt (Nat.lt_succ_of_lt r.lt)⟩
  | _ => none

/-- Whether the next token is one of these words. -/
def atWord (words : List Text) : List Token → Bool
  | ⟨.word name, _, _⟩ :: _ => words.contains name
  | _ => false

/-- Whether a statement may end before these tokens. -/
def endsStatement (ends : List Text) : List Token → Bool
  | [] => true
  | t :: rest => t.kind.separates || atWord ends (t :: rest)

/-- What is wrong with these tokens after a statement. -/
def afterStatement : List Token → SyntaxCause
  | ⟨.assign, _, _⟩ :: _ => .indexedAssignment
  | t :: _ => .unexpectedToken t.kind
  | [] => .missingEnd

/-- The words that end the body of a branch. -/
def branchEnds : List Text := ["elseif", "else", "end"].map String.toList

/-- The words that end the last body of a conditional. -/
def lastEnds : List Text := ["end"].map String.toList

mutual

/-- Statements up to one of the words in `ends`, which is not used up, or up to the end of the
script if there are no such words. -/
def block (lastLine : Nat) (ends : List Text) (tokens : List Token) :
    Tail (List Statement) tokens.length :=
  match h : skipSeparators tokens with
  | [] =>
    if ends.isEmpty then .ok ⟨[], [], Nat.zero_le _⟩ else fail lastLine [] .missingEnd
  | t :: here =>
    have hs : here.length + 1 ≤ tokens.length := by
      simpa [h] using skipSeparators_length tokens
    if atWord ends (t :: here) then .ok ⟨[], t :: here, hs⟩
    else do
      let ⟨first, rest, hr⟩ ← statement lastLine (t :: here)
      have hr : rest.length < here.length + 1 := hr
      if endsStatement ends rest then do
        let ⟨more, rest', _⟩ ← block lastLine ends rest
        return ⟨first :: more, rest', by omega⟩
      else fail lastLine rest (afterStatement rest)
termination_by 4 * tokens.length + 1
decreasing_by all_goals (try simp only [List.length_cons]); omega

/-- One statement. -/
def statement (lastLine : Nat) (tokens : List Token) : Step Statement tokens.length :=
  match tokens with
  | ⟨.word name, line, offset⟩ :: rest =>
    if name = "if".toList then do
      let ⟨condition, rest', h⟩ ← expression lastLine rest
      let ⟨body, rest'', h'⟩ ← block lastLine branchEnds rest'
      let ⟨(branches, otherwise), after, h''⟩ ← branchesAfter lastLine rest''
      return ⟨.cond line (.mk condition body :: branches) otherwise, after,
        by simp only [List.length_cons]; omega⟩
    else if unsupportedKeywords.contains name then
      .error ⟨line, .unsupportedStatement name⟩
    else if isKeyword name then .error ⟨line, .unexpectedWord name⟩
    else
      match assignmentPath? rest with
      | some ⟨path, rest', h⟩ => do
        let ⟨value, rest'', h'⟩ ← expression lastLine rest'
        return ⟨.assign line name path value, rest'', by simp only [List.length_cons]; omega⟩
      | none => do
        let ⟨value, rest', h⟩ ← expression lastLine (⟨.word name, line, offset⟩ :: rest)
        return ⟨.eval line value, rest', h⟩
  | tokens => do
    let ⟨value, rest, h⟩ ← expression lastLine tokens
    return ⟨.eval (lineAt lastLine tokens) value, rest, h⟩
termination_by 4 * tokens.length
decreasing_by all_goals (try simp only [List.length_cons]); omega

/-- The branches of a conditional after its first, from the word that ends that one's body to
the last `end`. -/
def branchesAfter (lastLine : Nat) (tokens : List Token) :
    Step (List Branch × Option (List Statement)) tokens.length :=
  match tokens with
  | ⟨.word name, _, _⟩ :: rest =>
    if name = "elseif".toList then do
      let ⟨condition, rest', h⟩ ← expression lastLine rest
      let ⟨body, rest'', h'⟩ ← block lastLine branchEnds rest'
      let ⟨(branches, otherwise), after, h''⟩ ← branchesAfter lastLine rest''
      return ⟨(.mk condition body :: branches, otherwise), after,
        by simp only [List.length_cons]; omega⟩
    else if name = "else".toList then do
      let ⟨body, rest', h⟩ ← block lastLine lastEnds rest
      return ⟨([], some body), rest'.drop 1, by simp only [List.length_drop, List.length_cons]; omega⟩
    else return ⟨([], none), rest, Nat.lt_succ_self _⟩
  | rest => fail lastLine (rest.drop 1) .missingEnd
termination_by 4 * tokens.length
decreasing_by all_goals (try simp only [List.length_cons]); omega

end

/-- The line of the last token; of no tokens, the first line. -/
def lastLine (tokens : List Token) : Nat :=
  match tokens.getLast? with
  | some t => t.line
  | none => 1

/-- The program that the tokens spell. -/
def ofTokens (tokens : List Token) : Except SyntaxError Program := do
  let ⟨program, rest, _⟩ ← block (lastLine tokens) [] tokens
  match rest with
  | [] => return program
  | t :: _ => fail (lastLine tokens) rest (.unexpectedToken t.kind)

end Program

open Program in
/-- The one expression that the tokens spell, between separators. -/
def Expr.ofTokens (tokens : List Token) : Except SyntaxError Expr := do
  let last := lastLine tokens
  let here := skipSeparators tokens
  if here.isEmpty then .error ⟨1, .emptyExpression⟩
  else
    let ⟨e, rest, _⟩ ← expression last here
    match skipSeparators rest with
    | [] => return e
    | t :: rest => fail last (t :: rest) (.tokenAfterExpression t.kind)

end ConfigScript
