import ConfigScript.Number.Layout
/-!
# Tokens

A script is read as a list of tokens. Each token knows its kind, the line it starts on and the
byte it starts at.
-/

namespace ConfigScript

inductive Bracket where
  | round
  | square
  | curly
deriving Repr, DecidableEq, Inhabited

namespace Bracket

def opening : Bracket → Char
  | round => '('
  | square => '['
  | curly => '\x7b'

def closing : Bracket → Char
  | round => ')'
  | square => ']'
  | curly => '\x7d'

/-- Whether blanks separate elements inside the bracket. -/
def concatenates : Bracket → Bool
  | round => false
  | square | curly => true

end Bracket

inductive TokenKind where
  | number (value : Float)
  | quoted (content : Text)
  | word (name : Text)
  | plus
  | minus
  | star
  | slash
  | caret
  | dotStar
  | dotSlash
  | dotCaret
  | transpose
  | assign
  | equal
  | notEqual
  | less
  | lessEqual
  | greater
  | greaterEqual
  | andAnd
  | orOr
  | and
  | or
  | not
  | opening (bracket : Bracket)
  | closing (bracket : Bracket)
  | comma
  | semicolon
  | newline
  | colon
  | dot
deriving Repr, BEq, Inhabited

namespace TokenKind

/-- Can stand at the end of an operand, so that an apostrophe right after it transposes and a
blank after it may separate elements. -/
def endsOperand : TokenKind → Bool
  | number _ | quoted _ | word _ | closing _ | transpose => true
  | _ => false

/-- Separates statements. -/
def separates : TokenKind → Bool
  | newline | semicolon | comma => true
  | _ => false

/-- The name of the kind. -/
def label : TokenKind → String
  | number _ => "Number"
  | quoted _ => "Str"
  | word _ => "Ident"
  | plus => "Plus"
  | minus => "Minus"
  | star => "Star"
  | slash => "Slash"
  | caret => "Caret"
  | dotStar => "DotStar"
  | dotSlash => "DotSlash"
  | dotCaret => "DotCaret"
  | transpose => "Transpose"
  | assign => "Assign"
  | equal => "EqEq"
  | notEqual => "NotEq"
  | less => "Lt"
  | lessEqual => "Le"
  | greater => "Gt"
  | greaterEqual => "Ge"
  | andAnd => "AndAnd"
  | orOr => "OrOr"
  | and => "And"
  | or => "Or"
  | not => "Not"
  | opening .round => "LParen"
  | opening .square => "LBracket"
  | opening .curly => "LBrace"
  | closing .round => "RParen"
  | closing .square => "RBracket"
  | closing .curly => "RBrace"
  | comma => "Comma"
  | semicolon => "Semicolon"
  | newline => "Newline"
  | colon => "Colon"
  | dot => "Dot"

/-- How a message names a token of this kind. -/
def description : TokenKind → String
  | number x => "number " ++ String.ofList (Number.Layout.plain.text x)
  | quoted content => "string '" ++ String.ofList content ++ "'"
  | word name => "'" ++ String.ofList name ++ "'"
  | newline => "end of line"
  | kind => kind.label

end TokenKind

structure Token where
  kind : TokenKind
  /-- Counted from one. -/
  line : Nat
  /-- The byte at which the token starts; for a comma that a blank stands for, the byte at which
  the next element starts. -/
  offset : Nat
deriving Repr, BEq, Inhabited

end ConfigScript
