import ConfigScript.Token
/-!
# Errors in a script

A script fails while it is read or while it runs. An error holds the line and the cause; the
wording of a cause is in one place.
-/

namespace ConfigScript

/-- Why a script cannot be read. -/
inductive SyntaxCause where
  | unexpectedCharacter (c : Char)
  | unbalanced (bracket : Bracket)
  | unclosed (bracket : Bracket)
  | unterminatedString
  | emptyExpression
  | unexpectedToken (kind : TokenKind)
  | tokenAfterExpression (kind : TokenKind)
  | unexpectedWord (word : Text)
  | unsupportedStatement (word : Text)
  | indexedAssignment
  | missingEnd
  | missingFieldName
  | missingClosing (bracket : Bracket) (found : Option TokenKind)
  | unclosedBracket
  | endOfScript
  | badVariableName (name : Text)
  /-- A cause given in words by an engine of another make. -/
  | reported (message : Text)
deriving Repr, Inhabited

namespace SyntaxCause

def message : SyntaxCause → String
  | unexpectedCharacter c => s!"unexpected character '{c}'"
  | unbalanced b => s!"unbalanced '{b.closing}'"
  | unclosed b => s!"unclosed '{b.opening}'"
  | unterminatedString => "unterminated string"
  | emptyExpression => "empty expression"
  | unexpectedToken kind => s!"unexpected {kind.description}"
  | tokenAfterExpression kind => s!"unexpected {kind.description} after expression"
  | unexpectedWord word => s!"unexpected '{String.ofList word}'"
  | unsupportedStatement word => s!"'{String.ofList word}' is not supported in config scripts"
  | indexedAssignment => "indexed assignment is not supported"
  | missingEnd => "missing 'end'"
  | missingFieldName => "expected field name after '.'"
  | missingClosing b none => s!"expected '{b.closing}', found end of script"
  | missingClosing b (some kind) => s!"expected '{b.closing}', found {kind.description}"
  | unclosedBracket => "unclosed bracket"
  | endOfScript => "unexpected end of script"
  | badVariableName name => s!"invalid pre-bound variable name '{String.ofList name}'"
  | reported message => String.ofList message

end SyntaxCause

structure SyntaxError where
  line : Nat
  cause : SyntaxCause
deriving Repr, Inhabited

end ConfigScript
