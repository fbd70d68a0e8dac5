/-
Reports about a text that is not a program: what was wrong (`SyntaxError.Cause`) and where.

The wording is in `Cause.text`; `SyntaxError.message` puts the line and the column of the place in front.
-/
import ThreeMachines.Syntax.Token

namespace ThreeMachines

/-- what a reader was looking for when it met something else -/
inductive Expected where
  | expression
  | identifier
  | token (token : Token)
  | semicolonOrEnd
deriving DecidableEq, Repr

def Expected.text : Expected → String
  | expression => "expression"
  | identifier => "identifier"
  | token t => t.describe
  | semicolonOrEnd => "`;` or end of input"

namespace SyntaxError

inductive Cause where
  /-- a character at which no token starts -/
  | unexpectedCharacter (found : Char)
  /-- a run of digits whose value is beyond 64 bits -/
  | invalidNumber (digits : String)
  | unexpectedToken (expected : Expected) (found : Token)
  | unexpectedEnd (expected : Expected)
deriving DecidableEq, Repr

def Cause.text : Cause → String
  | unexpectedCharacter found => "unexpected character '" ++ found.toString ++ "'"
  | invalidNumber digits => "number literal `" ++ digits ++ "` does not fit in 64 bits"
  | unexpectedToken expected found => "expected " ++ expected.text ++ ", found " ++ found.describe
  | unexpectedEnd expected => "expected " ++ expected.text ++ ", found end of input"

end SyntaxError

structure SyntaxError where
  cause : SyntaxError.Cause
  span : Span
deriving DecidableEq, Repr

/-- `line:column: what was wrong` -/
def SyntaxError.message (e : SyntaxError) : String :=
  toString e.span.line ++ ":" ++ toString e.span.column ++ ": " ++ e.cause.text

end ThreeMachines
