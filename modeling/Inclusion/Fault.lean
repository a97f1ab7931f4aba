import Inclusion.Text.Span
import Inclusion.Token
/-!
# Faults in a directive

A fault says what is wrong with the text of a directive and where. Most faults are tokens that cannot
stand where they stand; such a fault lists what could have stood there, in the order of the grammar.
-/

namespace Inclusion

inductive Expectation
  /-- A string, a number, or one of `true`, `false` and `null`. -/
  | literal
  /-- A name. -/
  | variable_
  /-- A name or a string before a colon. -/
  | mapKey
  | endOfInput
  | token (t : Token)
  deriving DecidableEq, Repr

def Expectation.describe : Expectation → String
  | literal => "literal"
  | variable_ => "variable"
  | mapKey => "map key"
  | endOfInput => "end of input"
  | token t => t.describe

namespace Fault

inductive Cause
  /-- Characters that no token is made of. -/
  | rejected (text : String)
  /-- A token, or the end of the input, where something else is expected. -/
  | unexpected (found : Option Token) (expected : List Expectation)
  /-- The component is not known before the directive is evaluated. -/
  | notConstant
  /-- The component reference has no component name. -/
  | noName (reference : String)
  /-- A fault that was found by someone else. -/
  | reported (message : String) (expected : List String)
  deriving DecidableEq, Repr

def Cause.message : Cause → String
  | rejected text => "Unexpected character '" ++ text ++ "'"
  | unexpected (some t) _ => "Unexpected " ++ t.describe
  | unexpected none _ => "Unexpected end of input"
  | notConstant => "component expression must be a constant string"
  | noName reference => "missing component name in '" ++ reference ++ "'"
  | reported message _ => message

def Cause.expected : Cause → List String
  | unexpected _ expected => expected.map Expectation.describe
  | reported _ expected => expected
  | _ => []

end Fault

/-- What is wrong with the text of a directive, and where. -/
structure Fault where
  cause : Fault.Cause
  span : Span
  deriving DecidableEq, Repr

namespace Fault

def message (f : Fault) : String :=
  f.cause.message

def expected (f : Fault) : List String :=
  f.cause.expected

def line (f : Fault) : String :=
  "Parse error at " ++ toString f.span.start ++ ".." ++ toString f.span.stop ++ ": " ++ f.message

end Fault

end Inclusion
