import Inclusion.Number.Text
/-!
# Tokens

The tokens that the body of a directive is made of. The clause words `ignore`, `missing`, `with` and
`only` are tokens of their own, yet inside an expression they are also ordinary names; `Token.word?` says
which tokens can stand for a name.
-/

namespace Inclusion

/-- A word that opens or continues a clause of a directive. -/
inductive Clause
  | ignore
  | missing
  | with_
  | only
  deriving DecidableEq, Repr

def Clause.text : Clause → String
  | ignore => "ignore"
  | missing => "missing"
  | with_ => "with"
  | only => "only"

inductive Token
  /-- `{%`, `{%-` or `{%~` -/
  | blockOpen
  /-- `%}`, `-%}` or `~%}` -/
  | blockClose
  | clause (c : Clause)
  | bool (b : Bool)
  /-- `null` or `none` -/
  | null
  | braceOpen
  | braceClose
  | bracketOpen
  | bracketClose
  | parenOpen
  | parenClose
  | comma
  | colon
  | dot
  | tilde
  | minus
  | ident (name : String)
  /-- A quoted string, with its escapes resolved. -/
  | string (contents : String)
  /-- A run of digits below `2 ^ 63`. -/
  | integer (n : Nat)
  | float (x : Binary64)
  deriving DecidableEq, Repr

namespace Token

/-- The name that the token stands for where a name is expected. -/
def word? : Token → Option String
  | ident name => some name
  | clause c => some c.text
  | _ => none

def describe : Token → String
  | blockOpen => "'\x7b%'"
  | blockClose => "'%\x7d'"
  | clause c => "keyword '" ++ c.text ++ "'"
  | bool true => "keyword 'true'"
  | bool false => "keyword 'false'"
  | null => "keyword 'null'"
  | braceOpen => "'\x7b'"
  | braceClose => "'\x7d'"
  | bracketOpen => "'['"
  | bracketClose => "']'"
  | parenOpen => "'('"
  | parenClose => "')'"
  | comma => "','"
  | colon => "':'"
  | dot => "'.'"
  | tilde => "'~'"
  | minus => "'-'"
  | ident name => "identifier '" ++ name ++ "'"
  | string contents => "string \"" ++ contents ++ "\""
  | integer n => "number " ++ toString n
  | float x => "number " ++ String.ofList (FloatFormat.message.text x)

end Token

end Inclusion
