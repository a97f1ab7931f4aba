import Inclusion.Expr.Reader
import Inclusion.Token.Lexer
/-!
# Directives

A directive includes a component: a tag, an expression for the component and up to three clauses.

    directive = body | "{%" body "%}"
    body      = tag expr [ "ignore" "missing" ] [ "with" expr ] [ "only" ]
-/

namespace Inclusion

structure Located (α : Type) where
  value : α
  span : Span
  deriving Repr

structure Directive where
  tag : String
  component : Located Expr
  vars : Option (Located Expr)
  only : Bool
  ignoreMissing : Bool
  span : Span
  deriving Repr

namespace Directive

/-- The fault for a stop among the lexemes of a text that ends at `stop`. At the end of the input the
place runs from the end of the text to the end of the last token. -/
def faultOfStop (lexemes : List Lexeme) (stop : Nat) (s : Stop) : Fault :=
  match lexemes[s.index]? with
  | some l => ⟨.unexpected (some l.token) s.expected, l.span⟩
  | none => ⟨.unexpected none s.expected, ⟨stop, (lexemes.getLast?.map (·.span.stop)).getD stop⟩⟩

/-- The lexemes of a text that begins at `offset`, if none of its characters are rejected. -/
def scan (offset : Nat) (cs : List Char) : Except Fault (List Lexeme) :=
  match Lexer.firstRejected offset cs with
  | some (text, span) => .error ⟨.rejected (String.ofList text), span⟩
  | none => .ok (Lexer.lexemes offset cs)

end Directive

def Expr.parse (text : String) : Except Fault Expr :=
  let cs := text.toList
  match Directive.scan 0 cs with
  | .error f => .error f
  | .ok lexemes =>
    match Expr.ofTokens (lexemes.map (·.token)) with
    | .ok e => .ok e
    | .error s => .error (Directive.faultOfStop lexemes (byteLength cs) s)

end Inclusion
