import Inclusion.Expr
import Inclusion.Token.Reader
/-!
# Reading expressions

    expr  = atom { "~" atom }
    atom  = literal | [ "-" ] number | map | list | name | "(" expr ")"
    map   = "{" [ key ":" expr { "," key ":" expr } [ "," ] ] "}"
    list  = "[" [ expr { "," expr } [ "," ] ] "]"
    name  = word { "." word }

The state of the reader is the brackets that are open, each with what was read before it, and a focus that
says what the reader is in the middle of. `expected` names the tokens for which there is a step.
Concatenation groups to the left, so the atoms to the left of the focus are always one expression.
-/

namespace Inclusion

namespace Expr

/-- `left ~ e`, or `e` alone if there is nothing to its left. -/
def join (left : Option Expr) (e : Expr) : Expr :=
  match left with
  | none => e
  | some l => concat l e

/-- An open bracket, with what was read before it. What is read in pieces is kept in reverse. -/
inductive Frame
  | paren (left : Option Expr)
  | list (left : Option Expr) (items : List Expr)
  | map (left : Option Expr) (entries : List (String × Expr)) (key : String)
  deriving Repr

/-- What a reader is in the middle of. -/
inductive Focus
  /-- Before an atom. -/
  | operand (left : Option Expr)
  /-- After a minus. -/
  | negated (left : Option Expr)
  /-- After a dot in a name. -/
  | segment (left : Option Expr) (path : List String)
  /-- After a word of a name. -/
  | name (left : Option Expr) (path : List String)
  /-- After an atom other than a name. -/
  | operator (e : Expr)
  /-- Before an item of a list, or its end. -/
  | item (left : Option Expr) (items : List Expr)
  /-- Before a key of a map, or its end. -/
  | key (left : Option Expr) (entries : List (String × Expr))
  /-- After a key of a map. -/
  | colon (left : Option Expr) (entries : List (String × Expr)) (key : String)
  deriving Repr

structure Reader where
  focus : Focus
  stack : List Frame
  deriving Repr

def literal? : Token → Option Scalar
  | .string s => some (.string s)
  | .bool b => some (.bool b)
  | .null => some .null
  | .integer n => some (.number (.int n))
  | .float x => some (Scalar.ofFloat x)
  | _ => none

def negated? : Token → Option Scalar
  | .integer n => some (.number (.int (-n)))
  | .float x => some (Scalar.ofFloat x.neg)
  | _ => none

def key? : Token → Option String
  | .string s => some s
  | t => t.word?

namespace Reader

def start : Reader := ⟨.operand none, []⟩

/-- The first token of an atom. -/
def stepOperand (left : Option Expr) (stack : List Frame) (t : Token) : Option Reader :=
  match literal? t with
  | some s => some ⟨.operator (join left (.literal s)), stack⟩
  | none =>
    match t.word? with
    | some w => some ⟨.name left [w], stack⟩
    | none =>
      match t with
      | .minus => some ⟨.negated left, stack⟩
      | .braceOpen => some ⟨.key left [], stack⟩
      | .bracketOpen => some ⟨.item left [], stack⟩
      | .parenOpen => some ⟨.operand none, .paren left :: stack⟩
      | _ => none

/-- A token after the expression `e`. -/
def stepOperator (e : Expr) (stack : List Frame) (t : Token) : Option Reader :=
  match t, stack with
  | .tilde, _ => some ⟨.operand (some e), stack⟩
  | .parenClose, .paren left :: rest => some ⟨.operator (join left e), rest⟩
  | .comma, .list left items :: rest => some ⟨.item left (e :: items), rest⟩
  | .bracketClose, .list left items :: rest => some ⟨.operator (join left (.list (e :: items).reverse)), rest⟩
  | .comma, .map left entries key :: rest => some ⟨.key left ((key, e) :: entries), rest⟩
  | .braceClose, .map left entries key :: rest =>
    some ⟨.operator (join left (.map ((key, e) :: entries).reverse)), rest⟩
  | _, _ => none

/-- The reader after one more token, if the token can stand there. -/
def step (r : Reader) (t : Token) : Option Reader :=
  match r.focus with
  | .operand left => stepOperand left r.stack t
  | .negated left => (negated? t).map fun s => ⟨.operator (join left (.literal s)), r.stack⟩
  | .segment left path => t.word?.map fun w => ⟨.name left (w :: path), r.stack⟩
  | .name left path =>
    if t = .dot then some ⟨.segment left path, r.stack⟩
    else stepOperator (join left (.name path.reverse)) r.stack t
  | .operator e => stepOperator e r.stack t
  | .item left items =>
    if t = .bracketClose then some ⟨.operator (join left (.list items.reverse)), r.stack⟩
    else stepOperand none (.list left items :: r.stack) t
  | .key left entries =>
    if t = .braceClose then some ⟨.operator (join left (.map entries.reverse)), r.stack⟩
    else (key? t).map fun k => ⟨.colon left entries k, r.stack⟩
  | .colon left entries k =>
    if t = .colon then some ⟨.operand none, .map left entries k :: r.stack⟩ else none

/-- The expression that has been read, if it can end here. -/
def finish (r : Reader) : Option Expr :=
  match r.stack, r.focus with
  | [], .operator e => some e
  | [], .name left path => some (join left (.name path.reverse))
  | _, _ => none

def operandExpected : List Expectation :=
  [.literal, .token .braceOpen, .token .bracketOpen, .variable_, .token .parenOpen]

def operatorExpected : List Frame → List Expectation
  | [] => [.token .tilde]
  | .paren _ :: _ => [.token .tilde, .token .parenClose]
  | .list _ _ :: _ => [.token .tilde, .token .comma, .token .bracketClose]
  | .map _ _ _ :: _ => [.token .tilde, .token .comma, .token .braceClose]

/-- What can come next inside the expression. After a dot or a minus nothing is named. -/
def expected (r : Reader) : List Expectation :=
  match r.focus with
  | .operand _ => operandExpected
  | .negated _ => []
  | .segment _ _ => []
  | .name _ _ => .token .dot :: operatorExpected r.stack
  | .operator _ => operatorExpected r.stack
  | .item _ _ => operandExpected ++ [.token .bracketClose]
  | .key _ _ => [.mapKey, .token .braceClose]
  | .colon _ _ _ => [.token .colon]

end Reader

/-- The reader of expressions. Where an expression can end, the end of the input is expected, too. -/
def reader : TokenReader Reader Expr where
  start := .start
  step := Reader.step
  finish := Reader.finish
  expected r := r.expected ++ if r.finish.isSome then [.endOfInput] else []

/-- The expression that the tokens are, all of them. -/
def ofTokens (tokens : List Token) : Except Stop Expr :=
  reader.read tokens

end Expr

end Inclusion
