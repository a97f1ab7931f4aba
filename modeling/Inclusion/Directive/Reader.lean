import Inclusion.Directive
/-!
# Reading directives

The clauses of a directive are optional and come in a fixed order. The reader of a directive hands tokens
to a reader of expressions as long as that has a step for them; a clause word is therefore a name where
an expression still needs one, and a clause everywhere else. Tokens are counted, so that the place of an
expression can be looked up afterwards.
-/

namespace Inclusion

namespace Directive

/-- What the tokens of a directive say. The tokens of an expression are those from the first index up to,
and without, the second. -/
structure Outline where
  component : Expr
  componentTokens : Nat × Nat
  vars : Option (Expr × Nat × Nat)
  only : Bool
  ignoreMissing : Bool
  deriving Repr

inductive Clauses
  | none
  | missing
  | vars
  | only
  deriving DecidableEq, Repr

/-- What a reader of directives is in the middle of. In a block, `block` is set. -/
inductive Phase
  | start
  | opened
  /-- In the component, whose first token has the index `first`. -/
  | component (block : Bool) (first : Nat) (r : Expr.Reader)
  /-- After `ignore`. -/
  | ignoring (block : Bool) (o : Outline)
  | between (block : Bool) (o : Outline) (last : Clauses)
  /-- In the expression after `with`, whose first token has the index `first`. -/
  | vars (block : Bool) (o : Outline) (first : Nat) (r : Expr.Reader)
  | closed (o : Outline)
  deriving Repr

def outline (component : Expr) (first next : Nat) : Outline :=
  ⟨component, (first, next), none, false, false⟩

/-- A token after the clauses that were read up to the index `n`. -/
def stepClause (n : Nat) (block : Bool) (o : Outline) (last : Clauses) (t : Token) : Option Phase :=
  match t, last with
  | .clause .ignore, .none => some (.ignoring block o)
  | .clause .with_, .none | .clause .with_, .missing => some (.vars block o (n + 1) .start)
  | .clause .only, .none | .clause .only, .missing | .clause .only, .vars =>
    some (.between block { o with only := true } .only)
  | .blockClose, _ => if block then some (.closed o) else none
  | _, _ => none

/-- What can come after the clauses that were read. -/
def clauseExpected (block : Bool) (last : Clauses) : List Expectation :=
  let clauses := match last with
    | .none => [.token (.clause .ignore), .token (.clause .with_), .token (.clause .only)]
    | .missing => [.token (.clause .with_), .token (.clause .only)]
    | .vars => [.token (.clause .only)]
    | .only => []
  clauses ++ [if block then .token .blockClose else .endOfInput]

namespace Phase

/-- The phase after one more token, the one with the index `n`, if the token can stand there. -/
def step (tag : String) (n : Nat) (p : Phase) (t : Token) : Option Phase :=
  match p with
  | start =>
    if t = .blockOpen then some opened
    else if t = .ident tag then some (component false (n + 1) .start)
    else none
  | opened => if t = .ident tag then some (component true (n + 1) .start) else none
  | component block first r =>
    match r.step t with
    | some r' => some (component block first r')
    | none => r.finish.bind fun e => stepClause n block (outline e first n) .none t
  | ignoring block o =>
    if t = .clause .missing then some (between block { o with ignoreMissing := true } .missing) else none
  | between block o last => stepClause n block o last t
  | vars block o first r =>
    match r.step t with
    | some r' => some (vars block o first r')
    | none => r.finish.bind fun e => stepClause n block { o with vars := some (e, first, n) } .vars t
  | closed _ => none

/-- The outline that has been read after `n` tokens, if the directive can end here. -/
def finish (n : Nat) : Phase → Option Outline
  | component false first r => r.finish.map fun e => outline e first n
  | between false o _ => some o
  | vars false o first r => r.finish.map fun e => { o with vars := some (e, first, n) }
  | closed o => some o
  | _ => none

def expected (tag : String) : Phase → List Expectation
  | start => [.token .blockOpen, .token (.ident tag)]
  | opened => [.token (.ident tag)]
  | component block _ r => r.expected ++ if r.finish.isSome then clauseExpected block .none else []
  | ignoring _ _ => [.token (.clause .missing)]
  | between block _ last => clauseExpected block last
  | vars block _ _ r => r.expected ++ if r.finish.isSome then clauseExpected block .vars else []
  | closed _ => [.endOfInput]

end Phase

/-- The reader of directives with a tag. Its states are phases with the number of tokens that have been read. -/
def reader (tag : String) : TokenReader (Nat × Phase) Outline where
  start := (0, .start)
  step s t := (s.2.step tag s.1 t).map fun p => (s.1 + 1, p)
  finish s := s.2.finish s.1
  expected s := s.2.expected tag

/-- What the tokens of a directive say, all of them. -/
def ofTokens (tag : String) (tokens : List Token) : Except Stop Outline :=
  (reader tag).read tokens

/-- The place of the tokens from one index up to, and without, another. -/
def spanOf (lexemes : List Lexeme) (first next : Nat) : Span :=
  ⟨(lexemes[first]?.map (·.span.start)).getD 0, (lexemes[next - 1]?.map (·.span.stop)).getD 0⟩

def ofOutline (tag : String) (lexemes : List Lexeme) (o : Outline) : Directive where
  tag := tag
  component := ⟨o.component, spanOf lexemes o.componentTokens.1 o.componentTokens.2⟩
  vars := o.vars.map fun (e, first, next) => ⟨e, spanOf lexemes first next⟩
  only := o.only
  ignoreMissing := o.ignoreMissing
  span := spanOf lexemes 0 lexemes.length

/-- The directive with the given tag that a text is, bare or as a block. The text begins at `offset` in
the text that places are counted in. -/
def parse (tag : String) (offset : Nat) (cs : List Char) : Except Fault Directive :=
  match scan offset cs with
  | .error f => .error f
  | .ok lexemes =>
    match ofTokens tag (lexemes.map (·.token)) with
    | .ok o => .ok (ofOutline tag lexemes o)
    | .error s => .error (faultOfStop lexemes (offset + byteLength cs) s)

end Directive

end Inclusion
