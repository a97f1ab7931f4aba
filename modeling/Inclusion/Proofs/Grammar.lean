import Inclusion.Directive.Reader
/-!
# The grammar of directives

The derivations of the grammar as trees: a tree says which tokens it derives (`tokens`) and what it stands for
(`expr`). Nothing here reads anything; that the readers accept exactly the derivable token sequences is shown
elsewhere.

    chain    = atom { "~" atom }
    atom     = literal | "-" numeral | word { "." word } | "(" chain ")" | "[" items "]" | "{" entries "}"
    items    = [ chain [ "," items ] ]
    entries  = [ key ":" chain [ "," entries ] ]
    sentence = body | "{%" body "%}"
    body     = tag chain [ "ignore" "missing" ] [ "with" chain ] [ "only" ]

A comma can stand after the last item or entry, because what follows a comma can be empty, and nowhere else.
-/

namespace Inclusion

namespace Grammar

/-- A number without a sign. -/
inductive Numeral
  | integer (n : Nat)
  | float (x : Binary64)

inductive Literal
  | string (s : String)
  | bool (b : Bool)
  | null
  | numeral (n : Numeral)

/-- A segment of a name. The words of the clauses are names, too. -/
inductive Word
  | ident (name : String)
  | clause (c : Clause)

/-- A key of a map. -/
inductive Key
  | word (w : Word)
  | string (s : String)

mutual

inductive Chain
  | one (a : Atom)
  | cons (a : Atom) (rest : Chain)

inductive Atom
  | literal (l : Literal)
  | negative (n : Numeral)
  | name (first : Word) (rest : List Word)
  | paren (c : Chain)
  | list (items : Items)
  | map (entries : Entries)

inductive Items
  | nil
  | one (c : Chain)
  | cons (c : Chain) (rest : Items)

inductive Entries
  | nil
  | one (k : Key) (c : Chain)
  | cons (k : Key) (c : Chain) (rest : Entries)

end

/-! ### The tokens that are derived -/

def Numeral.token : Numeral → Token
  | integer n => .integer n
  | float x => .float x

def Literal.token : Literal → Token
  | string s => .string s
  | bool b => .bool b
  | null => .null
  | numeral n => n.token

def Word.token : Word → Token
  | ident name => .ident name
  | clause c => .clause c

def Key.token : Key → Token
  | word w => w.token
  | string s => .string s

/-- The words after the first one of a name, each with its dot. -/
def segments (words : List Word) : List Token :=
  words.flatMap fun w => [.dot, w.token]

mutual

def Chain.tokens : Chain → List Token
  | .one a => a.tokens
  | .cons a rest => a.tokens ++ .tilde :: rest.tokens

def Atom.tokens : Atom → List Token
  | .literal l => [l.token]
  | .negative n => [.minus, n.token]
  | .name first rest => first.token :: segments rest
  | .paren c => .parenOpen :: (c.tokens ++ [.parenClose])
  | .list items => .bracketOpen :: (items.tokens ++ [.bracketClose])
  | .map entries => .braceOpen :: (entries.tokens ++ [.braceClose])

def Items.tokens : Items → List Token
  | .nil => []
  | .one c => c.tokens
  | .cons c rest => c.tokens ++ .comma :: rest.tokens

def Entries.tokens : Entries → List Token
  | .nil => []
  | .one k c => k.token :: .colon :: c.tokens
  | .cons k c rest => k.token :: .colon :: (c.tokens ++ .comma :: rest.tokens)

end

/-! ### What a tree stands for -/

def Numeral.scalar : Numeral → Scalar
  | integer n => .number (.int n)
  | float x => .ofFloat x

def Numeral.negative : Numeral → Scalar
  | integer n => .number (.int (-n))
  | float x => .ofFloat x.neg

def Literal.scalar : Literal → Scalar
  | string s => .string s
  | bool b => .bool b
  | null => .null
  | numeral n => n.scalar

def Word.text : Word → String
  | ident name => name
  | clause c => c.text

def Key.text : Key → String
  | word w => w.text
  | string s => s

mutual

/-- The expression for a chain with `left` before it: the atoms are joined from the left. -/
def Chain.exprAfter (left : Option Expr) : Chain → Expr
  | .one a => Expr.join left a.expr
  | .cons a rest => rest.exprAfter (some (Expr.join left a.expr))

/-- Parentheses leave nothing behind. -/
def Atom.expr : Atom → Expr
  | .literal l => .literal l.scalar
  | .negative n => .literal n.negative
  | .name first rest => .name (first.text :: rest.map Word.text)
  | .paren c => c.exprAfter none
  | .list items => .list items.exprs
  | .map entries => .map entries.pairs

def Items.exprs : Items → List Expr
  | .nil => []
  | .one c => [c.exprAfter none]
  | .cons c rest => c.exprAfter none :: rest.exprs

def Entries.pairs : Entries → List (String × Expr)
  | .nil => []
  | .one k c => [(k.text, c.exprAfter none)]
  | .cons k c rest => (k.text, c.exprAfter none) :: rest.pairs

end

/-- The expression that a chain is. -/
def Chain.expr (c : Chain) : Expr :=
  c.exprAfter none

/-! ### Sentences -/

/-- A directive, bare or in a block. -/
structure Sentence where
  block : Bool
  component : Chain
  missing : Bool
  vars : Option Chain
  only : Bool

namespace Sentence

/-- The tokens up to the component. -/
def head (tag : String) (block : Bool) : List Token :=
  if block then [.blockOpen, .ident tag] else [.ident tag]

def missingTokens (missing : Bool) : List Token :=
  if missing then [.clause .ignore, .clause .missing] else []

def varsTokens : Option Chain → List Token
  | none => []
  | some c => .clause .with_ :: c.tokens

def onlyTokens (only : Bool) : List Token :=
  if only then [.clause .only] else []

def closeTokens (block : Bool) : List Token :=
  if block then [.blockClose] else []

/-- The tokens of a directive without the closing of its block. -/
def openTokens (tag : String) (s : Sentence) : List Token :=
  head tag s.block ++ s.component.tokens ++ missingTokens s.missing ++ varsTokens s.vars ++ onlyTokens s.only

def tokens (tag : String) (s : Sentence) : List Token :=
  s.openTokens tag ++ closeTokens s.block

/-- What the directive says, with the places of its expressions among the tokens. -/
def outline (tag : String) (s : Sentence) : Directive.Outline where
  component := s.component.expr
  componentTokens :=
    let before := (head tag s.block).length
    (before, before + s.component.tokens.length)
  vars := s.vars.map fun c =>
    let before := (head tag s.block ++ s.component.tokens ++ missingTokens s.missing).length + 1
    (c.expr, before, before + c.tokens.length)
  only := s.only
  ignoreMissing := s.missing

end Sentence

end Grammar

end Inclusion
