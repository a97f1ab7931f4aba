import Inclusion.Yaml.Tag
import Inclusion.Yaml.Text
import Inclusion.Yaml.Token
/-!
# Taking a YAML text apart into tokens

Two things make tokens depend on what comes before them. Indentation opens and closes blocks: a lexer
keeps the columns of the blocks that are open. And a key is only known for one by the colon after it: a
lexer keeps, for each pair of brackets that is open, the token that may turn out to be a key. Such a token
has to be on the line of the colon and at most 1024 characters before it.
-/

namespace Inclusion

namespace Yaml

/-- A token that may turn out to be a key. -/
structure KeyMark where
  /-- The token has to be a key, because its line would have no meaning otherwise. -/
  required : Bool
  /-- How many tokens come before it. -/
  position : Nat
  index : Nat
  line : Nat
  column : Nat
  deriving Repr

structure Lexer where
  cursor : Cursor
  /-- The marks of the brackets that are open, the innermost first, and then of what is outside them. -/
  marks : List (Option KeyMark) := [none]
  /-- A key can start here. -/
  keyAllowed : Bool := true
  /-- The columns of the blocks that are open, the innermost first. -/
  columns : List Nat := []
  /-- The tokens that were found, the last one first. -/
  found : List Token := []
  deriving Repr

namespace Lexer

def inFlow (l : Lexer) : Bool :=
  1 < l.marks.length

def push (t : Token) (l : Lexer) : Lexer :=
  { l with found := t :: l.found }

/-- Adds a token of `n` characters. -/
def take (t : Token) (n : Nat) (l : Lexer) : Lexer :=
  { l with found := t :: l.found, cursor := l.cursor.advance n }

/-- Puts a token after the first `position` ones. -/
def insert (t : Token) (position : Nat) (l : Lexer) : Lexer :=
  { l with found := l.found.insertIdx (l.found.length - position) t }

/-- Opens a block at the column if it is further in than the innermost one. Its token comes after the
first `position` ones. -/
def openBlock (t : Token) (column position : Nat) (l : Lexer) : Lexer :=
  if l.inFlow || l.columns.head?.any (column ≤ ·) then l
  else { l.insert t position with columns := column :: l.columns }

/-- Closes the blocks that are further in than the column; without a column all of them. -/
def closeBlocks (column : Option Nat) (l : Lexer) : Lexer :=
  if l.inFlow then l
  else
    let closed := match column with
      | some c => l.columns.takeWhile (c < ·)
      | none => l.columns
    { l with
      found := List.replicate closed.length .blockEnd ++ l.found
      columns := l.columns.drop closed.length }

/-- Forgets the mark inside the innermost brackets, unless it has to be a key. -/
def dropMark (l : Lexer) : Option Lexer :=
  match l.marks with
  | some m :: rest => if m.required then none else some { l with marks := none :: rest }
  | _ => some l

/-- Marks the next token as one that may turn out to be a key, if a key can start here. -/
def addMark (l : Lexer) : Option Lexer :=
  if l.keyAllowed then
    l.dropMark.map fun l =>
      let required := !l.inFlow && l.columns.head? = some l.cursor.column
      let m : KeyMark := ⟨required, l.found.length, l.cursor.index, l.cursor.line, l.cursor.column⟩
      { l with marks := some m :: l.marks.drop 1 }
  else some l

/-- The mark is too far behind the cursor. -/
def isStale (c : Cursor) (m : KeyMark) : Bool :=
  m.line < c.line || m.index + 1024 < c.index

/-- Forgets marks that are too far behind, none of which can have to be a key. -/
def dropStale (l : Lexer) : Option Lexer :=
  if l.marks.any fun m => m.any fun m => m.required && isStale l.cursor m then none
  else some { l with marks := l.marks.map fun m => m.filter fun m => !isStale l.cursor m }

/-- Goes on over blanks, comments and line ends. A tab is no blank where a key can start outside
brackets. A line can start with a byte order mark, which takes up a column. -/
def dropBlanks : (fuel : Nat) → Lexer → Lexer
  | 0, l => l
  | fuel + 1, l =>
    let c := l.cursor
    let c := if c.column = 0 && (c.rest.head?.any fun b => b.toNat = 0xFEFF) then c.advance 1 else c
    let c := c.dropWhile fun b => b = ' ' || (b = '\t' && (l.inFlow || !l.keyAllowed))
    let c := if c.rest.head? = some '#' then c.dropWhile (!isBreak ·) else c
    if c.rest.head?.any isBreak then
      dropBlanks fuel { l with cursor := c.takeBreak.2, keyAllowed := l.keyAllowed || !l.inFlow }
    else { l with cursor := c }

def finish (l : Lexer) : Option (List Token) :=
  (l.closeBlocks none).dropMark.map fun l => l.found.reverse

/-- What starts a line of its own and closes all blocks. -/
def topLevel (l : Lexer) : Option Lexer :=
  (l.closeBlocks none).dropMark.map fun l => { l with keyAllowed := false }

def directive (l : Lexer) : Option Lexer := do
  let l ← l.topLevel
  let (setting, c) ← Setting.read l.cursor
  let t := match setting with
    | .version major minor => Token.version major minor
    | .tagPrefix handle start => .tagPrefix handle start
  return { l.push t with cursor := c }

/-- The start or the end of a document. -/
def documentMark (t : Token) (l : Lexer) : Option Lexer :=
  l.topLevel.map (take t 3)

def openFlow (t : Token) (l : Lexer) : Option Lexer :=
  l.addMark.map fun l => { l.take t 1 with marks := none :: l.marks, keyAllowed := true }

def closeFlow (t : Token) (l : Lexer) : Option Lexer :=
  l.dropMark.map fun l =>
    { l.take t 1 with marks := if l.inFlow then l.marks.drop 1 else l.marks, keyAllowed := false }

/-- A comma. -/
def flowEntry (l : Lexer) : Option Lexer :=
  l.dropMark.map fun l => { l.take .flowEntry 1 with keyAllowed := true }

/-- The dash of an entry. -/
def blockEntry (l : Lexer) : Option Lexer :=
  if !l.inFlow && !l.keyAllowed then none
  else
    (l.openBlock .blockSequence l.cursor.column l.found.length).dropMark.map fun l =>
      { l.take .blockEntry 1 with keyAllowed := true }

/-- The question mark of a key. -/
def key (l : Lexer) : Option Lexer :=
  if !l.inFlow && !l.keyAllowed then none
  else
    (l.openBlock .blockMapping l.cursor.column l.found.length).dropMark.map fun l =>
      { l.take .key 1 with keyAllowed := !l.inFlow }

/-- The colon of a value. -/
def value (l : Lexer) : Option Lexer :=
  match l.marks with
  | some m :: rest =>
    let l := (l.insert .key m.position).openBlock .blockMapping m.column m.position
    some { l.take .value 1 with marks := none :: rest, keyAllowed := false }
  | _ =>
    if !l.inFlow && !l.keyAllowed then none
    else
      let l := l.openBlock .blockMapping l.cursor.column l.found.length
      some { l.take .value 1 with keyAllowed := !l.inFlow }

/-- Something that may be a key, or stand before one. -/
def keyPart (read : Cursor → Option (Token × Cursor)) (l : Lexer) : Option Lexer := do
  let l ← l.addMark
  let (t, c) ← read l.cursor
  return { l.push t with cursor := c, keyAllowed := false }

/-- The name after the sign of an anchor or an alias. -/
def readName (make : List Char → Token) (c : Cursor) : Option (Token × Cursor) :=
  let (name, c) := (c.advance 1).takeWhile isNameChar
  if !name.isEmpty && (atGap c.rest || c.rest.head?.any ("?:,]\x7d%@".toList.contains ·) || c.rest.head? = some '\x60')
  then some (make name, c)
  else none

def readTag (inFlow : Bool) (c : Cursor) : Option (Token × Cursor) :=
  (Tag.read inFlow c).map fun ((handle, suffix), c) => (.tag handle suffix, c)

def readQuoted (single : Bool) (c : Cursor) : Option (Token × Cursor) :=
  (Text.readQuoted single (c.rest.length + 1) [] (c.advance 1)).map fun (text, c) => (.scalar false text, c)

/-- A plain scalar. A key can start after it only at the start of a line. -/
def plain (l : Lexer) : Option Lexer := do
  let l ← l.addMark
  let indent := (l.columns.head?.map (· + 1)).getD 0
  let ((text, atStart), c) ← Text.readPlain l.inFlow indent (l.cursor.rest.length + 1) [] {} l.cursor
  return { l.push (.scalar true text) with cursor := c, keyAllowed := atStart }

def block (literal : Bool) (l : Lexer) : Option Lexer := do
  let l ← l.dropMark
  let (text, c) ← Text.readBlock literal l.columns.head? (l.cursor.advance 1)
  return { l.push (.scalar false text) with cursor := c, keyAllowed := true }

/-- A plain scalar can start with the character, which comes before `rest`. -/
def startsPlain (inFlow : Bool) (b : Char) (rest : List Char) : Bool :=
  if b = '-' then !rest.head?.any isTabOrSpace
  else if b = '?' || b = ':' then !inFlow && !atGap rest
  else !",[]\x7b\x7d#&*!|>'\"%@".toList.contains b && b ≠ '\x60' && !isTabOrSpace b && !isBreak b

/-- The next token, which starts with the character `b` before `rest`. -/
def next (b : Char) (rest : List Char) (l : Lexer) : Option Lexer :=
  if l.cursor.column = 0 && b = '%' then l.directive
  else if l.cursor.atMark '-' then l.documentMark .documentStart
  else if l.cursor.atMark '.' then l.documentMark .documentEnd
  else if b = '[' then l.openFlow .flowSequence
  else if b = '{' then l.openFlow .flowMapping
  else if b = ']' then l.closeFlow .flowSequenceEnd
  else if b = '}' then l.closeFlow .flowMappingEnd
  else if b = ',' then l.flowEntry
  else if b = '-' && atGap rest then l.blockEntry
  else if b = '?' && (l.inFlow || atGap rest) then l.key
  else if b = ':' && (l.inFlow || atGap rest) then l.value
  else if b = '*' then l.keyPart (readName .alias)
  else if b = '&' then l.keyPart (readName .anchor)
  else if b = '!' then l.keyPart (readTag l.inFlow)
  else if b = '|' && !l.inFlow then l.block true
  else if b = '>' && !l.inFlow then l.block false
  else if b = '\'' then l.keyPart (readQuoted true)
  else if b = '"' then l.keyPart (readQuoted false)
  else if startsPlain l.inFlow b rest then l.plain
  else none

def run : (fuel : Nat) → Lexer → Option (List Token)
  | 0, _ => none
  | fuel + 1, l =>
    match (dropBlanks (l.cursor.rest.length + 1) l).dropStale with
    | none => none
    | some l =>
      let l := l.closeBlocks (some l.cursor.column)
      match l.cursor.rest with
      | [] => l.finish
      | b :: rest =>
        match l.next b rest with
        | none => none
        | some l => run fuel l

def tokens (cs : List Char) : Option (List Token) :=
  if cs.all isAllowed then run (cs.length + 1) { cursor := { rest := cs } } else none

end Lexer

end Yaml

end Inclusion
