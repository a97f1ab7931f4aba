import Inclusion.Number.Digits
import Inclusion.Yaml.Cursor
/-!
# The texts of YAML scalars

A scalar is written plain, between quotes, or as a block of lines. Plain and quoted scalars can go on over
several lines, whose ends are folded away; so can the lines of a block that is written with `>`.
-/

namespace Inclusion

namespace Yaml

namespace Text

/-! ### Plain scalars -/

/-- How many characters a run of a plain scalar has. A colon ends it before a gap, and a comma or a
bracket inside brackets; a colon right before one of these is refused there. -/
def plainRun (inFlow : Bool) : List Char → Option Nat
  | [] => some 0
  | c :: rest =>
    if isTabOrSpace c || isBreak c then some 0
    else if inFlow && c = ':' && (rest.head?.map (",?[]\x7b\x7d".toList.contains ·)).getD false then none
    else if (c = ':' && atGap rest) || (inFlow && ",[]\x7b\x7d".toList.contains c) then some 0
    else (plainRun inFlow rest).map (· + 1)

/-- A plain scalar from the cursor on, after the text `done` and the gap `g`. It ends at a line that is
indented less than `indent`. The flag says whether it ended at the start of a line. -/
def readPlain (inFlow : Bool) (indent : Nat) :
    (fuel : Nat) → List Char → Gap → Cursor → Option ((List Char × Bool) × Cursor)
  | 0, _, _, _ => none
  | fuel + 1, done, g, c =>
    if c.atDocumentMark || c.rest.head? = some '#' then some ((done, g.first.isSome), c)
    else
      match plainRun inFlow c.rest with
      | none => none
      | some n =>
        let (done, g) := if n = 0 then (done, g) else (done ++ g.fold ++ c.rest.take n, {})
        let c := c.advance n
        if c.rest.isEmpty || !atGap c.rest then some ((done, g.first.isSome), c)
        else
          match Gap.read indent c.rest.length g c with
          | none => none
          | some (g, c) =>
            if !inFlow && c.column < indent then some ((done, g.first.isSome), c)
            else readPlain inFlow indent fuel done g c

/-! ### Quoted scalars -/

/-- A run between single quotes: its text, and how many characters it has. -/
def singleRun : List Char → List Char × Nat
  | [] => ([], 0)
  | '\'' :: '\'' :: rest =>
    let (text, n) := singleRun rest
    ('\'' :: text, n + 2)
  | c :: rest =>
    if c = '\'' || isTabOrSpace c || isBreak c then ([], 0)
    else
      let (text, n) := singleRun rest
      (c :: text, n + 1)

def simpleEscape? : Char → Option Char
  | '0' => some '\x00'
  | 'a' => some '\x07'
  | 'b' => some '\x08'
  | 't' | '\t' => some '\t'
  | 'n' => some '\n'
  | 'v' => some '\x0b'
  | 'f' => some '\x0c'
  | 'r' => some '\r'
  | 'e' => some '\x1b'
  | ' ' => some ' '
  | '"' => some '"'
  | '/' => some '/'
  | '\\' => some '\\'
  | 'N' => some '\u0085'
  | '_' => some '\u00a0'
  | 'L' => some '\u2028'
  | 'P' => some '\u2029'
  | _ => none

def escapeDigits? : Char → Option Nat
  | 'x' => some 2
  | 'u' => some 4
  | 'U' => some 8
  | _ => none

/-- The character that the digits of an escape write. -/
def escaped? (digits : List Char) : Option Char :=
  match ofDigits? 16 digits with
  | some n => if n < 0xD800 || (0xE000 ≤ n && n < 0x110000) then some (Char.ofNat n) else none
  | none => none

/-- A run between double quotes: its text, and how many characters it has. It ends before a line end that
is escaped. -/
def doubleRun : (fuel : Nat) → List Char → Option (List Char × Nat)
  | 0, _ => some ([], 0)
  | fuel + 1, cs =>
    match cs with
    | [] => some ([], 0)
    | '\\' :: c :: rest =>
      if isBreak c then some ([], 0)
      else
        match simpleEscape? c, escapeDigits? c with
        | some e, _ => (doubleRun fuel rest).map fun (text, n) => (e :: text, n + 2)
        | none, some count =>
          if rest.length < count then none
          else
            match escaped? (rest.take count), doubleRun fuel (rest.drop count) with
            | some e, some (text, n) => some (e :: text, n + count + 2)
            | _, _ => none
        | none, none => none
    | c :: rest =>
      if c = '\\' then none
      else if c = '"' || isTabOrSpace c || isBreak c then some ([], 0)
      else (doubleRun fuel rest).map fun (text, n) => (c :: text, n + 1)

/-- A quoted scalar after its opening and the text `done`, to its closing. -/
def readQuoted (single : Bool) : (fuel : Nat) → List Char → Cursor → Option (List Char × Cursor)
  | 0, _, _ => none
  | fuel + 1, done, c =>
    if c.atDocumentMark || c.rest.isEmpty then none
    else
      match if single then some (singleRun c.rest) else doubleRun c.rest.length c.rest with
      | none => none
      | some (text, n) =>
        let c := c.advance n
        let (g, c) : Gap × Cursor :=
          if !single && c.rest.head? = some '\\' then ({ first := some [] }, (c.advance 1).takeBreak.2)
          else ({}, c)
        if c.rest.head? = some (if single then '\'' else '"') then some (done ++ text, c.advance 1)
        else
          match Gap.read 0 c.rest.length g c with
          | none => none
          | some (g, c) => readQuoted single fuel (done ++ text ++ g.fold) c

/-! ### Blocks -/

/-- What happens to the line ends after the last line of a block. -/
inductive Chomping
  | strip
  | clip
  | keep
  deriving DecidableEq, Repr

def chomping? : Char → Option Chomping
  | '-' => some .strip
  | '+' => some .keep
  | _ => none

/-- The marks after the sign of a block: how its end is chomped, and its indentation if it is given. -/
def readMarks (c : Cursor) : Option ((Chomping × Option Nat) × Cursor) :=
  let indentation (c : Cursor) : Option (Option Nat × Cursor) :=
    match c.rest with
    | d :: _ =>
      if d = '0' then none
      else if d.isDigit then some (some (d.toNat - '0'.toNat), c.advance 1)
      else some (none, c)
    | [] => some (none, c)
  match c.rest.head?.bind chomping? with
  | some chomping => (indentation (c.advance 1)).map fun (indent, c) => ((chomping, indent), c)
  | none =>
    match indentation c with
    | none => none
    | some (none, c) => some ((.clip, none), c)
    | some (some indent, c) =>
      match c.rest.head?.bind chomping? with
      | some chomping => some ((chomping, some indent), c.advance 1)
      | none => some ((.clip, some indent), c)

/-- Empty lines before a line of a block, and the indentation of that line. If the indentation of the
block is given, spaces are taken up to it only. -/
def readEmptyLines (indent : Option Nat) :
    (fuel : Nat) → (widest : Nat) → List Char → Cursor → Option ((List Char × Nat) × Cursor)
  | 0, _, _, _ => none
  | fuel + 1, widest, breaks, c =>
    let spaces := (c.rest.takeWhile (· = ' ')).length
    let c := c.advance (match indent with
      | some n => min spaces (n - c.column)
      | none => spaces)
    let widest := max widest c.column
    if c.rest.head? = some '\t' && indent.all (c.column < ·) then none
    else if (c.rest.head?.map isBreak).getD false then
      let (ended, c) := c.takeBreak
      readEmptyLines indent fuel widest (breaks ++ ended) c
    else some ((breaks, widest), c)

/-- The lines of a block that are indented by `indent`. `first` is the end of the line before the cursor,
`breaks` are the empty lines after it, and `blankBefore` says whether that line started with a blank. -/
def readLines (literal : Bool) (indent : Nat) :
    (fuel : Nat) → (done first breaks : List Char) → (blankBefore : Bool) → Cursor →
      Option ((List Char × List Char × List Char) × Cursor)
  | 0, _, _, _, _, _ => none
  | fuel + 1, done, first, breaks, blankBefore, c =>
    if c.column ≠ indent || c.rest.isEmpty then some ((done, first, breaks), c)
    else
      let blank := (c.rest.head?.map isTabOrSpace).getD false
      let joint :=
        if !literal && first = ['\n'] && !blankBefore && !blank then
          if breaks.isEmpty then [' '] else breaks
        else first ++ breaks
      let (line, c) := c.takeWhile (!isBreak ·)
      let (ended, c) := c.takeBreak
      match readEmptyLines (some indent) (c.rest.length + 1) 0 [] c with
      | none => none
      | some ((breaks, _), c) => readLines literal indent fuel (done ++ joint ++ line) ended breaks blank c

/-- A block after its sign, inside a block whose indentation is `outer`. -/
def readBlock (literal : Bool) (outer : Option Nat) (c : Cursor) : Option (List Char × Cursor) := do
  let ((chomping, given), c) ← readMarks c
  let c ← c.endLine
  let given := given.map (· + outer.getD 0)
  let ((breaks, widest), c) ← readEmptyLines given (c.rest.length + 1) 0 [] c
  let least := max 1 ((outer.map (· + 1)).getD 0)
  let indent := given.getD (max widest least)
  let ((text, first, breaks), c) ← readLines literal indent (c.rest.length + 1) [] [] breaks false c
  return (match chomping with
    | .strip => text
    | .clip => text ++ first
    | .keep => text ++ first ++ breaks, c)

end Text

end Yaml

end Inclusion
