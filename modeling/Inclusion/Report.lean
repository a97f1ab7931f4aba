import Inclusion.CompileError
import Inclusion.Text.Blank
import Inclusion.Text.Width
/-!
# Reports

A report shows an error in the text that it is about: a title, the place of the error, the lines that it
covers, and a label with an arrow that points at them. Inside one line the arrow comes from a bar under
the error; over several lines it comes from a bracket at their left. The offsets of a label are counted
in characters. A label past the end of the text has no excerpt, only the title, and a label that ends
before it starts cannot be drawn at all.
-/

namespace Inclusion

namespace Report

/-! ### Lines -/

def isLineEnd (c : Char) : Bool :=
  let n := c.toNat
  (0x0A ≤ n && n ≤ 0x0D) || n = 0x85 || n = 0x2028 || n = 0x2029

/-- The lines of a text with their ends. A carriage return with a line feed is one line end. -/
def splitLines : List Char → List (List Char)
  | [] => []
  | '\r' :: '\n' :: rest => ['\r', '\n'] :: splitLines rest
  | c :: rest =>
    if isLineEnd c then [c] :: splitLines rest
    else
      match splitLines rest with
      | [] => [[c]]
      | line :: lines => (c :: line) :: lines

/-- A line of a text: its number, counted from one, where it starts, and its characters. -/
structure Line where
  number : Nat
  start : Nat
  text : List Char
  deriving DecidableEq, Repr

namespace Line

def stop (l : Line) : Nat :=
  l.start + l.text.length

def shown (l : Line) : List Char :=
  trimEnd l.text

end Line

/-- Numbers lines, the first of which has the number `number` and starts at `start`. -/
def numberLines (number start : Nat) : List (List Char) → List Line
  | [] => []
  | text :: rest => ⟨number, start, text⟩ :: numberLines (number + 1) (start + text.length) rest

def lines (cs : List Char) : List Line :=
  numberLines 1 0 (splitLines cs)

/-- The line that an offset is on, the last line for the end of the text. -/
def lineAt (cs : List Char) (offset : Nat) : Option Line :=
  if offset ≤ cs.length then ((lines cs).filter fun l => l.start ≤ offset).getLast? else none

/-! ### Columns -/

/-- The columns between two stops of the tab. -/
def tabWidth : Nat := 4

/-- How the character at an index of a line is shown, and how many columns it takes. -/
def cell (index : Nat) (c : Char) : Char × Nat :=
  if c = '\t' then (' ', (index / tabWidth + 1) * tabWidth - index)
  else if isSpace c then (' ', 1)
  else (c, columnWidth c)

def showLine (l : Line) : String :=
  String.ofList ((l.shown.zipIdx.map fun (c, i) =>
    let (c, width) := cell i c
    if c = ' ' then List.replicate width c else [c]).flatten)

/-- Draws something under each of the first `count` characters of a line, and on beyond its end: a
character, and what fills the other columns of the character above it. -/
def underline (l : Line) (count : Nat) (draw : Nat → Char × Char) : String :=
  String.ofList (((List.range count).map fun i =>
    let width := ((l.shown[i]?.map fun c => (cell i c).2)).getD 1
    let (first, filler) := draw i
    if width = 0 then [] else first :: List.replicate (width - 1) filler).flatten)

/-! ### Rows -/

inductive Row
  /-- A line of the text. -/
  | line (number : Nat) (content : String)
  /-- Something drawn under a line. -/
  | drawn (content : String)
  /-- Lines that are left out. -/
  | leftOut (content : String)
  deriving DecidableEq, Repr

/-- The rows for a label from `start` to `stop` on one line. -/
def inlineRows (l : Line) (start stop : Nat) (label : String) : List Row :=
  if stop ≤ l.stop then
    let column := (start + stop) / 2 - l.start
    let count := stop - l.start + 2
    let bar := underline l count fun i =>
      let marked := start ≤ l.start + i && l.start + i < stop
      if i = column then if marked then ('┬', '─') else ('│', ' ')
      else if marked then ('─', '─')
      else (' ', ' ')
    let arrow := underline l count fun i =>
      if i = column then ('╰', '─') else if column < i then ('─', '─') else (' ', ' ')
    [.line l.number (showLine l), .drawn bar, .drawn (arrow ++ " " ++ label)]
  else [.drawn ""]

/-- The rows for the last line of a label over several lines. -/
def lastRows (l : Line) (label : String) : List Row :=
  let count := l.text.length + 2
  [.line l.number ("├─▶ " ++ showLine l),
    .drawn ("│   " ++ underline l count fun _ => (' ', ' ')),
    .drawn ("╰───" ++ underline l count (fun _ => ('─', '─')) ++ " " ++ label)]

/-- The rows for a label from the line `first` to the line `last`. The last line is left out with those
between if the label stops beyond it. -/
def spanningRows (first last : Line) (stop : Nat) (label : String) : List Row :=
  let ending := if stop ≤ last.stop then lastRows last label else []
  let leftOut := first.number + 1 < last.number || ending.isEmpty
  .line first.number ("╭─▶ " ++ showLine first) :: (if leftOut then [.leftOut "┆   "] else []) ++ ending

structure Excerpt where
  file : String
  /-- The line and the column where the label starts, counted from one. -/
  line : Nat
  column : Nat
  lastLine : Nat
  rows : List Row
  deriving DecidableEq, Repr

/-- The excerpt for a label, if the label is inside the text. -/
def excerpt? (cs : List Char) (file : String) (span : Span) (label : String) : Option Excerpt :=
  match lineAt cs span.start, lineAt cs (max span.start (span.stop - 1)) with
  | some first, some last =>
    let rows :=
      if first.number = last.number then inlineRows first span.start span.stop label
      else spanningRows first last span.stop label
    some ⟨file, first.number, span.start - first.start + 1, last.number, rows⟩
  | _, _ => none

/-! ### Rendering -/

def spaces (n : Nat) : String :=
  String.ofList (List.replicate n ' ')

namespace Row

/-- A row with the margin at its left, where numbers of lines have `width` digits. -/
def render (width : Nat) : Row → String
  | line number content =>
    let digits := toString number
    " " ++ spaces (width - digits.length) ++ digits ++ " │ " ++ content
  | drawn content => spaces (width + 2) ++ "│ " ++ content
  | leftOut content => spaces (width + 2) ++ "┆ " ++ content

end Row

namespace Excerpt

/-- The first row, which says where the label starts. -/
def header (e : Excerpt) : String :=
  "╭─[" ++ e.file ++ ":" ++ toString e.line ++ ":" ++ toString e.column ++ "]"

def render (e : Excerpt) : List String :=
  let width := (toString e.lastLine).length
  [spaces (width + 2) ++ e.header, spaces (width + 2) ++ "│"] ++ e.rows.map (Row.render width) ++
    [String.ofList (List.replicate (width + 2) '─') ++ "╯"]

end Excerpt

/-- A report on a text: a title, and an excerpt with a label. It cannot be drawn if the label ends before
it starts. -/
def render (source file : String) (span : Span) (title label : String) : Option String :=
  if span.stop < span.start then none
  else
    let excerpt := ((excerpt? source.toList file span label).map Excerpt.render).getD []
    some (String.join ((("Error: " ++ title) :: excerpt).map (· ++ "\n")))

end Report

namespace Fault

/-- The label of the fault: the message, and what is expected. -/
def label (f : Fault) : String :=
  if f.expected.isEmpty then f.message
  else f.message ++ "\nExpected: " ++ ", ".intercalate f.expected

def report (source file : String) (f : Fault) : Option String :=
  Report.render source file f.span f.message f.label

end Fault

namespace CompileError

/-- The report on the error; an error without a place is told in one line. -/
def report (source file : String) : CompileError → Option String
  | malformed faults => (faults.mapM (Fault.report source file)).map fun reports => "\n".intercalate reports
  | e =>
    match e.span? with
    | some span => Report.render source file span e.message e.message
    | none => some (file ++ ": " ++ e.message)

end CompileError

end Inclusion
