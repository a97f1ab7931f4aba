/-!
# A place in a YAML text

A cursor is what is left of a text together with the place where it starts: how many characters come
before it, on which line it is and in which column. Five line ends are known; a carriage return with a
line feed is one line end.
-/

namespace Inclusion

namespace Yaml

def isBreak (c : Char) : Bool :=
  c = '\n' || c = '\r' || c.toNat = 0x85 || c.toNat = 0x2028 || c.toNat = 0x2029

def isTabOrSpace (c : Char) : Bool :=
  c = ' ' || c = '\t'

/-- The text is at its end, or goes on with a blank or a line end. -/
def atGap : List Char → Bool
  | [] => true
  | c :: _ => isTabOrSpace c || isBreak c

/-- The text is at its end, or goes on with a line end. -/
def atLineEnd : List Char → Bool
  | [] => true
  | c :: _ => isBreak c

/-- A character that a text can hold. -/
def isAllowed (c : Char) : Bool :=
  let n := c.toNat
  n = 0x09 || n = 0x0A || n = 0x0D || (0x20 ≤ n && n ≤ 0x7E) || n = 0x85 || (0xA0 ≤ n && n ≤ 0xFFFD) ||
    0x10000 ≤ n

/-- A character of an anchor, of the handle of a tag or of the name of a directive. -/
def isNameChar (c : Char) : Bool :=
  c.isAlphanum || c = '_' || c = '-'

structure Cursor where
  rest : List Char
  index : Nat := 0
  line : Nat := 0
  column : Nat := 0
  deriving Repr, Inhabited

namespace Cursor

/-- Goes on by `n` characters of the line. -/
def advance (c : Cursor) (n : Nat) : Cursor :=
  ⟨c.rest.drop n, c.index + n, c.line, c.column + n⟩

/-- Goes on over the characters for which `p` holds, and gives them. -/
def takeWhile (c : Cursor) (p : Char → Bool) : List Char × Cursor :=
  let taken := c.rest.takeWhile p
  (taken, c.advance taken.length)

/-- Goes on over the characters for which `p` holds. -/
def dropWhile (c : Cursor) (p : Char → Bool) : Cursor :=
  (c.takeWhile p).2

/-- Goes on over a line end, and gives it: a line or paragraph separator as it is, every other line end
as a line feed. -/
def takeBreak (c : Cursor) : List Char × Cursor :=
  match c.rest with
  | '\r' :: '\n' :: rest => (['\n'], ⟨rest, c.index + 2, c.line + 1, 0⟩)
  | b :: rest =>
    if isBreak b then
      ([if b.toNat = 0x2028 || b.toNat = 0x2029 then b else '\n'], ⟨rest, c.index + 1, c.line + 1, 0⟩)
    else ([], c)
  | [] => ([], c)

/-- Goes on over blanks, a comment and a line end; nothing else can come before the line end. -/
def endLine (c : Cursor) : Option Cursor :=
  let c := c.dropWhile isTabOrSpace
  let c := if c.rest.head? = some '#' then c.dropWhile (!isBreak ·) else c
  if atLineEnd c.rest then some c.takeBreak.2 else none

/-- A line begins here with three characters `mark` that stand alone. -/
def atMark (c : Cursor) (mark : Char) : Bool :=
  c.column = 0 && c.rest.take 3 = [mark, mark, mark] && atGap (c.rest.drop 3)

/-- A line begins here that starts or ends a document. -/
def atDocumentMark (c : Cursor) : Bool :=
  c.atMark '-' || c.atMark '.'

end Cursor

/-- Blanks and line ends between two pieces of a scalar. Once there is a line end, blanks count for
nothing. -/
structure Gap where
  blanks : List Char := []
  /-- The first line end; it is empty if it was escaped. -/
  first : Option (List Char) := none
  others : List Char := []
  deriving Repr

namespace Gap

/-- What a gap leaves in the scalar: one line end becomes a space, and of several the first is lost. -/
def fold (g : Gap) : List Char :=
  match g.first with
  | none => g.blanks
  | some ['\n'] => if g.others.isEmpty then [' '] else g.others
  | some first => first ++ g.others

/-- Reads a gap to its end. On a new line no tab can stand before the column `limit`. -/
def read (limit : Nat) : (fuel : Nat) → Gap → Cursor → Option (Gap × Cursor)
  | 0, g, c => some (g, c)
  | fuel + 1, g, c =>
    match c.rest with
    | [] => some (g, c)
    | b :: _ =>
      if isTabOrSpace b then
        if g.first.isNone then read limit fuel { g with blanks := g.blanks ++ [b] } (c.advance 1)
        else if b = '\t' && c.column < limit then none
        else read limit fuel g (c.advance 1)
      else if isBreak b then
        let (ended, c) := c.takeBreak
        match g.first with
        | none => read limit fuel { g with blanks := [], first := some ended } c
        | some _ => read limit fuel { g with others := g.others ++ ended } c
      else some (g, c)

end Gap

end Yaml

end Inclusion
