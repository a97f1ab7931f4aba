import Inclusion.Number.Digits
import Inclusion.Yaml.Cursor
/-!
# Tags and directives of YAML

A tag is a handle between exclamation marks with a suffix, or a suffix alone, or written out between angle
brackets. In a suffix a percent sign escapes a byte; escaped bytes come in sequences of the lengths of
UTF-8. A byte is kept as the character with its number, and a suffix ends at an escaped zero byte.
-/

namespace Inclusion

namespace Yaml

namespace Tag

/-- The byte of an escape. -/
def escapedByte? : List Char → Option (Nat × List Char)
  | '%' :: a :: b :: rest => (ofDigits? 16 [a, b]).map fun n => (n, rest)
  | _ => none

/-- How many bytes a sequence has that starts with the byte. -/
def sequenceLength? (byte : Nat) : Option Nat :=
  if byte < 0x80 then some 1
  else if byte / 0x20 = 0x06 then some 2
  else if byte / 0x10 = 0x0E then some 3
  else if byte / 0x08 = 0x1E then some 4
  else none

/-- The next `n` escaped bytes, none of which can start a sequence. -/
def trailingBytes : Nat → List Char → Option (List Char × List Char)
  | 0, cs => some ([], cs)
  | n + 1, cs =>
    match escapedByte? cs with
    | some (byte, rest) =>
      if byte / 0x40 = 0x02 then
        (trailingBytes n rest).map fun (bytes, after) => (Char.ofNat byte :: bytes, after)
      else none
    | none => none

/-- A sequence of escaped bytes. -/
def escapedSequence (cs : List Char) : Option (List Char × List Char) :=
  match escapedByte? cs with
  | some (byte, rest) =>
    match sequenceLength? byte with
    | some n => (trailingBytes (n - 1) rest).map fun (bytes, after) => (Char.ofNat byte :: bytes, after)
    | none => none
  | none => none

/-- A character that stands for itself in a suffix; a `full` one can also hold commas and brackets. -/
def isSuffixChar (full : Bool) (c : Char) : Bool :=
  isNameChar c || ";/?:@&=+$.!~*'()".toList.contains c || (full && (c = ',' || c = '[' || c = ']'))

/-- The characters of a suffix, and what follows. -/
def suffixChars (full : Bool) : (fuel : Nat) → List Char → Option (List Char × List Char)
  | 0, cs => some ([], cs)
  | fuel + 1, cs =>
    match cs with
    | [] => some ([], [])
    | '%' :: _ =>
      match escapedSequence cs with
      | none => none
      | some (bytes, rest) => (suffixChars full fuel rest).map fun (s, after) => (bytes ++ s, after)
    | c :: rest =>
      if isSuffixChar full c then (suffixChars full fuel rest).map fun (s, after) => (c :: s, after)
      else some ([], cs)

/-- A suffix of one or more characters after those in `front`. -/
def readSuffix (full : Bool) (front : List Char) (c : Cursor) : Option (List Char × Cursor) :=
  match suffixChars full c.rest.length c.rest with
  | none => none
  | some (s, after) =>
    let n := c.rest.length - after.length
    if front.isEmpty && n = 0 then none
    else some ((front.drop 1 ++ s).takeWhile fun b => b.toNat ≠ 0, c.advance n)

/-- An exclamation mark with name characters and perhaps another exclamation mark. -/
def readHandle (c : Cursor) : Option (List Char × Cursor) :=
  match c.rest with
  | '!' :: _ =>
    let (name, after) := (c.advance 1).takeWhile isNameChar
    if after.rest.head? = some '!' then some ('!' :: name ++ ['!'], after.advance 1)
    else some ('!' :: name, after)
  | _ => none

/-- A tag between exclamation marks ends with one. -/
def isHandle (s : List Char) : Bool :=
  2 ≤ s.length && s.getLast? = some '!'

/-- The handle and the suffix of a tag, which starts at the cursor. A tag is followed by a blank, a line
end, or inside brackets by a comma. -/
def read (inFlow : Bool) (c : Cursor) : Option ((List Char × List Char) × Cursor) :=
  let found : Option ((List Char × List Char) × Cursor) := match c.rest with
    | '!' :: '<' :: _ =>
      match readSuffix true [] (c.advance 2) with
      | some (suffix, after) =>
        if after.rest.head? = some '>' then some (([], suffix), after.advance 1) else none
      | none => none
    | _ =>
      match readHandle c with
      | none => none
      | some (handle, after) =>
        if isHandle handle then
          (readSuffix false [] after).map fun (suffix, after) => ((handle, suffix), after)
        else
          (readSuffix false handle after).map fun (suffix, after) =>
            (if suffix.isEmpty then ([], ['!']) else (['!'], suffix), after)
  match found with
  | some (tag, after) =>
    if atGap after.rest || (inFlow && after.rest.head? = some ',') then some (tag, after) else none
  | none => none

end Tag

inductive Setting
  | version (major minor : Nat)
  | tagPrefix (handle start : List Char)
  deriving Repr

namespace Setting

/-- A number of at most nine digits. -/
def readVersionPart (c : Cursor) : Option (Nat × Cursor) :=
  let (digits, after) := c.takeWhile Char.isDigit
  if digits.isEmpty || 9 < digits.length then none else some (ofDigits 10 digits, after)

/-- What follows the name of a version directive. -/
def readVersion (c : Cursor) : Option (Setting × Cursor) := do
  let (major, c) ← readVersionPart (c.dropWhile isTabOrSpace)
  guard (c.rest.head? = some '.')
  let (minor, c) ← readVersionPart (c.advance 1)
  return (.version major minor, c)

/-- What follows the name of a tag directive. -/
def readTagPrefix (c : Cursor) : Option (Setting × Cursor) := do
  let (handle, c) ← Tag.readHandle (c.dropWhile isTabOrSpace)
  guard (handle = ['!'] || Tag.isHandle handle)
  guard ((c.rest.head?.map isTabOrSpace).getD false)
  let (start, c) ← Tag.readSuffix true [] (c.dropWhile isTabOrSpace)
  guard (atGap c.rest)
  return (.tagPrefix handle start, c)

/-- A directive, whose percent sign is at the cursor, to the end of its line. -/
def read (c : Cursor) : Option (Setting × Cursor) := do
  let (name, c) := (c.advance 1).takeWhile isNameChar
  guard (atGap c.rest)
  let (setting, c) ← match String.ofList name with
    | "YAML" => readVersion c
    | "TAG" => readTagPrefix c
    | _ => none
  let c ← c.endLine
  return (setting, c)

end Setting

end Yaml

end Inclusion
