import Inclusion.Text.Blank
import Inclusion.Toml.Date
import Inclusion.Toml.Scalar
import Inclusion.Toml.Tables
/-!
# Reading TOML documents

A document is a sequence of lines: blank lines, comments, keys with values, and headers. Values and
dotted keys nest at most 79 deep.
-/

namespace Inclusion

namespace Toml

/-- How deep arrays and tables between brackets can nest, and how many segments a key can have. -/
def maxDepth : Nat := 79

def isBareKeyChar (c : Char) : Bool :=
  c.isAlphanum || c = '_' || c = '-'

def readSimpleKey : List Char → Option (String × List Char)
  | '"' :: rest => (readBasic rest).map fun (s, after) => (String.ofList s, after)
  | '\'' :: rest => (readLiteral rest).map fun (s, after) => (String.ofList s, after)
  | cs =>
    match cs.takeWhile isBareKeyChar with
    | [] => none
    | word => some (String.ofList word, cs.dropWhile isBareKeyChar)

/-- A key with the blanks around it: its segments, at most `count` of them. -/
def readKey : (count : Nat) → List Char → Option (List String × List Char)
  | 0, _ => none
  | count + 1, cs =>
    match readSimpleKey (dropWhite cs) with
    | none => none
    | some (segment, rest) =>
      match dropWhite rest with
      | '.' :: rest => (readKey count rest).map fun (segments, after) => (segment :: segments, after)
      | rest => some ([segment], rest)

/-- What follows a comment and the rest of its line without the line end, if the characters can stand in
a comment. -/
def dropComment (cs : List Char) : Option (List Char) :=
  match cs with
  | '#' :: rest =>
    let after := rest.dropWhile isTextChar
    if after.isEmpty || (lineEnd? after).isSome then some after else none
  | _ => some cs

/-- What follows the line after blanks and a comment perhaps; nothing else can stand on it. -/
def endLine (cs : List Char) : Option (List Char) :=
  match dropComment (dropWhite cs) with
  | some [] => some []
  | some after => lineEnd? after
  | none => none

/-- What follows blanks, comments and line ends inside an array. -/
def dropFiller : (fuel : Nat) → List Char → Option (List Char)
  | 0, cs => some cs
  | fuel + 1, cs =>
    match dropComment (dropLines cs) with
    | none => none
    | some after =>
      match lineEnd? after with
      | some rest => dropFiller fuel rest
      | none => some after

mutual

/-- A value that nests at most `depth` deep. The fuel bounds the number of steps. -/
def readValue : (fuel depth : Nat) → List Char → Option (Toml × List Char)
  | 0, _, _ => none
  | fuel + 1, depth, cs =>
    match cs with
    | '"' :: _ | '\'' :: _ => (readString cs).map fun (s, after) => (.scalar (.string (String.ofList s)), after)
    | 't' :: 'r' :: 'u' :: 'e' :: rest => some (.scalar (.bool true), rest)
    | 'f' :: 'a' :: 'l' :: 's' :: 'e' :: rest => some (.scalar (.bool false), rest)
    | '[' :: rest =>
      match depth with
      | 0 => none
      | depth + 1 => (readItems fuel depth rest).map fun (items, after) => (.array items, after)
    | '{' :: rest =>
      match depth with
      | 0 => none
      | depth + 1 =>
        match dropWhite rest with
        | '}' :: after => some (.table true [], after)
        | rest =>
          (readEntries fuel depth [] rest).map fun (entries, after) =>
            (.table true (Node.toEntries true entries), after)
    | _ =>
      match Date.read cs with
      | .wrong => none
      | .hit text after => some (.datetime (String.ofList text), after)
      | .miss => (readNumber cs).map fun (s, after) => (.scalar s, after)

/-- The items of an array up to its end. A comma can stand before the end. -/
def readItems : (fuel depth : Nat) → List Char → Option (List Toml × List Char)
  | 0, _, _ => none
  | fuel + 1, depth, cs =>
    match dropFiller cs.length cs with
    | none => none
    | some (']' :: after) => some ([], after)
    | some cs =>
      match readValue fuel depth cs with
      | none => none
      | some (item, rest) =>
        match dropFiller rest.length rest with
        | some (']' :: after) => some ([item], after)
        | some (',' :: rest) => (readItems fuel depth rest).map fun (items, after) => (item :: items, after)
        | _ => none

/-- One or more entries of a table between braces up to its end, added to the entries that are there
already. -/
def readEntries : (fuel depth : Nat) → Fields Node → List Char → Option (Fields Node × List Char)
  | 0, _, _, _ => none
  | fuel + 1, depth, done, cs =>
    match readKey maxDepth cs with
    | some (path, '=' :: rest) =>
      match readValue fuel depth (dropWhite rest), Draft.splitLast path with
      | some (t, rest), some (parents, key) =>
        match addKey parents key t done, dropWhite rest with
        | some done, '}' :: after => some (done, after)
        | some done, ',' :: rest => readEntries fuel depth done rest
        | _, _ => none
      | _, _ => none
    | _ => none

end

def readLine (d : Draft) (cs : List Char) : Option (Draft × List Char) :=
  match dropWhite cs with
  | [] => some (d, [])
  | '[' :: '[' :: rest =>
    match readKey maxDepth rest with
    | some (path, ']' :: ']' :: rest) =>
      match d.openElement path, endLine rest with
      | some d, some after => some (d, after)
      | _, _ => none
    | _ => none
  | '[' :: rest =>
    match readKey maxDepth rest with
    | some (path, ']' :: rest) =>
      match d.openTable path, endLine rest with
      | some d, some after => some (d, after)
      | _, _ => none
    | _ => none
  | cs =>
    match endLine cs with
    | some after => some (d, after)
    | none =>
      match readKey maxDepth cs with
      | some (path, '=' :: rest) =>
        let rest := dropWhite rest
        match readValue (2 * rest.length + 2) maxDepth rest, Draft.splitLast path with
        | some (t, rest), some (parents, key) =>
          match d.add parents key t, endLine rest with
          | some d, some after => some (d, after)
          | _, _ => none
        | _, _ => none
      | _ => none

def readDocument : (fuel : Nat) → Draft → List Char → Option Draft
  | _, d, [] => some d
  | 0, _, _ => none
  | fuel + 1, d, cs =>
    match readLine d cs with
    | some (d, rest) => readDocument fuel d rest
    | none => none

/-- The tree of a document. A byte order mark at its front is no part of it. -/
def parse (text : String) : Option Toml :=
  let cs := match text.toList with
    | c :: rest => if c.toNat = 0xFEFF then rest else c :: rest
    | [] => []
  (readDocument (cs.length + 1) {} cs).bind Draft.finish

end Toml

end Inclusion
