import Inclusion.Number.Digits
import Inclusion.Text.Blank
/-!
# JSON texts

The tree of a JSON text, before anything is made of it. A number is kept as it is written and a string
can hold half a surrogate pair, because neither is wrong in a part of the text that nobody reads; the
members of an object are kept in order, with every occurrence of a key.
-/

namespace Inclusion

namespace Json

/-- A number as it is written. -/
structure Literal where
  negative : Bool
  whole : List Char
  /-- The digits after the point, none if there is no point. -/
  places : List Char
  exponent : Option (Bool × List Char)
  deriving DecidableEq, Repr

end Json

/-- The tree of a JSON text. A string that holds half a surrogate pair has no contents. -/
inductive Json
  | null
  | bool (b : Bool)
  | number (n : Json.Literal)
  | string (contents : Option String)
  | array (items : List Json)
  | object (members : List (Option String × Json))
  deriving Repr, Inhabited

namespace Json

/-- A blank between the tokens of a JSON text. -/
def dropBlanks (cs : List Char) : List Char :=
  cs.dropWhile isBlank

/-- A character of a string, or a UTF-16 unit that is written as an escape. -/
inductive StringItem
  | char (c : Char)
  | unit (n : Nat)

/-- The value of four hexadecimal digits. -/
def unit? (a b c d : Char) : Option Nat :=
  ofDigits? 16 [a, b, c, d]

def simpleEscape? : Char → Option Char
  | '"' => some '"'
  | '\\' => some '\\'
  | '/' => some '/'
  | 'b' => some '\x08'
  | 'f' => some '\x0c'
  | 'n' => some '\n'
  | 'r' => some '\r'
  | 't' => some '\t'
  | _ => none

/-- The items of a string up to its closing quote, and what follows. -/
def stringItems : List Char → Option (List StringItem × List Char)
  | [] => none
  | '"' :: rest => some ([], rest)
  | '\\' :: 'u' :: a :: b :: c :: d :: rest =>
    match unit? a b c d, stringItems rest with
    | some n, some (items, after) => some (.unit n :: items, after)
    | _, _ => none
  | '\\' :: c :: rest =>
    match simpleEscape? c, stringItems rest with
    | some c, some (items, after) => some (.char c :: items, after)
    | _, _ => none
  | c :: rest =>
    if c.toNat < 0x20 || c = '\\' then none
    else (stringItems rest).map fun (items, after) => (.char c :: items, after)

/-- The characters of a string, if its units pair up. -/
def joinItems : List StringItem → Option (List Char)
  | [] => some []
  | .char c :: rest => (joinItems rest).map (c :: ·)
  | .unit high :: .unit low :: rest =>
    if 0xD800 ≤ high && high < 0xDC00 && 0xDC00 ≤ low && low < 0xE000 then
      (joinItems rest).map (Char.ofNat (0x10000 + (high - 0xD800) * 0x400 + (low - 0xDC00)) :: ·)
    else if 0xD800 ≤ high && high < 0xE000 then none
    else (joinItems (.unit low :: rest)).map (Char.ofNat high :: ·)
  | .unit n :: rest =>
    if 0xD800 ≤ n && n < 0xE000 then none else (joinItems rest).map (Char.ofNat n :: ·)

def readString (cs : List Char) : Option (Option String × List Char) :=
  (stringItems cs).map fun (items, after) => ((joinItems items).map String.ofList, after)

def digits (cs : List Char) : List Char × List Char :=
  (cs.takeWhile Char.isDigit, cs.dropWhile Char.isDigit)

/-- The exponent at the front of what follows a number, if there is one. -/
def readExponent (cs : List Char) : Option (Option (Bool × List Char) × List Char) :=
  match cs with
  | c :: rest =>
    if c = 'e' || c = 'E' then
      let (negative, rest) := match rest with
        | '-' :: rest => (true, rest)
        | '+' :: rest => (false, rest)
        | rest => (false, rest)
      match digits rest with
      | ([], _) => none
      | (ds, after) => some (some (negative, ds), after)
    else some (none, cs)
  | [] => some (none, [])

/-- A number after its sign, and what follows. A zero at the front stands alone. -/
def readNumber (negative : Bool) (cs : List Char) : Option (Literal × List Char) :=
  match digits cs with
  | ([], _) => none
  | (whole, rest) =>
    if whole.head? = some '0' && whole.length ≠ 1 then none
    else
      match rest with
      | '.' :: more =>
        match digits more with
        | ([], _) => none
        | (places, rest) =>
          (readExponent rest).map fun (e, after) => (⟨negative, whole, places, e⟩, after)
      | _ => (readExponent rest).map fun (e, after) => (⟨negative, whole, [], e⟩, after)

mutual

/-- A value and what follows it. The fuel bounds the number of steps. -/
def readValue : (fuel : Nat) → List Char → Option (Json × List Char)
  | 0, _ => none
  | fuel + 1, cs =>
    match dropBlanks cs with
    | 'n' :: 'u' :: 'l' :: 'l' :: rest => some (.null, rest)
    | 't' :: 'r' :: 'u' :: 'e' :: rest => some (.bool true, rest)
    | 'f' :: 'a' :: 'l' :: 's' :: 'e' :: rest => some (.bool false, rest)
    | '"' :: rest => (readString rest).map fun (s, after) => (.string s, after)
    | '-' :: rest => (readNumber true rest).map fun (n, after) => (.number n, after)
    | '[' :: rest =>
      match dropBlanks rest with
      | ']' :: after => some (.array [], after)
      | rest => (readItems fuel rest).map fun (items, after) => (.array items, after)
    | '{' :: rest =>
      match dropBlanks rest with
      | '}' :: after => some (.object [], after)
      | rest => (readMembers fuel rest).map fun (members, after) => (.object members, after)
    | cs => (readNumber false cs).map fun (n, after) => (.number n, after)

/-- One or more items of an array up to its end, and what follows. -/
def readItems : (fuel : Nat) → List Char → Option (List Json × List Char)
  | 0, _ => none
  | fuel + 1, cs =>
    match readValue fuel cs with
    | none => none
    | some (item, rest) =>
      match dropBlanks rest with
      | ']' :: after => some ([item], after)
      | ',' :: rest => (readItems fuel rest).map fun (items, after) => (item :: items, after)
      | _ => none

/-- One or more members of an object up to its end, and what follows. -/
def readMembers : (fuel : Nat) → List Char → Option (List (Option String × Json) × List Char)
  | 0, _ => none
  | fuel + 1, cs =>
    match dropBlanks cs with
    | '"' :: rest =>
      match readString rest with
      | none => none
      | some (key, rest) =>
        match dropBlanks rest with
        | ':' :: rest =>
          match readValue fuel rest with
          | none => none
          | some (value, rest) =>
            match dropBlanks rest with
            | '}' :: after => some ([(key, value)], after)
            | ',' :: rest =>
              (readMembers fuel rest).map fun (members, after) => ((key, value) :: members, after)
            | _ => none
        | _ => none
    | _ => none

end

def parse (text : String) : Option Json :=
  let cs := text.toList
  match readValue (2 * cs.length + 2) cs with
  | some (json, rest) => if (dropBlanks rest).isEmpty then some json else none
  | none => none

end Json

end Inclusion
