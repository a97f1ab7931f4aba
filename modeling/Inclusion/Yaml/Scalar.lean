import Inclusion.Number.Digits
import Inclusion.Value
/-!
# What YAML scalars stand for

A plain scalar without a tag is `null`, a truth value, a whole number, a number with a fraction, or else a
string, whichever fits first. Whole numbers can be written in base sixteen, eight or two; more than one
digit after a leading zero makes a string. A whole number that does not fit in 64 bits is refused as long
as it fits in 128 bits.
-/

namespace Inclusion

namespace Yaml

/-- What the text of a plain scalar can be read as. -/
inductive Reading (α : Type)
  | value (a : α)
  /-- The text is a number that is out of range. -/
  | refused
  | other

def isNull (text : List Char) : Bool :=
  ["null", "Null", "NULL", "~"].contains (String.ofList text)

def bool? (text : List Char) : Option Bool :=
  match String.ofList text with
  | "true" | "True" | "TRUE" => some true
  | "false" | "False" | "FALSE" => some false
  | _ => none

/-- Digits after a leading zero, with a sign perhaps; this is a string and no number. -/
def hasLeadingZero (text : List Char) : Bool :=
  let digits := match text with
    | '-' :: rest | '+' :: rest => rest
    | _ => text
  match digits with
  | '0' :: rest => !rest.isEmpty && rest.all Char.isDigit
  | _ => false

/-- A natural number with the mark of its base. -/
def natural? : List Char → Option Nat
  | '0' :: 'x' :: rest => ofDigits? 16 rest
  | '0' :: 'o' :: rest => ofDigits? 8 rest
  | '0' :: 'b' :: rest => ofDigits? 2 rest
  | digits => ofDigits? 10 digits

/-- A whole number with its sign. -/
def integer? (text : List Char) : Option Int :=
  if hasLeadingZero text then none
  else
    match text with
    | '-' :: rest => (natural? rest).map fun n => -n
    | '+' :: rest => (natural? rest).map fun n => n
    | _ => (natural? text).map fun n => n

/-- The number fits in that many bits: with its sign if it is negative, otherwise without one. -/
def fits (bits : Nat) (n : Int) : Bool :=
  if 0 ≤ n then n.natAbs < 1 <<< bits else n.natAbs ≤ 1 <<< (bits - 1)

/-- A whole number that fits in 64 bits; one that fits in 128 bits is refused. -/
def int (text : List Char) : Reading Int :=
  match integer? text with
  | none => .other
  | some n =>
    if fits 64 n then .value n
    else if fits 128 n then .refused
    else .other

/-- Digits with a point and an exponent perhaps; there is at least one digit beside the point. -/
def decimal? (negative : Bool) (text : List Char) : Option Binary64 :=
  let whole := text.takeWhile Char.isDigit
  let rest := text.drop whole.length
  let (places, rest) := match rest with
    | '.' :: more => (more.takeWhile Char.isDigit, more.dropWhile Char.isDigit)
    | _ => ([], rest)
  if whole.isEmpty && places.isEmpty then none
  else
    let scaled (exponent : Int) := Binary64.ofDecimal negative (ofDigits 10 (whole ++ places)) (exponent - places.length)
    match rest with
    | [] => some (scaled 0)
    | e :: rest =>
      if e = 'e' || e = 'E' then
        match rest with
        | '-' :: digits => (ofDigits? 10 digits).map fun n => scaled (-n)
        | '+' :: digits | digits => (ofDigits? 10 digits).map fun n => scaled n
      else none

/-- The words for the numbers that are not finite. -/
def isNonFinite (text : List Char) : Bool :=
  [".inf", ".Inf", ".INF", "+.inf", "+.Inf", "+.INF", "-.inf", "-.Inf", "-.INF", ".nan", ".NaN", ".NAN"].contains
    (String.ofList text)

/-- A number with a fraction; one that is not finite is `null` where it is written as a word, and none
where it is written with digits. -/
def float? (text : List Char) : Option Scalar :=
  if isNonFinite text then some .null
  else
    let x := match text with
      | '-' :: rest => decimal? true rest
      | '+' :: rest => decimal? false rest
      | _ => decimal? false text
    match x with
    | some x => if x.isFinite then some (.number (.float x)) else none
    | none => none

/-- What a plain scalar without a tag stands for, if it is not refused. -/
def plainScalar (text : List Char) : Option Scalar :=
  if text.isEmpty || isNull text then some .null
  else
    match bool? text with
    | some b => some (.bool b)
    | none =>
      match int text with
      | .value n => some (.number (.int n))
      | .refused => none
      | .other =>
        match if hasLeadingZero text then none else float? text with
        | some s => some s
        | none => some (.string (String.ofList text))

/-- What a scalar with a tag stands for, if its text fits the tag. A tag that starts with an exclamation mark says
nothing about a plain scalar; any other tag that is not known makes a string. -/
def taggedScalar (tag : List Char) (plain : Bool) (text : List Char) : Option Scalar :=
  match String.ofList tag with
  | "tag:yaml.org,2002:bool" => (bool? text).map .bool
  | "tag:yaml.org,2002:int" =>
    match int text with
    | .value n => some (.number (.int n))
    | _ => none
  | "tag:yaml.org,2002:float" => float? text
  | "tag:yaml.org,2002:null" => if isNull text then some .null else none
  | _ => if plain && tag.head? = some '!' then plainScalar text else some (.string (String.ofList text))

end Yaml

end Inclusion
