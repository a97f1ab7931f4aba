import Inclusion.Json
import Inclusion.Value
/-!
# Values from JSON trees

Values nest at most 127 deep. Whole numbers keep their value as long as they fit in 64 bits. Any other
number becomes a floating-point number: its digits are gathered as long as they fit in 64 bits, rounded,
and scaled by one power of ten. A number that is too great is refused.
-/

namespace Inclusion

namespace Json

/-- How deep arrays and objects can nest. -/
def maxDepth : Nat := 127

/-- Adds digits to a number as long as the result is below `2 ^ 64`; gives the number and how many
digits are left. -/
def gather (n : Nat) : List Char → Nat × Nat
  | [] => (n, 0)
  | d :: rest =>
    let next := 10 * n + (digitValue? d).getD 0
    if next < 1 <<< 64 then gather next rest else (n, rest.length + 1)

/-- Scales by powers of ten up to 308 at a time, and refuses what becomes infinite. -/
def scaleBy (x : Binary64) (exponent : Int) : (fuel : Nat) → Option Binary64
  | 0 => some x
  | fuel + 1 =>
    if exponent.natAbs ≤ 308 then
      if 0 ≤ exponent then
        let y := x.mulPower exponent.toNat
        if y.isFinite then some y else none
      else some (x.divPower exponent.natAbs)
    else if x.code = 0 then some x
    else if 0 ≤ exponent then none
    else scaleBy (x.divPower 308) (exponent + 308) fuel

/-- The floating-point number for gathered digits and a power of ten. -/
def ofParts (negative : Bool) (gathered : Nat) (exponent : Int) : Option Binary64 :=
  (scaleBy (Binary64.ofRatio false gathered 1) exponent 4).map fun x => ⟨negative, x.code⟩

namespace Literal

/-- The number that is written, if it is not too great. -/
def number? (l : Literal) : Option Number :=
  let (whole, left) := gather 0 l.whole
  if l.places.isEmpty && l.exponent.isNone && left = 0 then
    if !l.negative then some (.int whole)
    else if whole = 0 then some (.float ⟨true, 0⟩)
    else if whole ≤ 1 <<< 63 then some (.int (-whole))
    else some (.float (Binary64.ofRatio true whole 1))
  else
    let (gathered, dropped) := gather whole l.places
    let before : Int := left - (l.places.length - dropped : Nat)
    match l.exponent with
    | none => (ofParts l.negative gathered before).map .float
    | some (negative, digits) =>
      let e := ofDigits 10 digits
      if e < 1 <<< 31 then
        (ofParts l.negative gathered (if negative then before - e else before + e)).map .float
      else if gathered ≠ 0 && !negative then none
      else some (.float ⟨l.negative, 0⟩)

end Literal

mutual

/-- The value of a tree that nests at most `depth` deep. Of a key that occurs again the last value
counts. -/
def toValue (depth : Nat) : Json → Option Value
  | .null => some .null
  | .bool b => some (.bool b)
  | .number n => n.number?.map fun n => .scalar (.number n)
  | .string contents => contents.map .string
  | .array items =>
    match depth with
    | 0 => none
    | depth + 1 => (toItems depth items).map .list
  | .object members =>
    match depth with
    | 0 => none
    | depth + 1 => (toFields depth [] members).map .map
termination_by structural json => json

def toItems (depth : Nat) : List Json → Option (List Value)
  | [] => some []
  | json :: rest =>
    match json.toValue depth, toItems depth rest with
    | some v, some vs => some (v :: vs)
    | _, _ => none
termination_by structural items => items

/-- Puts the members, in order, into the fields that are there already. -/
def toFields (depth : Nat) (done : Fields Value) : List (Option String × Json) → Option (Fields Value)
  | [] => some done
  | (key, json) :: rest =>
    match key, json.toValue depth with
    | some key, some v => toFields depth (Fields.put key v done) rest
    | _, _ => none
termination_by structural members => members

end

def object? (depth : Nat) (json : Json) : Option (Fields Value) :=
  match json with
  | .object _ =>
    match json.toValue depth with
    | some (.map fields) => some fields
    | _ => none
  | _ => none

/-- The only value of a key, if the key does not occur twice. -/
def member? (key : String) (members : List (Option String × Json)) : Option (Option Json) :=
  match members.filter fun m => m.1 = some key with
  | [] => some none
  | [m] => some (some m.2)
  | _ => none

end Json

end Inclusion
