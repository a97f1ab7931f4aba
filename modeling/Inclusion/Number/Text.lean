import Inclusion.Number.Shortest
/-!
# How numbers are written

Two spellings of a number with a fraction are in use. In data and wherever a number becomes a string,
exponents from -5 to 15 are written out and a whole number keeps `.0`. In messages all digits are written
out and a whole number has no point.
-/

namespace Inclusion

/-- The decisions that fix the spelling of a number with a fraction. -/
structure FloatFormat where
  /-- Exponents outside this range are written with `e`; without a range all digits are written out. -/
  plainRange : Option (Int × Int)
  /-- What follows a whole number. -/
  wholeSuffix : String
  tie : Tie

namespace FloatFormat

/-- Numbers in data: exponents from -5 to 15 are written out, and a whole number keeps `.0`. -/
def data : FloatFormat := ⟨some (-5, 15), ".0", .toEven⟩

/-- Numbers in messages: all digits are written out, and a whole number has no point. -/
def message : FloatFormat := ⟨none, "", .up⟩

/-- Digits with the point written where the exponent puts it. -/
def plain (f : FloatFormat) (d : Decimal) : List Char :=
  if d.exponent < 0 then
    '0' :: '.' :: List.replicate ((-d.exponent).toNat - 1) '0' ++ d.digits
  else
    let whole := d.exponent.toNat + 1
    if d.digits.length ≤ whole then
      d.digits ++ List.replicate (whole - d.digits.length) '0' ++ f.wholeSuffix.toList
    else d.digits.take whole ++ '.' :: d.digits.drop whole

/-- One digit before the point, and the exponent with its sign. -/
def scientific (d : Decimal) : List Char :=
  let lead := match d.digits with
    | [] => []
    | [first] => [first]
    | first :: others => first :: '.' :: others
  let sign := if d.exponent < 0 then '-' else '+'
  lead ++ 'e' :: sign :: Nat.toDigits 10 d.exponent.natAbs

def text (f : FloatFormat) (x : Binary64) : List Char :=
  let sign := if x.negative then ['-'] else []
  if x.isFinite then
    let d := Decimal.shortest f.tie x
    match f.plainRange with
    | none => sign ++ f.plain d
    | some (least, greatest) =>
      if least ≤ d.exponent && d.exponent ≤ greatest then sign ++ f.plain d else sign ++ scientific d
  else sign ++ ['i', 'n', 'f']

end FloatFormat

end Inclusion
