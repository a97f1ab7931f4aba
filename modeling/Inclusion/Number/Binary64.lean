/-!
# Binary floating-point numbers

A number with a fraction is a binary64 word: a sign, eleven bits of exponent and fifty-two bits of
fraction. The bits after the sign are kept as one number, the code, because codes are ordered as the
magnitudes are: a code is read as `significand * 2 ^ scale` units of `2 ^ -1074`, and rounding a ratio
to the nearest word is rounding to the nearest code. Everything here is exact arithmetic on natural
numbers.
-/

namespace Inclusion

/-- A binary64 word: its sign and the sixty-three bits after the sign. -/
structure Binary64 where
  negative : Bool
  code : Nat
  deriving DecidableEq, Repr

/-- The quotient rounded to the nearest natural number, a half to the even neighbour. -/
def roundHalfEven (num den : Nat) : Nat :=
  let quotient := num / den
  let remainder := num % den
  if den < 2 * remainder || (2 * remainder = den && quotient % 2 = 1) then quotient + 1 else quotient

namespace Binary64

/-- The bit of weight `2 ^ 52`, which is not written in a code but counts in its significand unless the
exponent is zero. -/
def hiddenBit : Nat := 1 <<< 52

/-- The first code that is not finite; it stands for infinity. -/
def infiniteCode : Nat := 2047 * hiddenBit

def zero : Binary64 := ⟨false, 0⟩

def isFinite (x : Binary64) : Bool :=
  x.code < infiniteCode

def neg (x : Binary64) : Binary64 :=
  ⟨!x.negative, x.code⟩

def significand (x : Binary64) : Nat :=
  if x.code < hiddenBit then x.code else hiddenBit + x.code % hiddenBit

def scale (x : Binary64) : Nat :=
  x.code / hiddenBit - 1

/-- The magnitude in units of `2 ^ -1074`. -/
def units (x : Binary64) : Nat :=
  x.significand <<< x.scale

/-- The word nearest to `num / den`, a half to the even code. -/
def ofRatio (negative : Bool) (num den : Nat) : Binary64 :=
  let units := num <<< 1074
  let scale := (units / den).log2 - 52
  ⟨negative, min infiniteCode (scale * hiddenBit + roundHalfEven units (den <<< scale))⟩

/-- The word nearest to `mantissa * 10 ^ exponent`. Magnitudes that are certain to leave the range on
either side are settled without computing the power. -/
def ofDecimal (negative : Bool) (mantissa : Nat) (exponent : Int) : Binary64 :=
  let magnitude : Int := (Nat.toDigits 10 mantissa).length + exponent
  if mantissa = 0 || magnitude < -330 then ⟨negative, 0⟩
  else if 310 < magnitude then ⟨negative, infiniteCode⟩
  else if 0 ≤ exponent then ofRatio negative (mantissa * Nat.pow 10 exponent.toNat) 1
  else ofRatio negative mantissa (Nat.pow 10 (-exponent).toNat)

/-- The product of a magnitude with a power of ten, the power and the product each rounded once. -/
def mulPower (x : Binary64) (power : Nat) : Binary64 :=
  ofRatio x.negative (x.units * (ofRatio false (Nat.pow 10 power) 1).units) (1 <<< 2148)

/-- The quotient of a magnitude by a power of ten, the power and the quotient each rounded once. -/
def divPower (x : Binary64) (power : Nat) : Binary64 :=
  ofRatio x.negative x.units (ofRatio false (Nat.pow 10 power) 1).units

theorem neg_neg (x : Binary64) : x.neg.neg = x := by
  simp [neg]

end Binary64

end Inclusion
