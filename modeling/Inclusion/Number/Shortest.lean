import Inclusion.Number.Binary64
/-!
# The shortest decimal digits of a number

The digits of a finite word are the fewest that read back as the same word, and of those the nearest to
it. Reals that round to the word form an interval around it, ends included when the code is even. On the
grid of all decimals with a given count of digits only the two neighbours of the word need a look: if any
point of the grid lies in the interval, so does one of them. Seventeen digits are always enough.
-/

namespace Inclusion

/-- Digits `d₁d₂d₃…` that stand for `d₁.d₂d₃… * 10 ^ exponent`. -/
structure Decimal where
  digits : List Char
  exponent : Int
  deriving DecidableEq, Repr

/-- Which neighbour is taken when the word lies half-way between two. -/
inductive Tie
  | toEven
  | up
  deriving DecidableEq, Repr

namespace Decimal

/-- The number `n * 10 ^ power`, without the zeros at its end. -/
def ofNat (n : Nat) (power : Int) : Decimal :=
  let digits := Nat.toDigits 10 n
  match (digits.reverse.dropWhile (· = '0')).reverse with
  | [] => ⟨['0'], 0⟩
  | shorter => ⟨shorter, digits.length - 1 + power⟩

/-- The decimal places in which numbers are compared; the least positive word still has 76 digits. -/
def places : Nat := 400

/-- The neighbour to take on one grid, if there is one that reads back. All arguments are in the same
unit; `step` is the width of the grid. -/
def neighbour (tie : Tie) (closed : Bool) (low value high step : Nat) : Option Nat :=
  let below := value / step
  let rest := value % step
  let inside (n : Nat) : Bool :=
    if closed then low ≤ n * step && n * step ≤ high else low < n * step && n * step < high
  match inside below, inside (below + 1) with
  | true, true =>
    if 2 * rest < step then some below
    else if step < 2 * rest then some (below + 1)
    else match tie with
      | .toEven => some (if below % 2 = 0 then below else below + 1)
      | .up => some (below + 1)
  | true, false => some below
  | false, true => some (below + 1)
  | false, false => none

/-- The first count of digits, from `count` on, whose grid has a hit. -/
def search (tie : Tie) (closed : Bool) (low value high unit lead : Nat) : (fuel count : Nat) → Decimal
  | 0, count => ofNat (value / (unit * Nat.pow 10 (lead - count))) ((lead - count : Nat) - places)
  | fuel + 1, count =>
    match neighbour tie closed low value high (unit * Nat.pow 10 (lead - count)) with
    | some n => ofNat n ((lead - count : Nat) - places)
    | none => search tie closed low value high unit lead fuel (count + 1)

/-- The shortest digits of the magnitude of a finite word. -/
def shortest (tie : Tie) (x : Binary64) : Decimal :=
  if x.units = 0 then ⟨['0'], 0⟩
  else
    let quarter := Nat.pow 10 places <<< x.scale
    let value := 4 * x.significand * quarter
    let below := if x.significand = Binary64.hiddenBit && 0 < x.scale then 1 else 2
    let unit := 1 <<< 1076
    let lead := (Nat.toDigits 10 (value / unit)).length
    search tie (x.code % 2 = 0) (value - below * quarter) value (value + 2 * quarter) unit lead 17 1

end Decimal

end Inclusion
