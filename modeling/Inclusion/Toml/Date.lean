import Inclusion.Number.Digits
/-!
# Dates and times

A date, a time of day, or both with an offset perhaps, and the usual text of it: the letter `T` between
date and time, fractions of a second without zeros at their end and cut off after nine digits.
-/

namespace Inclusion

namespace Date

/-- The outcome of an attempt to read something: something else stands there, what stands there is wrong,
or it was read. -/
inductive Attempt (α : Type)
  | miss
  | wrong
  | hit (a : α) (rest : List Char)

/-- A number of exactly `count` digits within a range. -/
def digits? (count low high : Nat) (cs : List Char) : Option (Nat × List Char) :=
  match ofDigits? 10 (cs.take count) with
  | some n =>
    if (cs.take count).length = count && low ≤ n && n ≤ high then some (n, cs.drop count) else none
  | none => none

/-- The digits of a number with zeros put before it. -/
def padded (width n : Nat) : List Char :=
  let ds := Nat.toDigits 10 n
  List.replicate (width - ds.length) '0' ++ ds

def daysOf (year month : Nat) : Nat :=
  if month = 2 then
    if year % 4 = 0 && (year % 100 ≠ 0 || year % 400 = 0) then 29 else 28
  else if month = 4 || month = 6 || month = 9 || month = 11 then 30
  else 31

/-- A date. Four digits and a dash make it certain that a date is meant. -/
def readDate (cs : List Char) : Attempt (List Char) :=
  match digits? 4 0 9999 cs with
  | some (year, '-' :: rest) =>
    match digits? 2 1 12 rest with
    | some (month, '-' :: rest) =>
      match digits? 2 1 (daysOf year month) rest with
      | some (day, rest) => .hit (padded 4 year ++ '-' :: padded 2 month ++ '-' :: padded 2 day) rest
      | none => .wrong
    | _ => .wrong
  | _ => .miss

/-- The fraction of a second, with its point, and what follows it. -/
def readFraction (cs : List Char) : List Char × List Char :=
  match cs with
  | '.' :: rest =>
    match rest.takeWhile Char.isDigit with
    | [] => ([], cs)
    | ds =>
      let kept := ((ds.take 9).reverse.dropWhile (· = '0')).reverse
      (if kept.isEmpty then [] else '.' :: kept, rest.dropWhile Char.isDigit)
  | _ => ([], cs)

/-- A time of day. An hour and a colon make it certain that a time is meant. -/
def readTime (cs : List Char) : Attempt (List Char) :=
  match digits? 2 0 23 cs with
  | some (hour, ':' :: rest) =>
    match digits? 2 0 59 rest with
    | some (minute, ':' :: rest) =>
      match digits? 2 0 60 rest with
      | some (second, rest) =>
        let (fraction, rest) := readFraction rest
        .hit (padded 2 hour ++ ':' :: padded 2 minute ++ ':' :: padded 2 second ++ fraction) rest
      | none => .wrong
    | _ => .wrong
  | _ => .miss

/-- The offset after a time, if there is one. -/
def readOffset (cs : List Char) : Attempt (List Char) :=
  match cs with
  | 'Z' :: rest | 'z' :: rest => .hit ['Z'] rest
  | sign :: rest =>
    if sign = '+' || sign = '-' then
      match digits? 2 0 23 rest with
      | some (hour, ':' :: rest) =>
        match digits? 2 0 59 rest with
        | some (minute, rest) =>
          let sign := if hour = 0 && minute = 0 then '+' else sign
          .hit (sign :: padded 2 hour ++ ':' :: padded 2 minute) rest
        | none => .wrong
      | _ => .wrong
    else .hit [] cs
  | [] => .hit [] []

/-- A date with or without a time, or a time. -/
def read (cs : List Char) : Attempt (List Char) :=
  match readDate cs with
  | .wrong => .wrong
  | .miss => readTime cs
  | .hit date rest =>
    match rest with
    | c :: more =>
      if c = 'T' || c = 't' || c = ' ' then
        match readTime more with
        | .wrong => .wrong
        | .miss => .hit date rest
        | .hit time more =>
          match readOffset more with
          | .hit offset after => .hit (date ++ 'T' :: time ++ offset) after
          | _ => .wrong
      else .hit date rest
    | [] => .hit date []

end Date

end Inclusion
