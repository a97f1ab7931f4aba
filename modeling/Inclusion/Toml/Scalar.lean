import Inclusion.Number.Digits
import Inclusion.Toml
/-!
# Scalars of TOML

Strings of four kinds, numbers and truth values. Every reader takes a text and gives what it read and
what follows.
-/

namespace Inclusion

namespace Toml

/-- A character that can stand in a comment and in a string: no control character but the tab. -/
def isTextChar (c : Char) : Bool :=
  c = '\t' || (0x20 ≤ c.toNat && c.toNat ≠ 0x7F)

/-- A space or a tab. -/
def isWhite (c : Char) : Bool :=
  c = ' ' || c = '\t'

def dropWhite (cs : List Char) : List Char :=
  cs.dropWhile isWhite

def lineEnd? : List Char → Option (List Char)
  | '\n' :: rest => some rest
  | '\r' :: '\n' :: rest => some rest
  | _ => none

/-- The character with the code that the digits write. -/
def charOfHex? (digits : List Char) : Option Char :=
  match ofDigits? 16 digits with
  | some n => if n < 0xD800 || (0xE000 ≤ n && n < 0x110000) then some (Char.ofNat n) else none
  | none => none

/-- The character of an escape, after its backslash, and how many characters the escape has. -/
def escape? : List Char → Option (Char × Nat)
  | 'b' :: _ => some ('\x08', 1)
  | 't' :: _ => some ('\t', 1)
  | 'n' :: _ => some ('\n', 1)
  | 'f' :: _ => some ('\x0c', 1)
  | 'r' :: _ => some ('\r', 1)
  | '"' :: _ => some ('"', 1)
  | '\\' :: _ => some ('\\', 1)
  | 'u' :: rest => if (rest.take 4).length = 4 then (charOfHex? (rest.take 4)).map (·, 5) else none
  | 'U' :: rest => if (rest.take 8).length = 8 then (charOfHex? (rest.take 8)).map (·, 9) else none
  | _ => none

/-- A string in double quotes on one line, after its opening quote. -/
def readBasic : List Char → Option (List Char × List Char)
  | [] => none
  | '"' :: rest => some ([], rest)
  | '\\' :: rest =>
    match escape? rest with
    | some (c, n) => (readBasic (rest.drop n)).map fun (s, after) => (c :: s, after)
    | none => none
  | c :: rest => if isTextChar c then (readBasic rest).map fun (s, after) => (c :: s, after) else none
termination_by cs => cs.length
decreasing_by
  · simp only [List.length_drop, List.length_cons]
    omega
  · simp

/-- A string in single quotes on one line, after its opening quote. -/
def readLiteral : List Char → Option (List Char × List Char)
  | [] => none
  | '\'' :: rest => some ([], rest)
  | c :: rest => if isTextChar c then (readLiteral rest).map fun (s, after) => (c :: s, after) else none

def dropLines : List Char → List Char
  | ' ' :: rest => dropLines rest
  | '\t' :: rest => dropLines rest
  | '\n' :: rest => dropLines rest
  | '\r' :: '\n' :: rest => dropLines rest
  | cs => cs

theorem length_dropLines_le (cs : List Char) : (dropLines cs).length ≤ cs.length := by
  fun_induction dropLines cs <;> simp_all <;> omega

/-- What follows an escaped line end, after its backslash: blanks, the line end, and all blanks and line
ends after it. -/
def escapedLineEnd? (cs : List Char) : Option (List Char) :=
  (lineEnd? (dropWhite cs)).map dropLines

theorem length_lineEnd?_lt {cs rest : List Char} (h : lineEnd? cs = some rest) :
    rest.length < cs.length := by
  unfold lineEnd? at h
  split at h
  · simp_all
  · simp only [Option.some.injEq] at h
    subst h
    simp only [List.length_cons]
    omega
  · simp at h

theorem length_escapedLineEnd?_lt {cs rest : List Char} (h : escapedLineEnd? cs = some rest) :
    rest.length < cs.length := by
  obtain ⟨mid, hm, rfl⟩ := Option.map_eq_some_iff.1 h
  have h₁ := length_lineEnd?_lt hm
  have h₂ := length_dropLines_le mid
  have h₃ : (dropWhite cs).length ≤ cs.length := (List.dropWhile_sublist isWhite).length_le
  omega

/-- The contents of a string over several lines and what follows its closing, which is three quotes. Up
to two more quotes at the closing belong to the contents. Line ends become line feeds; where backslashes
escape, `escapes` is set. -/
def readLines (quote : Char) (escapes : Bool) : List Char → Option (List Char × List Char)
  | [] => none
  | c :: rest =>
    if c = quote then
      let more := (rest.takeWhile (· = quote)).length
      if more < 2 then
        (readLines quote escapes (rest.drop more)).map fun (s, after) =>
          (List.replicate (more + 1) quote ++ s, after)
      else
        let kept := min 2 (more - 2)
        some (List.replicate kept quote, rest.drop (kept + 2))
    else if c = '\\' && escapes then
      match h : escapedLineEnd? rest with
      | some rest' =>
        have := length_escapedLineEnd?_lt h
        readLines quote escapes rest'
      | none =>
        match escape? rest with
        | some (c, n) => (readLines quote escapes (rest.drop n)).map fun (s, after) => (c :: s, after)
        | none => none
    else
      match h : lineEnd? (c :: rest) with
      | some rest' =>
        have := length_lineEnd?_lt h
        (readLines quote escapes rest').map fun (s, after) => ('\n' :: s, after)
      | none =>
        if isTextChar c then (readLines quote escapes rest).map fun (s, after) => (c :: s, after)
        else none
termination_by cs => cs.length
decreasing_by
  · simp only [List.length_drop, List.length_cons]
    omega
  · simp only [List.length_cons]
    omega
  · simp only [List.length_drop, List.length_cons]
    omega
  · assumption
  · simp

/-- A line end right after the opening of a string over several lines is no part of it. -/
def dropFirstLineEnd (cs : List Char) : List Char :=
  (lineEnd? cs).getD cs

def readString : List Char → Option (List Char × List Char)
  | '"' :: '"' :: '"' :: rest => readLines '"' true (dropFirstLineEnd rest)
  | '\'' :: '\'' :: '\'' :: rest => readLines '\'' false (dropFirstLineEnd rest)
  | '"' :: rest => readBasic rest
  | '\'' :: rest => readLiteral rest
  | _ => none

/-- The digits that follow a digit, with single underscores between them, without the underscores. -/
def moreDigits (base : Nat) : List Char → Option (List Char × List Char)
  | '_' :: c :: rest =>
    if isDigitOf base c then (moreDigits base rest).map fun (ds, after) => (c :: ds, after) else none
  | '_' :: [] => none
  | c :: rest =>
    if isDigitOf base c then (moreDigits base rest).map fun (ds, after) => (c :: ds, after)
    else some ([], c :: rest)
  | [] => some ([], [])

def readDigits (base : Nat) : List Char → Option (List Char × List Char)
  | [] => none
  | c :: rest =>
    if isDigitOf base c then (moreDigits base rest).map fun (ds, after) => (c :: ds, after) else none

/-- The digits before the point of a number: a zero stands alone. -/
def readWhole : List Char → Option (List Char × List Char)
  | '0' :: rest => some (['0'], rest)
  | cs => readDigits 10 cs

/-- A whole number that fits in 64 bits with its sign. -/
def integer? (negative : Bool) (n : Nat) : Option Scalar :=
  if negative then if n ≤ 1 <<< 63 then some (.number (.int (-n))) else none
  else if n < 1 <<< 63 then some (.number (.int n)) else none

/-- A number with a fraction. What is too great is refused, unless it is negative. -/
def float? (negative : Bool) (mantissa : Nat) (exponent : Int) : Option Scalar :=
  let x := Binary64.ofDecimal negative mantissa exponent
  if x.isFinite || negative then some (Scalar.ofFloat x) else none

/-- The exponent of a number after its letter. -/
def readExponent (cs : List Char) : Option (Int × List Char) :=
  match cs with
  | '-' :: rest => (readDigits 10 rest).map fun (ds, after) => (-(ofDigits 10 ds : Int), after)
  | '+' :: rest => (readDigits 10 rest).map fun (ds, after) => ((ofDigits 10 ds : Int), after)
  | _ => (readDigits 10 cs).map fun (ds, after) => ((ofDigits 10 ds : Int), after)

/-- A decimal number after its sign. -/
def readDecimal (negative : Bool) (cs : List Char) : Option (Scalar × List Char) :=
  match readWhole cs with
  | none => none
  | some (whole, rest) =>
    match rest with
    | '.' :: more =>
      match readDigits 10 more with
      | none => none
      | some (places, rest) =>
        let mantissa := ofDigits 10 (whole ++ places)
        match rest with
        | 'e' :: more | 'E' :: more =>
          match readExponent more with
          | some (e, after) => (float? negative mantissa (e - places.length)).map (·, after)
          | none => none
        | _ => (float? negative mantissa (-places.length)).map (·, rest)
    | 'e' :: more | 'E' :: more =>
      match readExponent more with
      | some (e, after) => (float? negative (ofDigits 10 whole) e).map (·, after)
      | none => none
    | _ => (integer? negative (ofDigits 10 whole)).map (·, rest)

/-- A whole number in another base, after its base mark. -/
def readRadix (base : Nat) (cs : List Char) : Option (Scalar × List Char) :=
  match readDigits base cs with
  | some (ds, rest) => (integer? false (ofDigits base ds)).map (·, rest)
  | none => none

/-- A number with a sign perhaps. Infinities and what is no number become `null`. -/
def readNumber : List Char → Option (Scalar × List Char)
  | '0' :: 'x' :: rest => readRadix 16 rest
  | '0' :: 'o' :: rest => readRadix 8 rest
  | '0' :: 'b' :: rest => readRadix 2 rest
  | 'i' :: 'n' :: 'f' :: rest => some (.null, rest)
  | 'n' :: 'a' :: 'n' :: rest => some (.null, rest)
  | '+' :: 'i' :: 'n' :: 'f' :: rest => some (.null, rest)
  | '+' :: 'n' :: 'a' :: 'n' :: rest => some (.null, rest)
  | '-' :: 'i' :: 'n' :: 'f' :: rest => some (.null, rest)
  | '-' :: 'n' :: 'a' :: 'n' :: rest => some (.null, rest)
  | '+' :: rest => readDecimal false rest
  | '-' :: rest => readDecimal true rest
  | cs => readDecimal false cs

end Toml

end Inclusion
