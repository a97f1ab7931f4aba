/-!
# Strings of the operating system

A name of a file is a string of bytes, and need not be the encoding of a text. Where a name is printed, the bytes that
are no character show as replacement characters; where a name has to be a text, one that is none is passed over.
-/

namespace Inclusion

/-- The bytes of a name or a path. -/
abbrev OsString := List UInt8

namespace OsString

def slash : UInt8 := 0x2F

def dot : UInt8 := 0x2E

/-- The bytes of a text in UTF-8. -/
def ofText (s : String) : OsString :=
  s.toList.flatMap String.utf8EncodeChar

instance : Coe String OsString := ⟨ofText⟩

/-- The character that the bytes begin with; it has at most four bytes. -/
def firstChar? (bs : OsString) : Option Char :=
  (bs.take 4).toByteArray.utf8DecodeChar? 0

/-- The ranges of the bytes that come after the first byte of a character. -/
def followers (first : UInt8) : List (UInt8 × UInt8) :=
  let any : UInt8 × UInt8 := (0x80, 0xBF)
  if 0xC2 ≤ first && first ≤ 0xDF then [any]
  else if first = 0xE0 then [(0xA0, 0xBF), any]
  else if first = 0xED then [(0x80, 0x9F), any]
  else if 0xE1 ≤ first && first ≤ 0xEF then [any, any]
  else if first = 0xF0 then [(0x90, 0xBF), any, any]
  else if first = 0xF4 then [(0x80, 0x8F), any, any]
  else if 0xF1 ≤ first && first ≤ 0xF3 then [any, any, any]
  else []

/-- How many bytes lie in the ranges, one after another. -/
def fitting : List (UInt8 × UInt8) → OsString → Nat
  | (low, high) :: ranges, b :: bs => if low ≤ b && b ≤ high then fitting ranges bs + 1 else 0
  | _, _ => 0

/-- The characters that are shown for the bytes after the next `skip`. Where no character begins, the replacement
character stands for the bytes up to the one with which no character could go on. -/
def charsAfter : (skip : Nat) → OsString → List Char
  | _, [] => []
  | skip + 1, _ :: rest => charsAfter skip rest
  | 0, b :: rest =>
    match firstChar? (b :: rest) with
    | some c => c :: charsAfter (c.utf8Size - 1) rest
    | none => '\uFFFD' :: charsAfter (fitting (followers b) rest) rest

def chars (bs : OsString) : List Char :=
  charsAfter 0 bs

/-- The text that is shown for the bytes. -/
def display (bs : OsString) : String :=
  String.ofList bs.chars

/-- The text that the bytes are the encoding of. -/
def text? (bs : OsString) : Option String :=
  if ofText bs.display = bs then some bs.display else none

end OsString

end Inclusion
