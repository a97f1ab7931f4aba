import Inclusion.Value
/-!
# Writing values as JSON

A value is written over several lines, each part of a list or of a map on a line of its own, indented by
two spaces for each list or map around it. An empty list or map stays on its line.
-/

namespace Inclusion

namespace Json

/-- The hexadecimal digits of a character below sixteen times sixteen. -/
def hexPair (n : Nat) : List Char :=
  [Nat.digitChar (n / 16 % 16), Nat.digitChar (n % 16)]

def escape (c : Char) : List Char :=
  match c with
  | '"' => ['\\', '"']
  | '\\' => ['\\', '\\']
  | '\x08' => ['\\', 'b']
  | '\x0c' => ['\\', 'f']
  | '\n' => ['\\', 'n']
  | '\r' => ['\\', 'r']
  | '\t' => ['\\', 't']
  | c => if c.toNat < 0x20 then ['\\', 'u', '0', '0'] ++ hexPair c.toNat else [c]

def quoted (s : String) : String :=
  String.ofList ('"' :: s.toList.flatMap escape ++ ['"'])

def writeScalar : Scalar → String
  | .null => "null"
  | .bool b => if b then "true" else "false"
  | .number n => n.text
  | .string s => quoted s

/-- The start of a line inside `level` lists and maps. -/
def newLine (level : Nat) : String :=
  "\n" ++ String.ofList (List.replicate (2 * level) ' ')

mutual

/-- The text of a value inside `level` lists and maps. -/
def write (level : Nat) : Value → String
  | .scalar s => writeScalar s
  | .list [] => "[]"
  | .list (v :: rest) =>
    "[" ++ newLine (level + 1) ++ write (level + 1) v ++ writeItems (level + 1) rest ++ newLine level ++ "]"
  | .map [] => "\x7b\x7d"
  | .map ((key, v) :: rest) =>
    "\x7b" ++ newLine (level + 1) ++ quoted key ++ ": " ++ write (level + 1) v ++
      writeFields (level + 1) rest ++ newLine level ++ "\x7d"
termination_by structural v => v

/-- The items of a list after the first one. -/
def writeItems (level : Nat) : List Value → String
  | [] => ""
  | v :: rest => "," ++ newLine level ++ write level v ++ writeItems level rest
termination_by structural items => items

/-- The fields of a map after the first one. -/
def writeFields (level : Nat) : List (String × Value) → String
  | [] => ""
  | (key, v) :: rest =>
    "," ++ newLine level ++ quoted key ++ ": " ++ write level v ++ writeFields level rest
termination_by structural fields => fields

end

end Json

def Value.toJson (v : Value) : String :=
  Json.write 0 v

end Inclusion
