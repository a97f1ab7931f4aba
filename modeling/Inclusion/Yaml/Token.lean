/-!
# Tokens of YAML

Blocks are written by indentation alone; their ends, and the starts of their mappings and lists, are
tokens nevertheless. The marker `key` stands before every key, whether or not it is written.
-/

namespace Inclusion

namespace Yaml

inductive Token
  | version (major minor : Nat)
  | tagPrefix (handle start : List Char)
  | documentStart
  | documentEnd
  | blockSequence
  | blockMapping
  | blockEnd
  | flowSequence
  | flowSequenceEnd
  | flowMapping
  | flowMappingEnd
  | blockEntry
  | flowEntry
  | key
  | value
  | alias (name : List Char)
  | anchor (name : List Char)
  | tag (handle suffix : List Char)
  /-- A scalar; `plain` says whether it is written without quotes and not as a block. -/
  | scalar (plain : Bool) (text : List Char)
  deriving DecidableEq, Repr

end Yaml

end Inclusion
