import Inclusion.Value
/-!
# TOML documents

The tree of a TOML document. Dates and times are kept as their text, and a number that is no finite
number is `null`.
-/

namespace Inclusion

inductive Toml
  | scalar (s : Scalar)
  | datetime (text : String)
  | array (items : List Toml)
  /-- A table; `inline` says whether it is written between braces. -/
  | table (inline : Bool) (fields : List (String × Toml))
  deriving Repr, Inhabited

namespace Toml

/-- The only key of the map that stands for a date or a time. -/
def datetimeKey : String := "$__toml_private_datetime"

mutual

def toValue : Toml → Value
  | .scalar s => .scalar s
  | .datetime text => .map [(datetimeKey, .string text)]
  | .array items => .list (toItems items)
  | .table _ fields => .map (toFields fields)
termination_by structural t => t

def toItems : List Toml → List Value
  | [] => []
  | t :: rest => t.toValue :: toItems rest
termination_by structural ts => ts

def toFields : List (String × Toml) → List (String × Value)
  | [] => []
  | (key, t) :: rest => (key, t.toValue) :: toFields rest
termination_by structural fs => fs

end

def string? : Toml → Option String
  | .scalar (.string s) => some s
  | _ => none

def bool? : Toml → Option Bool
  | .scalar (.bool b) => some b
  | _ => none

def map? (t : Toml) : Option (Fields Value) :=
  match t.toValue with
  | .map fields => some fields
  | _ => none

/-- A field of a record that is being looked for. -/
structure Field where
  name : String
  /-- The field can be missing at the end when the record is written as an array. -/
  optional : Bool

/-- The fields of a record in the order that is given. A record is a table with their names, or an array
of them; what else it holds is ignored. -/
def record? (fields : List Field) : Toml → Option (List (Option Toml))
  | .table _ entries => some (fields.map fun f => Fields.get? f.name entries)
  | .datetime _ => some (fields.map fun _ => none)
  | .array items =>
    if (fields.drop items.length).all Field.optional then
      some ((items.map some ++ List.replicate fields.length none).take fields.length)
    else none
  | .scalar _ => none

/-- Reads a field that can be missing. -/
def optional? {α : Type} (read : Toml → Option α) : Option Toml → Option (Option α)
  | none => some none
  | some t => (read t).map some

end Toml

end Inclusion
