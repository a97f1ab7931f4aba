import Inclusion.Component.Config
import Inclusion.Json.Decode
/-!
# Component configs in JSON

A config and each of its variants is an object, or an array of its fields in the order of their
declaration, where fields can be missing at the end. Keys that are not known are ignored, whatever they
hold; a known key stands only once.
-/

namespace Inclusion

namespace Json

/-- A string, or nothing for `null`. -/
def optionalString? : Json → Option (Option String)
  | .null => some none
  | .string (some s) => some (some s)
  | _ => none

/-- The fields of an object, or nothing for `null`. -/
def optionalObject? (depth : Nat) : Json → Option (Option (Fields Value))
  | .null => some none
  | json => (json.object? depth).map some

/-- A field that can be missing. -/
def optionalMember? {α : Type} (read : Json → Option (Option α)) (key : String)
    (members : List (Option String × Json)) : Option (Option α) :=
  match member? key members with
  | none => none
  | some none => some none
  | some (some json) => read json

def keysReadable (members : List (Option String × Json)) : Bool :=
  members.all fun m => m.1.isSome

end Json

namespace Variant

/-- A variant whose parts nest at most `depth` deep. -/
def ofJson? (depth : Nat) : Json → Option Variant
  | .object members =>
    if Json.keysReadable members then
      match Json.member? "name" members,
          Json.optionalMember? (Json.optionalObject? depth) "context" members with
      | some (some (.string (some name))), some context => some ⟨name, context⟩
      | _, _ => none
    else none
  | .array [.string (some name)] => some ⟨name, none⟩
  | .array [.string (some name), context] => (Json.optionalObject? depth context).map fun c => ⟨name, c⟩
  | _ => none

end Variant

namespace Config

/-- A list of variants, or nothing for `null`. -/
def variantsOfJson? (depth : Nat) : Json → Option (Option (List Variant))
  | .null => some none
  | .array items => (items.mapM (Variant.ofJson? depth)).map some
  | _ => none

def ofJson? : Json → Option Config
  | .null => some {}
  | .object members =>
    if Json.keysReadable members then
      match Json.optionalMember? Json.optionalString? "default" members,
          Json.optionalMember? (Json.optionalObject? (Json.maxDepth - 1)) "context" members,
          Json.optionalMember? (variantsOfJson? (Json.maxDepth - 3)) "variants" members with
      | some d, some c, some v => some ⟨d, c, v⟩
      | _, _, _ => none
    else none
  | .array items =>
    if 3 < items.length then none
    else
      match Json.optionalString? (items[0]?.getD .null),
          Json.optionalObject? (Json.maxDepth - 1) (items[1]?.getD .null),
          variantsOfJson? (Json.maxDepth - 3) (items[2]?.getD .null) with
      | some d, some c, some v => some ⟨d, c, v⟩
      | _, _, _ => none
  | _ => none

end Config

end Inclusion
