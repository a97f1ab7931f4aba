import Inclusion.Component.Config
import Inclusion.Toml
/-!
# Component configs in TOML

A config is the table of a document, and each of its variants is a table or an array of the name and,
perhaps, the context. Keys that are not known are ignored.
-/

namespace Inclusion

namespace Variant

/-- The fields of a variant in the order in which an array gives them. -/
def tomlFields : List Toml.Field :=
  [⟨"name", false⟩, ⟨"context", true⟩]

def ofToml? (t : Toml) : Option Variant :=
  match Toml.record? tomlFields t with
  | some [some name, context] =>
    match name.string?, Toml.optional? Toml.map? context with
    | some name, some context => some ⟨name, context⟩
    | _, _ => none
  | _ => none

end Variant

namespace Config

def variantsOfToml? : Toml → Option (List Variant)
  | .array items => items.mapM Variant.ofToml?
  | _ => none

/-- The fields of a config in the order in which an array would give them. -/
def tomlFields : List Toml.Field :=
  [⟨"default", true⟩, ⟨"context", true⟩, ⟨"variants", true⟩]

def ofToml? (t : Toml) : Option Config :=
  match Toml.record? tomlFields t with
  | some [defaultVariant, context, variants] =>
    match Toml.optional? Toml.string? defaultVariant, Toml.optional? Toml.map? context,
        Toml.optional? variantsOfToml? variants with
    | some d, some c, some v => some ⟨d, c, v⟩
    | _, _, _ => none
  | _ => none

end Config

end Inclusion
