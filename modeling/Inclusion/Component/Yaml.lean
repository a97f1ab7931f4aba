import Inclusion.Component.Config
import Inclusion.Yaml.Decode
/-!
# Component configs in YAML

A config and each of its variants is a mapping. A name can be any scalar and is taken as it is written.
Keys that are not known are ignored, whatever they hold; a known key stands only once.
-/

namespace Inclusion

open Yaml

/-- A variant that nests at most `depth` deep. -/
def Variant.ofYaml (d : Document) (depth : Nat) (node : Node Nat) : Decode Variant := do
  let entries ← d.entries node
  match ← Document.member? "name" entries with
  | none => failure
  | some name =>
    let name ← d.text name
    let context ← d.optionalMember (d.fields (depth - 1)) "context" entries
    return ⟨name, context⟩

/-- A config that nests at most `depth` deep. -/
def Config.ofYaml (d : Document) (depth : Nat) (node : Node Nat) : Decode Config := do
  let entries ← d.entries node
  let defaultVariant ← d.optionalMember d.text "default" entries
  let context ← d.optionalMember (d.fields (depth - 1)) "context" entries
  let variants ← d.optionalMember (d.items (depth - 1) (Variant.ofYaml d)) "variants" entries
  return ⟨defaultVariant, context, variants⟩

/-- The config that a document is; `null` and an empty document are the empty config. -/
def Config.ofYaml? : Option Document → Option Config
  | none => some {}
  | some d => (d.decode (d.optional (Config.ofYaml d Document.maxDepth))).map fun c => c.getD {}

end Inclusion
