import Inclusion.SearchPaths
import Inclusion.Toml.Reader
/-!
# Settings of a compiler

Settings say where components are looked for and how. They are built up by hand or read from a TOML
document; what a document leaves out keeps its default.
-/

namespace Inclusion

/-- What happens when two templates have the same name. -/
inductive DuplicatePolicy
  | lastWins
  | reject
  deriving DecidableEq, Repr, Inhabited

structure Settings where
  /-- The namespace whose roots hold the components. -/
  ns : String := "FrctlTwig"
  templateExtension : String := "twig"
  configExtension : String := "yml"
  duplicates : DuplicatePolicy := .lastWins
  /-- A config document is read only once. -/
  cacheConfigs : Bool := false
  roots : List Path := []
  deriving DecidableEq, Repr, Inhabited

namespace DuplicatePolicy

def named? : String → Option DuplicatePolicy
  | "last-wins" => some lastWins
  | "reject" => some reject
  | _ => none

/-- An array or a table without entries. -/
def isEmptyToml : Toml → Bool
  | .array items => items.isEmpty
  | .table _ fields => fields.isEmpty
  | _ => false

/-- A policy is given by its name, or by a table whose first key is the name and holds nothing. A table in
braces has no other keys. -/
def ofToml? : Toml → Option DuplicatePolicy
  | .scalar (.string s) => named? s
  | .table inline ((name, held) :: rest) =>
    if (inline && !rest.isEmpty) || !isEmptyToml held then none else named? name
  | _ => none

end DuplicatePolicy

namespace Settings

def rootsOfToml? : Toml → Option (List Path)
  | .array items => items.mapM fun t => t.string?.map Path.mk
  | _ => none

def registryFields : List Toml.Field :=
  [⟨"namespace", false⟩, ⟨"roots", true⟩, ⟨"template_extension", false⟩, ⟨"config_extension", false⟩,
    ⟨"duplicates", false⟩]

def compilerFields : List Toml.Field :=
  [⟨"cache_configs", false⟩]

/-- Puts what the part about the components says into the settings. -/
def withRegistry (t : Toml) (s : Settings) : Option Settings :=
  match Toml.record? registryFields t with
  | some [ns, roots, template, config, duplicates] => do
    let ns ← Toml.optional? Toml.string? ns
    let roots ← Toml.optional? rootsOfToml? roots
    let template ← Toml.optional? Toml.string? template
    let config ← Toml.optional? Toml.string? config
    let duplicates ← Toml.optional? DuplicatePolicy.ofToml? duplicates
    some { s with
      ns := ns.getD s.ns
      roots := roots.getD s.roots
      templateExtension := template.getD s.templateExtension
      configExtension := config.getD s.configExtension
      duplicates := duplicates.getD s.duplicates }
  | _ => none

/-- Puts what the part about compiling says into the settings. -/
def withCompiler (t : Toml) (s : Settings) : Option Settings :=
  match Toml.record? compilerFields t with
  | some [cache] => do
    let cache ← Toml.optional? Toml.bool? cache
    some { s with cacheConfigs := cache.getD s.cacheConfigs }
  | _ => none

def parse (text : String) : Option Settings := do
  let t ← Toml.parse text
  match Toml.record? [⟨"registry", true⟩, ⟨"compiler", true⟩] t with
  | some [registry, compiler] =>
    let s ← match registry with
      | none => some {}
      | some t => withRegistry t {}
    match compiler with
    | none => some s
    | some t => withCompiler t s
  | _ => none

/-- Settings from a file: its roots are relative to the directory of the file. -/
def relativeTo (file : Path) (s : Settings) : Settings :=
  match file.parent? with
  | none => s
  | some dir => { s with roots := s.roots.map dir.join }

def loader (s : Settings) : Loader :=
  s.roots.foldl (fun loader root => loader.add s.ns root) []

end Settings

end Inclusion
