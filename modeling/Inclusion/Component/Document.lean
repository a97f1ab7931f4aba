import Inclusion.Component.Json
import Inclusion.Component.Toml
import Inclusion.Component.Yaml
import Inclusion.Disk.Path
import Inclusion.Text.Blank
import Inclusion.Toml.Reader
/-!
# Config documents

The extension of a path says in which format the config document is written. A document that holds only
spaces is the empty config in every format.
-/

namespace Inclusion

inductive Format
  | yaml
  | json
  | toml
  deriving DecidableEq, Repr

/-- The format of the file at the path; it is YAML unless the extension says otherwise. -/
def Format.ofPath (p : Path) : Format :=
  match p.extension?.bind OsString.text? with
  | some "json" => json
  | some "toml" => toml
  | _ => yaml

def Config.decode (format : Format) (content : String) : Option Config :=
  if content.toList.all isSpace then some {}
  else
    match format with
    | .yaml => (Yaml.Document.parse content).bind Config.ofYaml?
    | .json => (Json.parse content).bind Config.ofJson?
    | .toml => (Toml.parse content).bind Config.ofToml?

end Inclusion
