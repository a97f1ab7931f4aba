import Inclusion.Component.Document
import Inclusion.Disk
/-!
# Reading config documents

A store reads the config document at a path. It may keep what it has read; then a path is read only once,
and later changes of the file are not seen. What cannot be read is not kept.
-/

namespace Inclusion

inductive ConfigError
  | missing (path : Path)
  | unreadable (path : Path) (e : AccessError)
  | malformed (path : Path) (format : Format)
  deriving DecidableEq, Repr

namespace ConfigError

def path : ConfigError → Path
  | missing p => p
  | unreadable p _ => p
  | malformed p _ => p

/-- The message of the error. What the decoder says about a document that it does not read is left out; it
follows after a colon. -/
def message : ConfigError → String
  | missing p => "component config not found: " ++ p.text
  | unreadable p e => "failed to read component config " ++ p.text ++ ": " ++ e.message
  | malformed p _ => "failed to parse component config " ++ p.text

end ConfigError

def Config.read (disk : Disk) (p : Path) : Except ConfigError Config :=
  match disk.read p with
  | .error .notFound => .error (.missing p)
  | .error e => .error (.unreadable p e)
  | .ok content =>
    match Config.decode (Format.ofPath p) content with
    | some config => .ok config
    | none => .error (.malformed p (Format.ofPath p))

/-- A reader of configs: the configs by the steps of their paths, if it keeps them. -/
structure ConfigStore where
  kept : Option (List (List Path.Component × Config))
  deriving Repr

namespace ConfigStore

/-- A store that keeps what it has read, or one that does not. -/
def new (keeps : Bool) : ConfigStore :=
  ⟨if keeps then some [] else none⟩

def kept? (s : ConfigStore) (p : Path) : Option Config :=
  s.kept.bind fun kept => (kept.find? fun k => k.1 = p.components).map Prod.snd

/-- The config at a path, and the store after it was read. -/
def load (disk : Disk) (p : Path) (s : ConfigStore) : Except ConfigError Config × ConfigStore :=
  match s.kept? p with
  | some config => (.ok config, s)
  | none =>
    match Config.read disk p with
    | .ok config => (.ok config, ⟨s.kept.map ((p.components, config) :: ·)⟩)
    | .error e => (.error e, s)

/-- The context of a variant of the config at a path, and the store after it was read. -/
def context (disk : Disk) (p : Path) (variant : Option String) (s : ConfigStore) :
    Except ConfigError Context × ConfigStore :=
  match s.load disk p with
  | (.ok config, s) => (.ok (config.resolve variant), s)
  | (.error e, s) => (.error e, s)

end ConfigStore

end Inclusion
