import Inclusion.Disk
import Inclusion.Settings
/-!
# Settings from a file
-/

namespace Inclusion

inductive SettingsError
  | unreadable (e : AccessError)
  | malformed
  deriving DecidableEq, Repr

/-- The message of the error. What the decoder says about a document that it does not read is left out; it
follows after a colon. -/
def SettingsError.message : SettingsError → String
  | unreadable e => "Failed to read config file: " ++ e.message
  | malformed => "Failed to parse config TOML"

/-- The settings in a file. Its roots are relative to the directory of the file. -/
def Settings.read (disk : Disk) (file : Path) : Except SettingsError Settings :=
  match disk.read file with
  | .error e => .error (.unreadable e)
  | .ok text =>
    match Settings.parse text with
    | some s => .ok (s.relativeTo file)
    | none => .error .malformed

end Inclusion
