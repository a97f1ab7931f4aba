import Inclusion.Disk.Path
import Inclusion.Value
/-!
# Files and directories

A disk is a tree of directories and files, and the directory that relative paths start from. Going up
from the top stays at the top. Nothing here changes what it reads: a disk that is written to is another
disk.
-/

namespace Inclusion

inductive FileTree
  | text (content : String)
  /-- A file whose bytes are no text. -/
  | bytes
  | directory (entries : List (OsString × FileTree))
  deriving Repr, Inhabited

inductive AccessError
  | notFound
  | notADirectory
  | isADirectory
  | notText
  deriving DecidableEq, Repr

def AccessError.message : AccessError → String
  | notFound => "No such file or directory (os error 2)"
  | notADirectory => "Not a directory (os error 20)"
  | isADirectory => "Is a directory (os error 21)"
  | notText => "stream did not contain valid UTF-8"

namespace FileTree

/-- What segments lead to from a tree, with the directories above it, the nearest first. -/
def walk : (segments : List OsString) → (above : List FileTree) → FileTree → Except AccessError FileTree
  | [], _, t => .ok t
  | segment :: rest, above, .directory entries =>
    match Path.Component.ofSegment segment with
    | some (.name s) =>
      match Fields.get? s entries with
      | some t => walk rest (.directory entries :: above) t
      | none => .error .notFound
    | some .up =>
      match above with
      | [] => walk rest [] (.directory entries)
      | up :: above => walk rest above up
    | _ => walk rest above (.directory entries)
  | _ :: _, _, _ => .error .notADirectory

mutual

/-- The paths of the files of the tree at `path`, in the order of the names on the way. What has a name
with a dot in front is hidden, together with all that it holds; what a name begins with is read for display. -/
def files (path : Path) : FileTree → List Path
  | .text _ | .bytes => [path]
  | .directory entries => ((filesOfEntries path entries).mergeSort fun a b => a.1 ≤ b.1).flatMap Prod.snd
termination_by structural t => t

/-- The paths of the files that each visible entry holds, with the name of the entry. -/
def filesOfEntries (path : Path) : List (OsString × FileTree) → List (OsString × List Path)
  | [] => []
  | (name, t) :: rest =>
    let others := filesOfEntries path rest
    if name.chars.head? = some '.' then others else (name, t.files (path.join ⟨name⟩)) :: others
termination_by structural entries => entries

end

/-- Puts a tree at the end of a path of names, and makes the directories on the way. -/
def insert (new : FileTree) : (names : List OsString) → FileTree → FileTree
  | [], _ => new
  | name :: names, t =>
    let entries := match t with
      | .directory entries => entries
      | _ => []
    .directory (Fields.put name (insert new names ((Fields.get? name entries).getD (.directory []))) entries)

/-- Removes what is at the end of a path of names. -/
def erase : (names : List OsString) → FileTree → FileTree
  | [], t => t
  | [name], .directory entries => .directory (entries.filter fun e => e.1 ≠ name)
  | name :: names, .directory entries =>
    match Fields.get? name entries with
    | some t => .directory (Fields.put name (erase names t) entries)
    | none => .directory entries
  | _ :: _, t => t

end FileTree

structure Disk where
  /-- The directory that absolute paths start from. -/
  top : FileTree
  /-- The names from the top down to the directory that relative paths start from. -/
  current : List OsString := []
  deriving Repr, Inhabited

namespace Disk

/-- The tree at a path. The empty path leads nowhere. -/
def lookup (d : Disk) (p : Path) : Except AccessError FileTree :=
  if p.bytes.isEmpty then .error .notFound
  else
    let start := if p.isAbsolute then [] else d.current
    FileTree.walk (start ++ Path.segments p.bytes) [] d.top

def read (d : Disk) (p : Path) : Except AccessError String :=
  match d.lookup p with
  | .ok (.text content) => .ok content
  | .ok .bytes => .error .notText
  | .ok (.directory _) => .error .isADirectory
  | .error e => .error e

/-- The names from the top down to a path. -/
def names (d : Disk) (p : Path) : List OsString :=
  p.components.foldl (fun names step =>
    match step with
    | .root => []
    | .here => names
    | .up => names.dropLast
    | .name s => names ++ [s]) d.current

/-- The disk with a tree put at a path. -/
def write (d : Disk) (p : Path) (t : FileTree) : Disk :=
  { d with top := FileTree.insert t (d.names p) d.top }

def makeDirectory (d : Disk) (p : Path) : Disk :=
  match d.lookup p with
  | .ok (.directory _) => d
  | _ => d.write p (.directory [])

def remove (d : Disk) (p : Path) : Disk :=
  { d with top := d.top.erase (d.names p) }

end Disk

end Inclusion
