import Inclusion.Text.OsString
/-!
# Paths

A path is a string of bytes with segments between slashes. Two strings can name the same steps: empty segments and
segments `.` count for nothing, except that a leading `.` is kept. The components of a path are the steps
that are left, and they decide when two paths are the same key. All other operations keep the bytes as they
are written.
-/

namespace Inclusion

open OsString (slash dot)

structure Path where
  ofBytes ::
  bytes : OsString
  deriving DecidableEq, Repr, Inhabited

namespace Path

/-- The path that a text writes. -/
def mk (s : String) : Path :=
  ofBytes s

/-- The path as it is printed. -/
def text (p : Path) : String :=
  p.bytes.display

inductive Component
  | root
  | here
  | up
  | name (s : OsString)
  deriving DecidableEq, Repr

def Component.bytes : Component → OsString
  | root => [slash]
  | here => [dot]
  | up => [dot, dot]
  | name s => s

/-- The bytes between the slashes. -/
def segments : OsString → List OsString
  | [] => [[]]
  | b :: rest =>
    if b = slash then [] :: segments rest
    else
      match segments rest with
      | [] => [[b]]
      | first :: others => (b :: first) :: others

def isAbsolute (p : Path) : Bool :=
  p.bytes.head? = some slash

/-- The step that a segment stands for, if it stands for one. -/
def Component.ofSegment (segment : OsString) : Option Component :=
  if segment = [] || segment = [dot] then none
  else if segment = [dot, dot] then some up
  else some (name segment)

def components (p : Path) : List Component :=
  let segments := segments p.bytes
  let front :=
    if p.isAbsolute then [Component.root]
    else if segments.head? = some [dot] then [.here]
    else []
  front ++ segments.filterMap Component.ofSegment

/-- The name of the file, if the path ends in a name. -/
def fileName? (p : Path) : Option OsString :=
  match p.components.getLast? with
  | some (.name s) => some s
  | _ => none

/-- The bytes of a name before its last dot, and those after it. -/
def splitLastDot (name : OsString) : Option (OsString × OsString) :=
  match name.reverse.dropWhile (· ≠ dot) with
  | [] => none
  | _ :: before => some (before.reverse, (name.reverse.takeWhile (· ≠ dot)).reverse)

/-- What stands after the last dot of the file's name, unless that dot is the first byte. -/
def extension? (p : Path) : Option OsString :=
  match p.fileName?.bind splitLastDot with
  | some (_ :: _, after) => some after
  | _ => none

/-- Drops slashes and segments `.` from the end of a reversed string, down to a rest of `kept` bytes. -/
def dropBlankEnd (kept : Nat) : OsString → OsString
  | [] => []
  | b :: rest =>
    if rest.length < kept then b :: rest
    else if b = slash then dropBlankEnd kept rest
    else if b = dot then
      if rest.length = kept || rest.head? = some slash then dropBlankEnd kept rest else b :: rest
    else b :: rest

/-- How many bytes stand before the steps by name: a root or a leading `.`. -/
def frontLength (p : Path) : Nat :=
  match p.components.head? with
  | some .root | some .here => 1
  | _ => 0

/-- The path without its last step; the root and the empty path have none. -/
def parent? (p : Path) : Option Path :=
  match p.components.getLast? with
  | none | some .root => none
  | some .here => some ⟨[]⟩
  | some last =>
    let kept := p.frontLength
    let cut := (dropBlankEnd kept p.bytes.reverse).drop last.bytes.length
    some ⟨(dropBlankEnd kept cut).reverse⟩

/-- The paths above a path, the nearest first. -/
def ancestors (p : Path) : (count : Nat) → List Path
  | 0 => []
  | count + 1 =>
    match p.parent? with
    | some q => q :: ancestors q count
    | none => []

/-- The path of `q` from the place of `p`. -/
def join (p q : Path) : Path :=
  if q.isAbsolute then q
  else if p.bytes.getLast?.all (· = slash) then ⟨p.bytes ++ q.bytes⟩
  else ⟨p.bytes ++ slash :: q.bytes⟩

def withFileName (p : Path) (name : OsString) : Path :=
  match p.fileName? with
  | some _ => (p.parent?.getD ⟨[]⟩).join ⟨name⟩
  | none => p.join ⟨name⟩

end Path

end Inclusion
