import Inclusion.CommandLine
/-!
# The program

Gathers from the file system what a command reads, lets the command run, and writes what it leaves
behind.
-/

namespace Inclusion

namespace Main

/-- Adds to a disk what is at a path of the file system; of a directory all that is not hidden. -/
partial def gather (below : Bool) (disk : Disk) (p : Path) : IO Disk := do
  let place := (← IO.currentDir) / p.text
  if p.text.isEmpty then return disk
  else if ← place.isDir then
    let mut disk := disk.makeDirectory p
    if below then
      for entry in ← place.readDir do
        unless entry.fileName.startsWith "." do
          disk ← gather true disk (p.join ⟨entry.fileName⟩)
    return disk
  else if ← place.pathExists then
    let content ← try some <$> IO.FS.readBinFile place catch _ => pure none
    match content.bind String.fromUTF8? with
    | some text => return disk.write p (.text text)
    | none => return disk.write p .bytes
  else return disk

/-- A disk that holds what is at the paths. -/
def gatherAll (paths : List Path) : IO Disk := do
  let current := (← IO.currentDir).toString
  let names := (Path.segments current).filter (!·.isEmpty)
  let mut disk : Disk := ⟨.directory [], names⟩
  disk := disk.makeDirectory ⟨"."⟩
  for p in paths do
    for q in (p.ancestors p.components.length).reverse do
      disk ← gather false disk q
    disk ← gather true disk p
  return disk

/-- Everything on a stream, if it is text. -/
partial def readAll (stream : IO.FS.Stream) (done : ByteArray) : IO (Option String) := do
  let bytes ← stream.read 65536
  if bytes.isEmpty then return String.fromUTF8? done else readAll stream (done ++ bytes)

def run (args : List String) : IO CommandLine.Outcome := do
  match CommandLine.Request.ofArguments args with
  | .run o =>
    let before ← gatherAll o.config.toList
    let disk ← gatherAll (CommandLine.paths before o)
    let stdin ← if o.readsInput then readAll (← IO.getStdin) .empty else pure (some "")
    return CommandLine.run disk stdin args
  | _ => return CommandLine.run ⟨.directory [], []⟩ none args

end Main

end Inclusion

def main (args : List String) : IO UInt32 := do
  let outcome ← Inclusion.Main.run args
  (← IO.getStdout).putStr outcome.output
  (← IO.getStderr).putStr outcome.errorOutput
  return outcome.exitCode.toUInt32
