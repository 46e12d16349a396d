import GridMarkup.Command.Duration
import GridMarkup.Command.Run

/-!
# The program

Reads what the command needs from standard input and the disk, runs it, and writes what it reports.
-/

open GridMarkup

/-- The entries of a tree at a path and below it. Links below it are not followed. -/
partial def entriesBelow (path : String) (key : FileTree.Key) (isFile isFolder : Bool) :
    IO (List (FileTree.Key × FileTree.Entry)) := do
  let place := (← IO.currentDir) / path
  if isFolder then
    let mut entries := [(key, FileTree.Entry.directory)]
    for entry in ← place.readDir do
      let kind := (← entry.path.symlinkMetadata).type
      entries := entries ++ (← entriesBelow (Path.join path [entry.fileName])
        (key ++ [entry.fileName]) (kind == .file) (kind == .dir))
    return entries
  else if isFile then
    return [(key, .file (← IO.FS.readBinFile place))]
  else
    return []

def entryAt (path : String) : IO (List (FileTree.Key × FileTree.Entry)) := do
  let place := (← IO.currentDir) / path
  if path.isEmpty || !(← place.pathExists) then return []
  else if ← place.isDir then return [(Path.key path, .directory)]
  else return [(Path.key path, .file .empty)]

/-- The part of the disk that a command on a path can read or write. -/
def loadTree (path : String) : IO FileTree := do
  let place := (← IO.currentDir) / path
  let isFolder ← place.isDir
  let present ← place.pathExists
  let below ← entriesBelow path (Path.key path) (present && !isFolder) isFolder
  let beside ← if isFolder then pure [] else entryAt (Command.outputPath path)
  let parts := Path.parts path
  let above ← (List.range parts.length).mapM fun n => entryAt ("/".intercalate (parts.take n))
  return { entries := below ++ beside ++ above.flatten }

partial def readAll (input : IO.FS.Stream) (content : ByteArray) : IO ByteArray := do
  let chunk ← input.read 65536
  if chunk.isEmpty then return content else readAll input (content ++ chunk)

/-- The tree and the input that a job reads. -/
def gather (job : Command.Job) : IO (FileTree × ByteArray) := do
  match job.source with
  | .path path => return (← loadTree path, .empty)
  | .input => return ({}, ← readAll (← IO.getStdin) .empty)

def writeFiles (report : Command.Report) : IO Unit := do
  for message in report.messages do
    match message with
    | .written path =>
      match report.tree.read (Path.key path) with
      | .ok content => IO.FS.writeBinFile path content
      | .error _ => pure ()
    | _ => pure ()

def main (arguments : List String) : IO UInt32 := do
  match Command.parse false arguments with
  | .misuse =>
    IO.eprint Command.usage
    return 2
  | .help =>
    IO.print Command.usage
    return 0
  | .run verbose job =>
    let before ← IO.monoNanosNow
    let (tree, input) ← gather job
    let report := job.run tree input
    writeFiles report
    let elapsed := ((← IO.monoNanosNow) - before) / 1000
    let palette := if ← (← IO.getStderr).isTty then Palette.ansi else Palette.plain
    for message in report.messages do
      IO.eprint (message.text palette verbose (Command.durationText elapsed))
    IO.print report.output
    return UInt32.ofNat report.status
