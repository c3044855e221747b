import PartitionLog.CommandLine

/-!
# The program

Loads the files that an invocation names, runs the tool on them, and stores what it changed.
-/

namespace PartitionLog.CommandLine

def contentAt? (path : String) : IO (Option Bytes) := do
  try
    return some (← IO.FS.readBinFile path).data.toList
  catch _ => return none

def isDirectoryAt (path : String) : IO Bool := do
  try
    (← IO.FS.realPath path).isDir
  catch _ => return false

/-- Add what the disk holds at `path`. -/
def load (files : FileSystem) (path : String) : IO FileSystem := do
  let directory := (Path.parent? path).getD ""
  let mut files := files
  if ← isDirectoryAt directory then files := (files.makeDirectories directory).2
  if ← isDirectoryAt path then files := (files.makeDirectories path).2
  match ← contentAt? path with
  | some bytes => return (files.write path bytes).2
  | none => return files

/-- Bring the disk from `before` to `after` at `path`. -/
def store (before after : FileSystem) (path : String) : IO Unit := do
  let directory := (Path.parent? path).getD ""
  if after.isDirectory directory && !before.isDirectory directory then
    IO.FS.createDirAll directory
  match before.read? path, after.read? path with
  | some _, none => IO.FS.removeFile path
  | old, some bytes =>
    if old != some bytes then IO.FS.writeBinFile path (ByteArray.mk bytes.toArray)
  | none, none => return ()

def namedFiles (arguments : List String) : List String :=
  match Request.read arguments with
  | .ok (.run invocation) => invocation.files
  | _ => []

end PartitionLog.CommandLine

open PartitionLog CommandLine in
def main (arguments : List String) : IO UInt32 := do
  let names := namedFiles arguments
  let before ← names.foldlM load {}
  let (report, after) := runTool arguments before
  names.forM (store before after)
  IO.print report.printed
  if let some failure := report.failure then IO.eprintln failure.message
  return UInt32.ofNat report.exitCode
