import PartitionLog.Attempt
import PartitionLog.Bytes
import PartitionLog.Path

/-!
# Files

The files and directories that a log and its index snapshots live in. A file name refers to a
numbered content, so that a file which is open keeps its content when the name is removed or given
to another file. Names are resolved from the working directory, whose key is empty.
-/

namespace PartitionLog

inductive Entry where
  | directory
  | file (number : Nat)
  deriving DecidableEq, Repr

structure FileSystem where
  /-- What the directories hold, by the parts of the path. -/
  entries : List (List String × Entry) := []
  /-- The content of file `n` is the `n`-th element. -/
  contents : List Bytes := []
  deriving DecidableEq, Repr

namespace FileSystem

/-- Keys that exist without being created: the working directory, what is above it, the root. -/
def isGiven (key : List String) : Bool := key.all (· == "..") || key == ["/"]

def entry? (fs : FileSystem) (key : List String) : Option Entry :=
  if isGiven key then some .directory else fs.entries.lookup key

def content (fs : FileSystem) (number : Nat) : Bytes := fs.contents.getD number []

def setContent (fs : FileSystem) (number : Nat) (bytes : Bytes) : FileSystem :=
  { fs with contents := fs.contents.set number bytes }

def setEntry (fs : FileSystem) (key : List String) (entry : Entry) : FileSystem :=
  { fs with entries := (key, entry) :: fs.entries.filter (·.1 != key) }

def dropEntry (fs : FileSystem) (key : List String) : FileSystem :=
  { fs with entries := fs.entries.filter (·.1 != key) }

/-- Where `..` leads from `key`. -/
def above (key : List String) : List String :=
  if key == ["/"] then key
  else match key.getLast? with
    | none | some ".." => key ++ [".."]
    | some _ => key.dropLast

def descend (key : List String) (part : String) : List String :=
  if part == ".." then above key else key ++ [part]

/-- The directory where a path starts. -/
def origin (path : String) : List String := if Path.isAbsolute path then ["/"] else []

/-- Follow the parts; every part but the last has to be a directory. -/
def follow (fs : FileSystem) (key : List String) : List String → Except SystemFault (List String)
  | [] => .ok key
  | part :: rest =>
    if 255 < part.utf8ByteSize then .error .nameTooLong
    else match fs.entry? key with
      | none => .error .notFound
      | some (.file _) => .error .notDirectory
      | some .directory => follow fs (descend key part) rest

/-- No file has such a path, whatever files there are. -/
def checkPath (path : String) : Except SystemFault Unit :=
  if path.toList.contains '\x00' then .error .nulInName
  else if Path.maxLength < path.utf8ByteSize then .error .nameTooLong
  else .ok ()

def resolve (fs : FileSystem) (path : String) : Except SystemFault (List String) :=
  if path.isEmpty then .error .notFound
  else
    match checkPath path with
    | .error e => .error e
    | .ok () => fs.follow (origin path) (Path.parts path)

/-- The file number that `path` names. -/
def find (fs : FileSystem) (path : String) : Except SystemFault Nat :=
  match fs.resolve path with
  | .error e => .error e
  | .ok key =>
    match fs.entry? key with
    | none => .error .notFound
    | some .directory => .error .isDirectory
    | some (.file number) =>
      if Path.namesDirectory path then .error .notDirectory else .ok number

def isDirectory (fs : FileSystem) (path : String) : Bool :=
  match fs.resolve path with
  | .ok key => fs.entry? key == some .directory
  | .error _ => false

/-- Whether `path` names a file or a directory. -/
def exists? (fs : FileSystem) (path : String) : Bool :=
  fs.isDirectory path || (fs.find path).isOk

/-- The bytes of the file at `path`. -/
def read (fs : FileSystem) (path : String) : Except SystemFault Bytes :=
  (fs.find path).map fs.content

def read? (fs : FileSystem) (path : String) : Option Bytes := (fs.read path).toOption

/-- The file at `path`, created empty if there is none. -/
def touch (fs : FileSystem) (path : String) : Except SystemFault Nat × FileSystem :=
  match fs.resolve path with
  | .error e => (.error e, fs)
  | .ok key =>
    match fs.entry? key with
    | some .directory => (.error .isDirectory, fs)
    | some (.file number) =>
      if Path.namesDirectory path then (.error .notDirectory, fs) else (.ok number, fs)
    | none =>
      if Path.namesDirectory path then (.error .isDirectory, fs)
      else
        let number := fs.contents.length
        (.ok number, { fs.setEntry key (.file number) with contents := fs.contents ++ [[]] })

/-- Replace the content of the file at `path`, creating it if needed. -/
def write (fs : FileSystem) (path : String) (bytes : Bytes) :
    Except SystemFault Unit × FileSystem :=
  match fs.touch path with
  | (.error e, fs) => (.error e, fs)
  | (.ok number, fs) => (.ok (), fs.setContent number bytes)

/-- Create the directories along the parts of a path. -/
def makeAlong (fs : FileSystem) (key : List String) :
    List String → Except SystemFault Unit × FileSystem
  | [] => (.ok (), fs)
  | part :: rest =>
    let next := descend key part
    if 255 < part.utf8ByteSize then (.error .nameTooLong, fs)
    else match fs.entry? next with
      | some (.file _) => (.error .alreadyExists, fs)
      | some .directory => makeAlong fs next rest
      | none => makeAlong (fs.setEntry next .directory) next rest

/-- Create the directory `path` and those above it; the empty path names the working directory. -/
def makeDirectories (fs : FileSystem) (path : String) : Except SystemFault Unit × FileSystem :=
  match checkPath path with
  | .error e => (.error e, fs)
  | .ok () => fs.makeAlong (origin path) (Path.parts path)

/-- Create the directory that `path` lies in, where the path tells one. -/
def makeParent (fs : FileSystem) (path : String) : Except SystemFault Unit × FileSystem :=
  match Path.parent? path with
  | none => (.ok (), fs)
  | some directory => fs.makeDirectories directory

/-- Whether a file was removed. -/
def remove (fs : FileSystem) (path : String) : Bool × FileSystem :=
  match fs.find path, fs.resolve path with
  | .ok _, .ok key => (true, fs.dropEntry key)
  | _, _ => (false, fs)

/-- Give the file at `source` the name `target`, replacing a file that has it. -/
def rename (fs : FileSystem) (source target : String) : Except SystemFault Unit × FileSystem :=
  match fs.find source, fs.resolve source, fs.resolve target with
  | .ok number, .ok sourceKey, .ok targetKey =>
    if fs.entry? targetKey == some .directory then (.error .isDirectory, fs)
    else if Path.namesDirectory target then (.error .notDirectory, fs)
    else (.ok (), (fs.dropEntry sourceKey).setEntry targetKey (.file number))
  | .error e, _, _ | _, .error e, _ | _, _, .error e => (.error e, fs)

/-- The names of all files below the working directory, in order. -/
def list (fs : FileSystem) : List String :=
  let names := fs.entries.filterMap fun
    | (key, .file _) =>
      if key.head? == some ".." || key.head? == some "/" then none else some ("/".intercalate key)
    | (_, .directory) => none
  names.mergeSort fun a b => decide (a ≤ b)

end FileSystem

end PartitionLog
