/-!
# Paths

Names of files, split at `/`. Empty parts and `.` name nothing, except for a leading `.`. A file
name has a stem and, after its last dot, an extension; a dot at the front starts no extension.
-/

namespace PartitionLog.Path

/-- The pieces between the separators. -/
def pieces : List Char → List (List Char)
  | [] => [[]]
  | c :: rest =>
    if c = '/' then [] :: pieces rest
    else
      match pieces rest with
      | [] => [[c]]
      | piece :: more => (c :: piece) :: more

def split (path : String) : List String := (pieces path.toList).map String.ofList

def isAbsolute (path : String) : Bool := path.toList.head? == some '/'

def endsInSeparator (path : String) : Bool := path.toList.getLast? == some '/'

/-- Whether the path can only name a directory. -/
def namesDirectory (path : String) : Bool :=
  match (split path).getLast? with
  | some "" => !path.isEmpty
  | some "." | some ".." => true
  | _ => false

/-- The parts that name something. -/
def parts (path : String) : List String :=
  (split path).filter fun part => part != "" && part != "."

/-- The parts, a leading `.` of a relative path included. -/
def components (path : String) : List String :=
  match split path with
  | "." :: _ => "." :: parts path
  | _ => parts path

def ofComponents (absolute : Bool) (components : List String) : String :=
  (if absolute then "/" else "") ++ "/".intercalate components

/-- The path without its last component; `none` if it has none. -/
def parent? (path : String) : Option String :=
  match components path with
  | [] => none
  | cs => some (ofComponents (isAbsolute path) cs.dropLast)

/-- The last component, if it is a name. -/
def fileName? (path : String) : Option String :=
  match (components path).getLast? with
  | some "." | some ".." | none => none
  | some name => some name

/-- The characters before and after the last dot. -/
def splitAtLastDot (name : List Char) : Option (List Char × List Char) :=
  let after := (name.reverse.takeWhile (· != '.')).reverse
  if after.length = name.length then none
  else some (name.take (name.length - after.length - 1), after)

def stem (name : String) : String :=
  match splitAtLastDot name.toList with
  | some (before, _) => if before.isEmpty then name else String.ofList before
  | none => name

def fileStem? (path : String) : Option String := (fileName? path).map stem

/-- `name` inside the directory `path`; an absolute `name` stands for itself. -/
def join (path name : String) : String :=
  if isAbsolute name then name
  else if path.isEmpty || endsInSeparator path then path ++ name
  else path ++ "/" ++ name

/-- The characters after the last dot of the file name, unless the dot is its first character. -/
def extension? (path : String) : Option String := do
  let (before, after) ← splitAtLastDot (← fileName? path).toList
  if before.isEmpty then none else some (String.ofList after)

/-- The path with `extension` after the stem of its file name; a path that names no file stays. -/
def setExtension (path extension : String) : String :=
  match fileStem? path with
  | none => path
  | some stem =>
    ofComponents (isAbsolute path) ((components path).dropLast ++ [stem ++ "." ++ extension])

/-- The path with the extension of its file name replaced. The old extension is cut off first, and
what is left may name no file any more: `..idx` becomes `..`, and stays so. -/
def withExtension (path extension : String) : String :=
  match extension? path with
  | none => setExtension path extension
  | some old =>
    setExtension (String.ofList (path.toList.take (path.length - old.length))) extension

/-- Most bytes of a path. -/
def maxLength : Nat := 4095

end PartitionLog.Path
