import PartitionLog.Bytes.Text
import PartitionLog.CommandLine.Request
import PartitionLog.CommandLine.Usage
import PartitionLog.Stream

/-!
# The command line tool

The tool appends records to a log file, prints the records of one, or truncates one. A task works on
a log stream over the file and prints as it goes on; what it printed stays printed when it fails,
and the stream is closed in any case. `runTool` takes arguments and files, and answers with a
`Report`.
-/

namespace PartitionLog

/-! ## Records for the tool -/

namespace LogStream

/-- Write a record, and let the appender drain it. -/
def write (payload : Bytes) : Attempt LogStream Unit := do
  tryWrite payload
  .modify (·.withAppender Appender.wake)

/-- The records from `start` on, or all, and why there are no more. -/
def recordsFrom (start : Option Int) : Attempt LogStream (List Record × Option LogError) := fun s =>
  let rs := s.reading s.newReader
  let (placed, rs) : Except LogError Bool × Reading := match start with
    | none => (.ok false, rs)
    | some position => (Reading.seek s.index position).run rs
  match placed with
  | .error e => (.error e, s.withStorage rs.storage)
  | .ok _ => (.ok rs.collect.1, s.withStorage rs.collect.2.storage)

end LogStream

namespace CommandLine

/-- Why the tool did not do what it was asked for. -/
inductive Failure where
  | misuse (misuse : Misuse)
  | log (error : LogError)
  deriving DecidableEq, Repr

def Failure.message : Failure → String
  | misuse m => m.message
  | log e => e.message

structure Report where
  printed : String := ""
  failure : Option Failure := none
  deriving DecidableEq, Repr

def Report.exitCode (r : Report) : Nat :=
  match r.failure with
  | none => 0
  | some (.log _) => 1
  | some (.misuse _) => 2

/-! ## Tasks -/

/-- A stream at work, and what was printed so far. -/
structure Console where
  stream : LogStream
  printed : String := ""

def onStream {α : Type} (x : Attempt LogStream α) : Attempt Console α :=
  x.within (·.stream) fun s c => { c with stream := s }

def say (line : String) : Attempt Console Unit :=
  .modify fun c => { c with printed := c.printed ++ line ++ "\n" }

def append (payloads : List Bytes) : Attempt Console Unit := do
  let first := (← .get).stream.appender.nextPosition
  let next := first + payloads.flatten.length
  payloads.forM fun payload => onStream (LogStream.write payload)
  onStream LogStream.closeStream
  say s!"appended {payloads.length} records at positions [{first}, {next})"

def row (position address length payload : String) : String :=
  "  ".intercalate
    [Columns.toRight 12 position, Columns.toRight 12 address, Columns.toRight 8 length, payload]

def recordRow (preview : Nat) (r : Record) : String :=
  row (toString r.position) (toString r.address) (toString r.payload.length)
    (Bytes.shown (r.payload.take preview))

def dump (start : Option Int) (preview : Nat) : Attempt Console Unit := do
  let (records, stop) ← onStream (LogStream.recordsFrom start)
  say (row "position" "address" "length" "payload")
  records.forM fun r => say (recordRow preview r)
  match stop with
  | some e => .fail e
  | none =>
    say s!"{records.length} records"
    onStream LogStream.closeStream

def truncate (position : Int) (commit : Option Int) : Attempt Console Unit := do
  onStream (.modify fun s => (commit.map (s.raiseCommit ·)).getD s)
  let outcome ← (onStream (LogStream.truncate position)).outcome
  onStream LogStream.closeStream
  Attempt.ofExcept outcome
  say s!"truncated from position {position}"

/-- The buffer is drained after each record, so no append waits for space and the time limit for
that is not needed. -/
def Order.perform : Order → Attempt Console Unit
  | append payloads _ => CommandLine.append (payloads.map Bytes.ofText)
  | dump start preview => CommandLine.dump start preview
  | truncate position commit => CommandLine.truncate position commit

/-! ## Invocations -/

def Order.writes : Order → Bool
  | append _ _ => true
  | dump _ _ | truncate _ _ => false

/-- The directory of the log file, where the index snapshot lies too, unless the path tells none. -/
def Invocation.directory? (i : Invocation) : Option String :=
  (Path.parent? i.file).filter (!·.isEmpty)

def Invocation.config (i : Invocation) (name : String) : LogConfig where
  logName := name
  partition := i.partition
  dataDir := i.directory?
  appenderDisabled := !i.order.writes

/-- The stream over the log file, still closed. -/
def Invocation.stream (i : Invocation) (name : String) :
    Attempt FileSystem LogStream := do
  match i.directory? with
  | none => pure ()
  | some directory => fun files =>
    (files.makeDirectories directory).map (·.mapError (.io ∘ .system)) id
  .ofExcept (LogStream.create (i.config name) { medium := .file i.file none, files := ← .get })

/-- Open the stream over the log file for a task, and close it after the task. -/
def Invocation.runTask (i : Invocation) (task : Attempt Console Unit) (files : FileSystem) :
    Report × FileSystem :=
  match Path.fileStem? i.file with
  | none => ({ failure := some (.log (.config (.invalidFile i.file))) }, files)
  | some name =>
    match i.stream name files with
    | (.error e, files) => ({ failure := some (.log e) }, files)
    | (.ok stream, _) =>
      let work : Attempt Console Unit := do
        onStream LogStream.openStream
        task
      let (outcome, console) := work.run { stream := stream }
      let failure := match outcome with
        | .ok () => none
        | .error e => some (.log e)
      (⟨console.printed, failure⟩, console.stream.closeStream.2.storage.files)

def Invocation.run (i : Invocation) (files : FileSystem) : Report × FileSystem :=
  i.runTask i.order.perform files

/-- The files that an invocation may read, write or remove. -/
def Invocation.files (i : Invocation) : List String :=
  match (Path.fileStem? i.file).bind fun name => (i.config name).snapshotPath with
  | none => [i.file]
  | some snapshot => [i.file, snapshot, BlockIndex.Snapshot.draftPath snapshot]

def runTool (arguments : List String) (files : FileSystem) : Report × FileSystem :=
  match Request.read arguments with
  | .error m => ({ failure := some (.misuse m) }, files)
  | .ok .version => ({ printed := versionText }, files)
  | .ok (.help scope) => ({ printed := usageText scope }, files)
  | .ok (.run invocation) => invocation.run files

end CommandLine

end PartitionLog
