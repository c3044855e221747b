/-!
# Tasks and flags

The command line names a task and sets flags. Each scope, the tool itself or one of its tasks, has
its own list of flags; `--file` and `--partition` can be set in both.
-/

namespace PartitionLog.CommandLine

inductive Task where
  | append
  | dump
  | truncate
  deriving DecidableEq, Repr

def Task.name : Task → String
  | append => "append"
  | dump => "dump"
  | truncate => "truncate"

def Task.all : List Task := [.append, .dump, .truncate]

def Task.ofName? (name : String) : Option Task := Task.all.find? (·.name == name)

def Task.summary : Task → String
  | append => "Append one record per payload"
  | dump => "Print the records of the log"
  | truncate => "Delete the record at a position and everything after it"

/-- The part of the command line that an argument belongs to. -/
inductive Scope where
  | tool
  | task (task : Task)
  /-- Asking for help on a scope by its name. -/
  | guide
  deriving DecidableEq, Repr

def Scope.ofName? (name : String) : Option Scope :=
  if name == "help" then some .guide else (Task.ofName? name).map .task

inductive Flag where
  | file
  | partition
  | timeout
  | start
  | preview
  | commit
  | help
  | version
  deriving DecidableEq, Repr

namespace Flag

def long : Flag → String
  | file => "file"
  | partition => "partition"
  | timeout => "timeout-ms"
  | start => "from"
  | preview => "preview"
  | commit => "commit-position"
  | help => "help"
  | version => "version"

def short? : Flag → Option Char
  | file => some 'f'
  | partition => some 'p'
  | help => some 'h'
  | version => some 'V'
  | _ => none

/-- What stands for the value in a usage text; `none` for a flag without a value. -/
def valueName? : Flag → Option String
  | file => some "FILE"
  | partition => some "PARTITION"
  | timeout => some "TIMEOUT_MS"
  | start => some "FROM"
  | preview => some "PREVIEW"
  | commit => some "COMMIT_POSITION"
  | help | version => none

def summary : Flag → String
  | file => "Log file [default: ./partition-1.log]"
  | partition => "Partition id recorded in the log config [default: 1]"
  | timeout => "How long to wait for write buffer space (ms) [default: 1000]"
  | start => "Start at the first record at or after this position"
  | preview => "Bytes of payload to show per record [default: 32]"
  | commit => "Commit position; committed records are never truncated"
  | help => "Print help"
  | version => "Print version"

end Flag

/-- The flags of a scope, in the order of its usage text. -/
def Scope.flags : Scope → List Flag
  | tool => [.file, .partition, .help, .version]
  | task .append => [.file, .timeout, .partition, .help]
  | task .dump => [.file, .start, .partition, .preview, .help]
  | task .truncate => [.commit, .file, .partition, .help]
  | guide => []

end PartitionLog.CommandLine
