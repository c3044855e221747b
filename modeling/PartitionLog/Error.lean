import PartitionLog.Elapsed
import PartitionLog.Role

/-!
# Errors

`LogError` lists the causes for which an operation of the log fails; `LogError.kind` groups them
and `LogError.message` words them. Texts that come from outside (an operating system, a caller's
processor) are carried along, everything else is a cause with its data.
-/

namespace PartitionLog

/-- Why a file cannot be used: an answer of the operating system, or a path that it cannot be asked
about. -/
inductive SystemFault where
  | nulInName
  | notFound
  | alreadyExists
  | notDirectory
  | isDirectory
  | nameTooLong
  deriving DecidableEq, Repr

def SystemFault.text : SystemFault → String
  | nulInName => "file name contained an unexpected NUL byte"
  | notFound => "No such file or directory (os error 2)"
  | alreadyExists => "File exists (os error 17)"
  | notDirectory => "Not a directory (os error 20)"
  | isDirectory => "Is a directory (os error 21)"
  | nameTooLong => "File name too long (os error 36)"

inductive IoKind where
  | notFound
  | permissionDenied
  | unexpectedEof
  | other
  deriving DecidableEq, Repr

def IoKind.text : IoKind → String
  | notFound => "entity not found"
  | permissionDenied => "permission denied"
  | unexpectedEof => "unexpected end of file"
  | other => "other error"

inductive IoFault where
  | system (fault : SystemFault)
  | bare (kind : IoKind)
  | described (kind : IoKind) (text : String)
  deriving DecidableEq, Repr

namespace IoFault

/-- The fault that a storage reports when it is told to fail. -/
def unavailable : IoFault := described .other "disk unavailable"

/-- A file ended before the bytes that it was known to hold. -/
def shortFile : IoFault := described .unexpectedEof "failed to fill whole buffer"

def text : IoFault → String
  | system fault => fault.text
  | bare kind => kind.text
  | described _ text => text

end IoFault

/-- What is asked of a log stream only while it is open. -/
inductive StreamRequest where
  | write
  | openAppender
  | truncate
  deriving DecidableEq, Repr

def StreamRequest.text : StreamRequest → String
  | write => "write to"
  | openAppender => "open the appender"
  | truncate => "truncate"

inductive StateFault where
  | bufferClosed
  | memoryClosed
  | fileClosed (path : String)
  | moveWhileAppending
  | truncateWhileAppending
  | truncateWhileBuffered
  | opening (log : String)
  | notOpen (request : StreamRequest) (log : String) (state : StreamState)
  | noStream (partition : Nat)
  | described (text : String)
  deriving DecidableEq, Repr

def StateFault.text : StateFault → String
  | bufferClosed => "write buffer is closed"
  | memoryClosed => "memory log storage is not open"
  | fileClosed path => s!"log storage {path} is not open"
  | moveWhileAppending => "cannot move the append position while the appender is open"
  | truncateWhileAppending => "cannot truncate while the appender is open"
  | truncateWhileBuffered => "cannot truncate while records are buffered"
  | opening log => s!"log stream {log} is opening"
  | notOpen request log state => s!"cannot {request.text} log stream {log} in state {state.name}"
  | noStream partition => s!"partition {partition} has no log stream to open"
  | described text => text

inductive ArgumentFault where
  | emptyRecord
  | recordTooLong (length limit : Nat)
  | entryOutOfOrder (position : Int) (address : Nat) (lastPosition : Int) (lastAddress : Nat)
  | pastEnd (address endAddress : Nat)
  | described (text : String)
  deriving DecidableEq, Repr

def ArgumentFault.text : ArgumentFault → String
  | emptyRecord => "cannot claim an empty record"
  | recordTooLong length limit =>
    s!"record of {length} bytes exceeds max fragment length {limit}"
  | entryOutOfOrder position address lastPosition lastAddress =>
    s!"index entry ({position}, {address}) does not follow last entry ({lastPosition}, {lastAddress})"
  | pastEnd address endAddress =>
    s!"truncate address {address} is past the end of the log ({endAddress})"
  | described text => text

/-- What is wrong with stored bytes. -/
inductive Damage where
  | partialHeader (found : Nat)
  | partialPayload (expected found : Nat)
  | checksum (position : Int)
  | outOfSequence (position expected : Int)
  | committed (damage : Damage) (position commit : Int)
  | described (text : String)
  deriving DecidableEq, Repr

def Damage.text : Damage → String
  | partialHeader found => s!"partial frame header ({found} bytes)"
  | partialPayload expected found =>
    s!"partial frame: expected {expected} payload bytes, found {found}"
  | checksum position => s!"checksum mismatch for position {position}"
  | outOfSequence position expected =>
    s!"record position {position} does not follow position {expected}"
  | committed damage position commit =>
    s!"{damage.text}; position {position} is committed (commit position {commit})"
  | described text => text

/-- A size of the configuration that must not be zero. -/
inductive SizeSetting where
  | writeBuffer
  | appendBlock
  | indexBlock
  | readBlock
  deriving DecidableEq, Repr

def SizeSetting.name : SizeSetting → String
  | writeBuffer => "write_buffer_size"
  | appendBlock => "max_append_block_size"
  | indexBlock => "index_block_size"
  | readBlock => "read_block_size"

inductive ConfigFault where
  | emptyName
  | zero (size : SizeSetting)
  | deviation (text : String)
  | zeroCount
  | noRoomForRecord
  | fragmentMisfit (limit capacity : Nat)
  | invalidFile (path : String)
  | described (text : String)
  deriving DecidableEq, Repr

def ConfigFault.text : ConfigFault → String
  | emptyName => "log_name must not be empty"
  | zero size => s!"{size.name} must be > 0"
  | deviation text => s!"deviation must be in (0, 1], got {text}"
  | zeroCount => "EveryNBlocks sync strategy needs count > 0"
  | noRoomForRecord => "buffer/block size too small to hold a single record (header is 16 bytes)"
  | fragmentMisfit limit capacity =>
    s!"max fragment length {limit} does not fit a write buffer of {capacity} bytes"
  | invalidFile path => s!"invalid log file {path}"
  | described text => text

inductive ErrorKind where
  | io
  | backpressure
  | cancelled
  | invalidState
  | invalidArgument
  | committedPositionViolation
  | positionNotFound
  | storageFault
  | corruption
  | serialization
  | config
  | transitionInProgress
  | transitionFailed
  | processor
  deriving DecidableEq, Repr

inductive LogError where
  | io (fault : IoFault)
  | backpressure (requested available : Nat)
  | claimsOutstanding (count grace : Nat)
  | cancelled (text : String)
  | invalidState (fault : StateFault)
  | invalidArgument (fault : ArgumentFault)
  | committedPosition (position commit : Int)
  | positionNotFound (position : Int)
  | appendFailed (length : Nat) (cause : LogError)
  | flushFailed (cause : LogError)
  | rollbackFailed (flush : LogError) (address : Nat) (rollback : LogError)
  | finalFlushFailed (cause : LogError)
  | storageFault (text : String)
  | corruption (address : Nat) (damage : Damage)
  | shortSnapshot
  | serialization (text : String)
  | config (fault : ConfigFault)
  | transitionInProgress (partition : Nat) (requested : String)
  | installFailed (partition : Nat) (role : Role) (term : Nat) (cause : LogError)
  | transitionFailed (partition : Nat) (reason : String)
  | processor (text : String)
  deriving DecidableEq, Repr

namespace LogError

def kind : LogError → ErrorKind
  | io _ => .io
  | backpressure _ _ => .backpressure
  | claimsOutstanding _ _ | cancelled _ => .cancelled
  | invalidState _ => .invalidState
  | invalidArgument _ => .invalidArgument
  | committedPosition _ _ => .committedPositionViolation
  | positionNotFound _ => .positionNotFound
  | appendFailed _ _ | flushFailed _ | rollbackFailed _ _ _ | finalFlushFailed _
  | storageFault _ => .storageFault
  | corruption _ _ => .corruption
  | shortSnapshot | serialization _ => .serialization
  | config _ => .config
  | transitionInProgress _ _ => .transitionInProgress
  | installFailed _ _ _ _ | transitionFailed _ _ => .transitionFailed
  | processor _ => .processor

/-- A caller is expected to try again only when the write buffer was full. -/
def isRetryable (e : LogError) : Bool := e.kind = .backpressure

/-- Why a processor is missing, as the health monitor is told. -/
def installReason (role : Role) (term : Nat) (cause : String) : String :=
  s!"{cause} (role {role.text}, term {term})"

def message : LogError → String
  | io fault => s!"IO error: {fault.text}"
  | backpressure requested available =>
    s!"Write buffer backpressure: requested {requested} bytes, {available} bytes available"
  | claimsOutstanding count grace =>
    s!"Cancelled: {count} claims still outstanding after {Elapsed.text grace}"
  | cancelled text => s!"Cancelled: {text}"
  | invalidState fault => s!"Invalid state: {fault.text}"
  | invalidArgument fault => s!"Invalid argument: {fault.text}"
  | committedPosition position commit =>
    s!"Can't truncate position {position} which is already committed (commit position {commit})"
  | positionNotFound position => s!"Truncation failed! Position {position} was not found"
  | appendFailed length cause =>
    s!"Storage fault: append of {length} bytes failed: {cause.message}"
  | flushFailed cause => s!"Storage fault: flush failed: {cause.message}"
  | rollbackFailed flush address rollback =>
    s!"Storage fault: flush failed: {flush.message}; rollback of block at address {address} failed: {rollback.message}"
  | finalFlushFailed cause => s!"Storage fault: final flush failed: {cause.message}"
  | storageFault text => s!"Storage fault: {text}"
  | corruption address damage =>
    s!"Log corruption detected at address {address}: {damage.text}"
  | shortSnapshot => "Serialization error: io error: unexpected end of file"
  | serialization text => s!"Serialization error: {text}"
  | config fault => s!"Configuration error: {fault.text}"
  | transitionInProgress partition requested =>
    s!"Transition to {requested} on partition {partition} rejected: another transition is in progress"
  | installFailed partition role term cause =>
    s!"Failed to install stream processor on partition {partition}: {installReason role term cause.message}"
  | transitionFailed partition reason =>
    s!"Failed to install stream processor on partition {partition}: {reason}"
  | processor text => s!"Stream processor error: {text}"

/-- Whether the message shows words of the operating system, which come with their number. -/
def showsSystemText (e : LogError) : Bool := e.message.contains "(os error"

end LogError

end PartitionLog
