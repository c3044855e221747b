import PartitionLog.Config
import PartitionLog.Quoted

/-!
# Log streams

A log stream puts the pieces of one partition's log together: storage, index, write buffer and
appender. `LogStream.perform` carries out one lifecycle command; the handlers are made of the parts
that a lifecycle can be interrupted between, `openStorage` and `startUp` for opening,
`settleClaims`, `windDown` and `closeStorage` for closing.
-/

namespace PartitionLog

inductive Command where
  | openUp
  | close
  | startAppender
  | stopAppender
  | truncate (position : Int)
  deriving DecidableEq, Repr

structure LogStream where
  config : LogConfig
  appender : Appender
  state : StreamState := .closed
  /-- Records up to this position are never removed. -/
  commit : Int := -1
  term : Nat := 0

namespace LogStream

/-- A closed stream over a storage. -/
def create (config : LogConfig) (storage : Storage) : Except LogError LogStream := do
  config.validate
  let buffer ← WriteBuffer.create config.writeBufferSize config.maxFragment
  return {
    config := config
    appender := {
      log := {
        storage := storage
        sampling := {
          threshold := max 1 config.samplingThreshold
          windowSize := config.readBlockSize
          snapshotPath := config.snapshotPath } }
      buffer := buffer
      maxBlock := config.maxAppendBlock
      sync := config.sync } }

def name (s : LogStream) : String := s.config.logName

/-- The stream in a line. -/
def description (s : LogStream) : String :=
  String.join ["LogStream \x7b name: ", Quoted.text s.name, ", partition_id: ",
    toString s.config.partition, ", state: ", s.state.name, " \x7d"]

def storage (s : LogStream) : Storage := s.appender.log.storage

def index (s : LogStream) : BlockIndex := s.appender.log.index

def buffer (s : LogStream) : WriteBuffer := s.appender.buffer

def withAppender (s : LogStream) (f : Appender → Appender) : LogStream :=
  { s with appender := f s.appender }

def withBuffer (s : LogStream) (f : WriteBuffer → WriteBuffer) : LogStream :=
  s.withAppender fun a => { a with buffer := f a.buffer }

def withStorage (s : LogStream) (storage : Storage) : LogStream :=
  s.withAppender fun a => { a with log := { a.log with storage := storage } }

def withIndex (s : LogStream) (index : BlockIndex) : LogStream :=
  s.withAppender fun a => { a with log := { a.log with index := index } }

def onAppender {α : Type} (x : Attempt Appender α) : Attempt LogStream α :=
  x.within (·.appender) fun a s => { s with appender := a }

def onStorage {α : Type} (x : Attempt Storage α) : Attempt LogStream α :=
  onAppender (Appender.onStorage x)

def ensureOpen (request : StreamRequest) (s : LogStream) : Except LogError Unit :=
  if s.state = .opened then .ok () else .error (.invalidState (.notOpen request s.name s.state))

/-! ## Opening -/

/-- Open the storage, unless it is open. -/
def openStorage : Attempt LogStream Unit := fun s =>
  if s.storage.isOpen then (.ok (), s) else (onStorage Storage.openUp).run s

/-- With the storage open: recover the log, take claims, start the appender. -/
def startUp : Attempt LogStream Unit := do
  onAppender Appender.discardStale
  let recovered ← onAppender (Appender.onLog (IndexedLog.recover (← .get).commit))
  onAppender (Appender.moveTo recovered.nextPosition)
  .modify fun s => (s.withAppender Appender.resetFailure).withBuffer WriteBuffer.reopen
  if !(← .get).config.appenderDisabled then onAppender Appender.start

/-- Close the storage. -/
def closeStorage (s : LogStream) : Except LogError Unit × LogStream :=
  match (onStorage Storage.close).run s with
  | (outcome, s) => (outcome, { s with state := .closed })

/-- Open the stream; if that fails it is closed again. -/
def openStream : Attempt LogStream Unit := fun s =>
  if s.state = .opened then (.ok (), s)
  else
    match (do openStorage; startUp : Attempt LogStream Unit).run { s with state := .opening } with
    | (.ok (), s) => (.ok (), { s with state := .opened })
    | (.error e, s) => (.error e, (s.withAppender Appender.stop).closeStorage.2)

/-! ## Closing -/

/-- The first failure of two steps that are both taken. -/
def both (first second : Except LogError Unit) : Except LogError Unit :=
  match first with
  | .ok () => second
  | .error e => .error e

/-- With no claim waited for any more: stop the appender. -/
def settleClaims (s : LogStream) : Except LogError Unit × LogStream :=
  (s.buffer.waited s.config.graceSpan, s.withAppender Appender.stop)

/-- Stop the appender and save the index. -/
def windDown (s : LogStream) : Except LogError Unit × LogStream :=
  let (settled, s) := s.settleClaims
  let (saved, s) := (onAppender (Appender.onLog IndexedLog.persist)).run s
  (both settled saved, s)

/-- Close everything, whatever fails on the way. -/
def closeStream (s : LogStream) : Except LogError Unit × LogStream :=
  if s.state = .closed then (.ok (), s)
  else
    let (woundDown, s) := ({ s with state := .closing }.withBuffer WriteBuffer.shut).windDown
    let (closed, s) := s.closeStorage
    (both woundDown closed, s)

/-! ## The appender -/

def startAppender : Attempt LogStream Unit := fun s =>
  match s.ensureOpen .openAppender with
  | .error e => (.error e, s)
  | .ok () => (onAppender Appender.start).run (s.withBuffer WriteBuffer.reopen)

/-- Stop the appender; records are no longer taken. -/
def stopAppender (s : LogStream) : Except LogError Unit × LogStream :=
  (s.withBuffer WriteBuffer.shut).settleClaims

/-! ## Truncating -/

/-- Whether the stream can be truncated at `position` at all. -/
def allowTruncate (position : Int) (s : LogStream) : Except LogError Unit :=
  if s.appender.isRunning then .error (.invalidState .truncateWhileAppending)
  else
    match s.ensureOpen .truncate with
    | .error e => .error e
    | .ok () =>
      if position ≤ s.commit then .error (.committedPosition position s.commit)
      else if !s.buffer.isEmpty then .error (.invalidState .truncateWhileBuffered)
      else .ok ()

/-- A reader of the stream. -/
def newReader (s : LogStream) : Reader := .ofWindow s.config.readBlockSize

def reading (s : LogStream) (reader : Reader) : Reading := ⟨reader, s.storage⟩

/-- The address of the record at `position`. -/
def addressOf (position : Int) : Attempt LogStream Nat := fun s =>
  match (Reading.findAddress s.index position).run (s.reading s.newReader) with
  | (.error e, rs) => (.error e, s.withStorage rs.storage)
  | (.ok none, rs) => (.error (.positionNotFound position), s.withStorage rs.storage)
  | (.ok (some address), rs) => (.ok address, s.withStorage rs.storage)

/-- Delete the record at `position` and everything after it. -/
def truncate (position : Int) : Attempt LogStream Unit := do
  Attempt.ofExcept ((← .get).allowTruncate position)
  let address ← addressOf position
  onStorage (Storage.truncate address)
  .modify fun s => s.withAppender fun a => { a with log := a.log.forget position address }
  onAppender (Appender.moveTo position)

/-! ## Commands and writes -/

def perform : Command → Attempt LogStream Unit
  | .openUp => openStream
  | .close => closeStream
  | .startAppender => startAppender
  | .stopAppender => stopAppender
  | .truncate position => truncate position

/-- Put a record into the write buffer. -/
def tryWrite (payload : Bytes) : Attempt LogStream Unit := fun s =>
  match s.ensureOpen .write with
  | .error e => (.error e, s)
  | .ok () =>
    match (WriteBuffer.put payload).run s.buffer with
    | (.ok _, buffer) => (.ok (), s.withBuffer fun _ => buffer)
    | (.error e, buffer) => (.error e, s.withBuffer fun _ => buffer)

/-- Put a record into the write buffer, waiting for space as long as others take these turns. -/
def writeWaiting (turns : List (LogStream → LogStream)) (payload : Bytes) : Attempt LogStream Unit :=
  fun s =>
    match s.ensureOpen .write with
    | .error e => (.error e, s)
    | .ok () =>
      match (WriteBuffer.claimWaiting buffer (fun b s => s.withBuffer fun _ => b) payload.length
        turns).run s with
      | (.error e, s) => (.error e, s)
      | (.ok claim, s) => (.ok (), s.withBuffer (·.commit { claim with payload := payload }))

/-- Without a turn to wait for, that is to try once. -/
theorem writeWaiting_nil (payload : Bytes) : writeWaiting [] payload = tryWrite payload := by
  funext s
  unfold writeWaiting tryWrite WriteBuffer.claimWaiting WriteBuffer.put Attempt.within Attempt.run
  cases s.ensureOpen .write with
  | error e => rfl
  | ok =>
    dsimp only
    generalize WriteBuffer.tryClaim payload.length s.buffer = claimed
    obtain ⟨answer, b⟩ := claimed
    cases answer with
    | error e => rfl
    | ok claim => rfl

/-- Raise the commit position; a lower one is ignored. -/
def raiseCommit (position : Int) (s : LogStream) : LogStream :=
  { s with commit := max s.commit position }

end LogStream

end PartitionLog
