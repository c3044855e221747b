import PartitionLog.BlockIndex.Snapshot
import PartitionLog.Reader

/-!
# A storage and its block index

`recover` finds the end of a log and brings its index in line with it: load a snapshot into an empty
index, drop entries that do not fit the storage, scan from the last entry to the end while indexing
on the way, and cut off a torn last frame. `noteBlock`, `forget` and `persist` keep the index along
with appending, truncating and closing. `Sampling` decides which blocks get an entry: the first
one, and then whenever `threshold` bytes lie behind the last entry.
-/

namespace PartitionLog

structure Sampling where
  /-- Bytes between two entries. -/
  threshold : Nat
  /-- Window of the reader that recovers. -/
  windowSize : Nat
  snapshotPath : Option String := none
  isOpen : Bool := false
  /-- Bytes written since the last entry; `none` makes the next block get one. -/
  sinceEntry : Option Nat := none
  deriving DecidableEq, Repr

/-- Whether the next record or block gets an entry. -/
def needsEntry (threshold : Nat) : Option Nat → Bool
  | none => true
  | some bytes => decide (threshold ≤ bytes)

structure IndexedLog where
  storage : Storage
  index : BlockIndex := .empty
  sampling : Sampling

/-- What recovering a log found. -/
structure Recovered where
  nextPosition : Int := 0
  lastPosition : Option Int := none
  scanned : Nat := 0
  truncatedTail : Bool := false
  deriving DecidableEq, Repr

/-- Count a scanned record. -/
def Recovered.add (recovered : Recovered) (r : Record) : Recovered :=
  { recovered with
    nextPosition := r.nextPosition
    lastPosition := some r.position
    scanned := recovered.scanned + 1 }

/-- The state of a recovery scan. -/
structure Scan where
  reading : Reading
  index : BlockIndex
  sinceEntry : Option Nat := none
  recovered : Recovered := {}

namespace Scan

/-- A record that does not continue the positions before it. -/
def Breaks (recovered : Recovered) (r : Record) : Prop :=
  recovered.lastPosition.isSome ∧ r.position ≠ recovered.nextPosition

instance (recovered : Recovered) (r : Record) : Decidable (Breaks recovered r) := by
  unfold Breaks; infer_instance

/-- Index a scanned record, and count its bytes. -/
def sample (threshold : Nat) (index : BlockIndex) (sinceEntry : Option Nat) (r : Record) :
    Except LogError (BlockIndex × Option Nat) :=
  if index.last?.map (·.position) = some r.position then .ok (index, some r.frameLength)
  else if needsEntry threshold sinceEntry then
    (index.append r.position r.address).map (·, some r.frameLength)
  else .ok (index, sinceEntry.map (· + r.frameLength))

/-- Scan from `address` to the end of the log (`none`) or to a damaged frame. -/
def run (threshold : Nat) (address : Nat) (scan : Scan) :
    Except LogError (Option (Nat × Damage)) × Scan :=
  match _h : (Reading.readAt address).run scan.reading with
  | (.error (.corruption bad damage), reading) =>
    (.ok (some (bad, damage)), { scan with reading := reading })
  | (.error e, reading) => (.error e, { scan with reading := reading })
  | (.ok none, reading) => (.ok none, { scan with reading := reading })
  | (.ok (some r), reading) =>
    if Breaks scan.recovered r then
      (.error (.corruption r.address (.outOfSequence r.position scan.recovered.nextPosition)),
        { scan with reading := reading })
    else
      match sample threshold scan.index scan.sinceEntry r with
      | .error e => (.error e, { scan with reading := reading })
      | .ok (index, sinceEntry) =>
        run threshold r.nextAddress
          ⟨reading, index, sinceEntry, scan.recovered.add r⟩
termination_by scan.reading.limit - address
decreasing_by
  have := Reading.readAt_some _h
  omega

end Scan

namespace IndexedLog

/-- Take the snapshot for an empty index; one that cannot be read is ignored. -/
def loadSnapshot (log : IndexedLog) : IndexedLog :=
  if log.index.isEmpty then
    match log.sampling.snapshotPath with
    | none => log
    | some path =>
      match BlockIndex.Snapshot.read log.storage.files path with
      | .ok (some index) => { log with index := index }
      | _ => log
  else log

/-- Clear the index if its last entry does not lead to a record of its position. -/
def verifyLast (index : BlockIndex) (reading : Reading) : BlockIndex × Reading :=
  match index.last? with
  | none => (index, reading)
  | some entry =>
    match (Reading.readAt entry.address).run reading with
    | (.ok (some r), reading) =>
      (if r.position = entry.position then index else index.clear, reading)
    | (_, reading) => (index.clear, reading)

/-- Whether the frame at `address` is the last one and reaches or passes `endAddress`. -/
def isTornTail (address endAddress : Nat) : Attempt Storage Bool := do
  if endAddress - address < Frame.headerLength then return true
  let header ← Storage.read address Frame.headerLength
  if header.length < Frame.headerLength then return true
  return decide (endAddress ≤ address + Frame.lengthFor (Frame.lengthField header))

/-- Cut the log at a torn frame, unless a committed record belongs there. -/
def cutTail (bad : Nat) (damage : Damage) (endAddress : Nat) (nextPosition commit : Int) :
    Attempt Storage Unit := do
  if !(← isTornTail bad endAddress) then .fail (.corruption bad damage)
  else if nextPosition ≤ commit then
    .fail (.corruption bad (.committed damage nextPosition commit))
  else Storage.truncate bad

/-- Scan the tail and settle its end; `endAddress` is where the storage ended before. -/
def recoverTail (commit : Int) (endAddress : Nat) (reading : Reading) :
    Attempt IndexedLog Recovered := fun log =>
  let start := log.index.lastStart Storage.firstAddress
  let (outcome, scan) := Scan.run log.sampling.threshold start
    { reading := reading, index := log.index }
  let log := { log with storage := scan.reading.storage, index := scan.index }
  let opened : Sampling := { log.sampling with isOpen := true, sinceEntry := scan.sinceEntry }
  match outcome with
  | .error e => (.error e, log)
  | .ok none => (.ok scan.recovered, { log with sampling := opened })
  | .ok (some (bad, damage)) =>
    match (cutTail bad damage endAddress scan.recovered.nextPosition commit).run log.storage with
    | (.error e, storage) => (.error e, { log with storage := storage })
    | (.ok (), storage) =>
      (.ok { scan.recovered with truncatedTail := true },
        { storage := storage, index := log.index.truncateFrom bad, sampling := opened })

/-- Recover index and tail of an open storage. Damage inside the log, a break in the positions or a
torn frame at or below `commit` fails; storage faults fail; the log is cut in no such case. -/
def recover (commit : Int) : Attempt IndexedLog Recovered := fun log =>
  let log := log.loadSnapshot
  match Storage.endAddress?.run log.storage with
  | (.error e, storage) => (.error e, { log with storage := storage })
  | (.ok endAddress, storage) =>
    let (index, reading) := verifyLast (log.index.truncateFrom endAddress)
      ⟨.ofWindow log.sampling.windowSize, storage⟩
    (recoverTail commit endAddress reading).run
      { log with storage := reading.storage, index := index }

/-- A block whose first record is at `position` was written at `address`. -/
def noteBlock (position : Int) (address length : Nat) : Attempt IndexedLog Unit := fun log =>
  if needsEntry log.sampling.threshold log.sampling.sinceEntry then
    match log.index.append position address with
    | .error e => (.error e, log)
    | .ok index =>
      (.ok (), { log with
        index := index, sampling := { log.sampling with sinceEntry := some length } })
  else
    (.ok (), { log with sampling :=
      { log.sampling with sinceEntry := log.sampling.sinceEntry.map (· + length) } })

/-- Drop the entries for the record at `position`, stored at `address`, and all after it. -/
def forget (position : Int) (address : Nat) (log : IndexedLog) : IndexedLog :=
  { log with
    index := (log.index.truncateAfter (position - 1)).truncateFrom address
    sampling := { log.sampling with sinceEntry := none } }

/-- Save the index, creating the directory of the snapshot. -/
def saveSnapshot (index : BlockIndex) (path : String) : Attempt FileSystem Unit := fun files =>
  match files.makeParent path with
  | (.error e, files) => (.error (.io (.system e)), files)
  | (.ok (), files) => (BlockIndex.Snapshot.write index path).run files

/-- Save the snapshot of an open index, if there is to be one, and close it. -/
def persist : Attempt IndexedLog Unit := fun log =>
  if !log.sampling.isOpen then (.ok (), log)
  else
    let closed : Sampling := { log.sampling with isOpen := false }
    match log.sampling.snapshotPath with
    | none => (.ok (), { log with sampling := closed })
    | some path =>
      match (saveSnapshot log.index path).run log.storage.files with
      | (.error e, files) => (.error e, { log with storage := { log.storage with files := files } })
      | (.ok (), files) =>
        (.ok (), { log with storage := { log.storage with files := files }, sampling := closed })

end IndexedLog

end PartitionLog
