import PartitionLog.Appender
import PartitionLog.Decimal

/-!
# Configuration of a log stream

The settings of a log stream, the rules they have to keep (`LogConfig.validate`), and the sizes that
follow from them: a record has to fit into the write buffer and into one block, and the index gets
an entry per index block, less the allowed deviation.
-/

namespace PartitionLog

structure LogConfig where
  logName : String := "log"
  partition : Nat := 0
  /-- Where the index snapshot goes; without it there is none. -/
  dataDir : Option String := none
  writeBufferSize : Nat := 16 * 1024 * 1024
  /-- Milliseconds that a close waits for claims. -/
  closeGrace : Nat := 5000
  maxAppendBlock : Nat := 4 * 1024 * 1024
  sync : SyncStrategy := .everyBlock
  appenderDisabled : Bool := false
  indexBlockSize : Nat := 4 * 1024 * 1024
  /-- How far an index block may stay below its size, in (0, 1]. -/
  deviation : Float32 := 0.1
  readBlockSize : Nat := 1024

namespace LogConfig

/-- The longest payload of a record. -/
def maxFragment (c : LogConfig) : Nat :=
  min c.writeBufferSize c.maxAppendBlock - Frame.headerLength

/-- Bytes between two index entries, at least one. -/
def samplingThreshold (c : LogConfig) : Nat :=
  max 1 ((UInt64.ofNat c.indexBlockSize).toFloat * (1.0 - c.deviation.toFloat)).toUInt64.toNat

def snapshotPath (c : LogConfig) : Option String :=
  c.dataDir.map fun directory => Path.join directory (c.logName ++ ".idx")

/-- The grace period in nanoseconds. -/
def graceSpan (c : LogConfig) : Nat := c.closeGrace * 1000000

/-- Check the settings, in this order. -/
def validate (c : LogConfig) : Except LogError Unit :=
  if c.logName = "" then .error (.config .emptyName)
  else if c.writeBufferSize = 0 then .error (.config (.zero .writeBuffer))
  else if c.maxAppendBlock = 0 then .error (.config (.zero .appendBlock))
  else if c.indexBlockSize = 0 then .error (.config (.zero .indexBlock))
  else if c.readBlockSize = 0 then .error (.config (.zero .readBlock))
  else if !(decide (0 < c.deviation) && decide (c.deviation ≤ 1)) then
    .error (.config (.deviation (Decimal.text c.deviation)))
  else if c.sync = .everyBlocks 0 then .error (.config .zeroCount)
  else if c.maxFragment = 0 then .error (.config .noRoomForRecord)
  else .ok ()

end LogConfig

end PartitionLog
