import PartitionLog.Config

/-!
# The stored form of a configuration

A configuration is stored as a tree of named fields. `LogConfig.ofForm?` reads one: every field but
the data directory has to be there, each with a value of its type, and fields of other names do not
matter. A list of all the values in the order of the fields stands for the whole tree as well.
-/

namespace PartitionLog

/-- A number as it is written: `±digits * 10 ^ exponent`. -/
structure Numeral where
  negative : Bool
  digits : Nat
  exponent : Int
  /-- Written without point and exponent. -/
  isInteger : Bool
  deriving DecidableEq, Repr

namespace Numeral

/-- The integer written, if it is one of those that 64 bits hold. -/
def toInt? (n : Numeral) : Option Int :=
  if !n.isInteger then none
  else if n.negative then
    if n.digits = 0 ∨ UInt64.size / 2 < n.digits then none else some (-n.digits)
  else if n.digits < UInt64.size then some n.digits else none

/-- The nearest number of double precision; beyond these exponents it is zero or infinite. -/
def toFloat (n : Numeral) : Float :=
  let magnitude : Float :=
    if n.digits = 0 ∨ n.exponent < -5000 then 0
    else if 400 < n.exponent then 1 / 0
    else Float.ofScientific n.digits (decide (n.exponent < 0)) n.exponent.natAbs
  if n.negative then -magnitude else magnitude

/-- The nearest number of single precision, over double precision unless an integer is written. -/
def toFloat32 (n : Numeral) : Float32 :=
  match n.toInt? with
  | some (.ofNat k) => (UInt64.ofNat k).toFloat32
  | some (.negSucc k) => -(UInt64.ofNat (k + 1)).toFloat32
  | none => n.toFloat.toFloat32

end Numeral

inductive Form where
  | null
  | flag (value : Bool)
  | number (value : Numeral)
  | text (value : String)
  | list (items : List Form)
  | fields (items : List (String × Form))

namespace Form

def text? : Form → Option String
  | text value => some value
  | _ => none

def flag? : Form → Option Bool
  | flag value => some value
  | _ => none

/-- A count below `bound`. -/
def count? (bound : Nat) : Form → Option Nat
  | number value =>
    match value.toInt? with
    | some (.ofNat n) => if n < bound then some n else none
    | _ => none
  | _ => none

def size? : Form → Option Nat := count? UInt64.size

def single? : Form → Option Float32
  | number value => some value.toFloat32
  | _ => none

/-- The text, or nothing where it is null. -/
def optionalText? : Form → Option (Option String)
  | null => some none
  | text value => some (some value)
  | _ => none

end Form

namespace SyncStrategy

/-- The name of a strategy without data, or one field with its data. -/
def ofForm? : Form → Option SyncStrategy
  | .text "EveryBlock" => some .everyBlock
  | .fields [("EveryBlock", .null)] => some .everyBlock
  | .fields [("EveryNBlocks", .fields data)] =>
    (data.lookup "count").bind fun count => count.size?.map .everyBlocks
  | _ => none

end SyncStrategy

namespace LogConfig

/-- The fields in the order in which a list gives their values. -/
def fieldNames : List String :=
  ["log_name", "partition_id", "data_dir", "write_buffer_size", "close_grace_period_ms",
   "max_append_block_size", "sync_strategy", "appender_disabled", "index_block_size", "deviation",
   "read_block_size"]

def ofFields? (field : String → Option Form) : Option LogConfig := do
  return {
    logName := ← (← field "log_name").text?
    partition := ← (← field "partition_id").count? UInt32.size
    dataDir := ← ((field "data_dir").getD .null).optionalText?
    writeBufferSize := ← (← field "write_buffer_size").size?
    closeGrace := ← (← field "close_grace_period_ms").size?
    maxAppendBlock := ← (← field "max_append_block_size").size?
    sync := ← SyncStrategy.ofForm? (← field "sync_strategy")
    appenderDisabled := ← (← field "appender_disabled").flag?
    indexBlockSize := ← (← field "index_block_size").size?
    deviation := ← (← field "deviation").single?
    readBlockSize := ← (← field "read_block_size").size? }

def ofForm? : Form → Option LogConfig
  | .fields items => ofFields? fun name => items.lookup name
  | .list values =>
    if values.length = fieldNames.length then
      ofFields? fun name => (fieldNames.zip values).lookup name
    else none
  | _ => none

end LogConfig

end PartitionLog
