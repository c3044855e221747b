import PartitionLog.BlockIndex
import PartitionLog.FileSystem

/-!
# Index snapshots

The stored form of a block index: the number of entries, then position and address of each, every
number on eight bytes, least significant first. Reading ignores what follows the last entry and
refuses bytes that end before it.
-/

namespace PartitionLog.BlockIndex.Snapshot

def encodeEntry (entry : IndexEntry) : Bytes :=
  Bytes.signed64 entry.position ++ Bytes.littleEndian 8 entry.address

def encode (ix : BlockIndex) : Bytes :=
  Bytes.littleEndian 8 ix.size ++ ix.entries.flatMap encodeEntry

/-- The first `count` entries of `bytes`; `none` if there are fewer. -/
def decodeEntries : (count : Nat) → Bytes → Option (List IndexEntry)
  | 0, _ => some []
  | count + 1, bytes =>
    if bytes.length < 16 then none
    else
      (decodeEntries count (bytes.drop 16)).map
        (⟨Bytes.ofSigned64 (bytes.slice 0 8), Bytes.ofLittleEndian (bytes.slice 8 8)⟩ :: ·)

def decode (bytes : Bytes) : Except LogError BlockIndex :=
  if bytes.length < 8 then .error .shortSnapshot
  else
    match decodeEntries (Bytes.ofLittleEndian (bytes.take 8)) (bytes.drop 8) with
    | none => .error .shortSnapshot
    | some entries => .ok (ofList entries)

/-- Where a snapshot is written before it takes its name. -/
def draftPath (path : String) : String := Path.withExtension path "idx.tmp"

/-- Write a draft beside `path`, then give it the name. -/
def write (ix : BlockIndex) (path : String) : Attempt FileSystem Unit := fun fs =>
  match fs.write (draftPath path) (encode ix) with
  | (.error e, fs) => (.error (.io (.system e)), fs)
  | (.ok (), fs) =>
    match fs.rename (draftPath path) path with
    | (.error e, fs) => (.error (.io (.system e)), fs)
    | (.ok (), fs) => (.ok (), fs)

/-- The index at `path`, if there is one. -/
def read (fs : FileSystem) (path : String) : Except LogError (Option BlockIndex) :=
  if fs.exists? path then
    match fs.read path with
    | .error e => .error (.io (.system e))
    | .ok bytes => (decode bytes).map some
  else .ok none

end PartitionLog.BlockIndex.Snapshot
