import PartitionLog.Bytes

/-!
# CRC-32

The reflected CRC-32 with polynomial `0xEDB88320`. `feed` advances the register by one byte, as
eight single-bit steps on the register xored with the byte; `crc32` starts from all ones and
complements the register at the end. Both `shift` and `feed` are linear over xor, which is what
makes damage detectable.
-/

namespace PartitionLog.Checksum

abbrev Register := BitVec 32

def polynomial : Register := 0xEDB88320#32

/-- One bit: the lowest bit leaves the register and, if set, brings the polynomial in. -/
def shift (r : Register) : Register :=
  if r.getLsbD 0 then (r >>> 1) ^^^ polynomial else r >>> 1

def shift8 (r : Register) : Register :=
  shift (shift (shift (shift (shift (shift (shift (shift r)))))))

def feed (r : Register) (b : UInt8) : Register := shift8 (r ^^^ b.toBitVec.setWidth 32)

def crc32 (bytes : Bytes) : Nat := (~~~(bytes.foldl feed (BitVec.allOnes 32))).toNat

theorem crc32_lt (bytes : Bytes) : crc32 bytes < UInt32.size := BitVec.isLt _

end PartitionLog.Checksum
