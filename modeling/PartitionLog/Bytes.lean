/-!
# Bytes and little-endian integers

Stored data is a list of bytes. `littleEndian width n` writes the low `width` bytes of `n`, least
significant first; `ofLittleEndian` reads them back. `signed64` writes an integer in two's
complement on eight bytes, `ofSigned64` reads it.
-/

namespace PartitionLog

abbrev Bytes := List UInt8

namespace Bytes

/-- The low `width` bytes of `n`, least significant first. -/
def littleEndian : (width : Nat) → Nat → Bytes
  | 0, _ => []
  | width + 1, n => UInt8.ofNat n :: littleEndian width (n / 256)

def ofLittleEndian : Bytes → Nat
  | [] => 0
  | b :: rest => b.toNat + 256 * ofLittleEndian rest

/-- Two's complement on eight bytes. -/
def signed64 (p : Int) : Bytes := littleEndian 8 (p % UInt64.size).toNat

def ofSigned64 (bytes : Bytes) : Int := Int.bmod (ofLittleEndian bytes) UInt64.size

/-- At most `len` bytes from offset `address` on. -/
def slice (bytes : Bytes) (address len : Nat) : Bytes := (bytes.drop address).take len

def ofText (text : String) : Bytes := text.toUTF8.data.toList

@[simp] theorem length_littleEndian (width n : Nat) : (littleEndian width n).length = width := by
  induction width generalizing n with
  | zero => rfl
  | succ width ih => simp [littleEndian, ih]

@[simp] theorem length_signed64 (p : Int) : (signed64 p).length = 8 := by simp [signed64]

theorem length_slice (bytes : Bytes) (address len : Nat) :
    (slice bytes address len).length = min len (bytes.length - address) := by
  simp [slice]

end Bytes

end PartitionLog
