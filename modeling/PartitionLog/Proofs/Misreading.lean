import Mathlib.Data.BitVec
import Mathlib.Data.Fintype.EquivFin
import PartitionLog.Proofs.Bursts
import PartitionLog.Proofs.Damage

/-!
# Records that are taken for others

The header of a frame tells the length of a payload modulo 2^32, and any checksum can be had by the
choice of the last four bytes (`Checksum.exists_crc32`). So there are payloads of 2^32 bytes and more
whose frame begins with the frames of other records (`Frame.exists_misread`), whatever these are, and
goes on with what looks like a frame that is cut off (`Frame.Severed`).
-/

namespace PartitionLog

namespace Bytes

/-- Only the low bytes are written. -/
theorem littleEndian_add (width n m : Nat) :
    littleEndian width (n + 256 ^ width * m) = littleEndian width n := by
  induction width generalizing n with
  | zero => rfl
  | succ width ih =>
    have hsplit : n + 256 ^ (width + 1) * m = n + 256 * (256 ^ width * m) := by
      rw [Nat.pow_succ', Nat.mul_assoc]
    have hbyte : UInt8.ofNat (n + 256 * (256 ^ width * m)) = UInt8.ofNat n := by
      apply UInt8.toNat_inj.1
      rw [UInt8.toNat_ofNat', UInt8.toNat_ofNat']
      omega
    have hrest : (n + 256 * (256 ^ width * m)) / 256 = n / 256 + 256 ^ width * m := by omega
    rw [littleEndian, littleEndian, hsplit, hbyte, hrest, ih]

end Bytes

namespace Checksum

/-- Four bytes take the register wherever one wants. -/
theorem exists_foldl_feed (r target : Register) :
    ∃ last : Bytes, last.length = 4 ∧ last.foldl feed r = target := by
  have : Finite Register := .of_injective _ BitVec.toFin_injective
  have hsurjective : Function.Surjective shift8^[4] :=
    Finite.surjective_of_injective (shift8_injective.iterate 4)
  obtain ⟨before, hbefore⟩ := hsurjective target
  have hlength : (Bytes.littleEndian 4 (r ^^^ before).toNat).length = 4 := Bytes.length_littleEndian ..
  have hword : word (Bytes.littleEndian 4 (r ^^^ before).toNat) = r ^^^ before := by
    apply BitVec.eq_of_toNat_eq
    have hlt := (r ^^^ before).isLt
    rw [word, Bytes.ofLittleEndian_littleEndian, BitVec.toNat_ofNat]
    omega
  refine ⟨_, hlength, ?_⟩
  rw [foldl_feed_word (Nat.le_of_eq hlength), hlength, hword, ← BitVec.xor_assoc, BitVec.xor_self,
    BitVec.zero_xor, hbefore]

/-- Any checksum can be had by the last four bytes. -/
theorem exists_crc32 (bytes other : Bytes) :
    ∃ last : Bytes, last.length = 4 ∧ crc32 (bytes ++ last) = crc32 other := by
  obtain ⟨last, hlength, hfeed⟩ := exists_foldl_feed (bytes.foldl feed (BitVec.allOnes 32))
    (other.foldl feed (BitVec.allOnes 32))
  exact ⟨last, hlength, by rw [crc32, List.foldl_append, hfeed, crc32]⟩

end Checksum

namespace Frame

variable {position : Int} {x rest tail : Bytes}

/-- With 2^32 more bytes and the same checksum, a frame begins with that of the shorter payload. -/
theorem encode_overlong (hlength : rest.length = 2 ^ 32)
    (hsum : checksum position (x ++ rest) = checksum position x) :
    encode position (x ++ rest) = encode position x ++ rest := by
  have hfield : Bytes.littleEndian 4 (x ++ rest).length = Bytes.littleEndian 4 x.length := by
    rw [List.length_append, hlength]
    exact Bytes.littleEndian_add 4 x.length 1
  rw [encode, encode, hfield, hsum, List.append_assoc _ x rest]

/-- Bytes that begin like a frame and end before it does. -/
structure Severed (tail : Bytes) : Prop where
  header : headerLength ≤ tail.length
  short : tail.length < lengthFor (lengthField tail)

theorem Severed.decode (h : Severed tail) (address : Nat) :
    ∃ damage, decode tail address = .error (.corruption address damage) := by
  have hne : tail.isEmpty = false := by
    have hpos : 0 < headerLength := by decide
    have hheader := h.header
    rw [List.isEmpty_eq_false_iff, ← List.length_pos_iff]
    omega
  unfold Frame.decode
  rw [hne, if_neg Bool.false_ne_true, if_neg (Nat.not_lt.2 h.header), if_pos h.short]
  exact ⟨_, rfl⟩

/-- What looks severed can end with any four bytes, and be of any length that a header can tell. -/
theorem exists_severed {n : Nat} (hn : headerLength ≤ n) (hmax : n ≤ 2 ^ 32) :
    ∃ filling : Bytes, filling.length + 4 = n ∧
      ∀ last : Bytes, last.length = 4 → Severed (filling ++ last) := by
  have hheader : headerLength = 16 := rfl
  refine ⟨List.replicate 4 255 ++ List.replicate (n - 8) 0, ?_, fun last hlast => ?_⟩
  · rw [List.length_append, List.length_replicate, List.length_replicate]
    omega
  · have hlength : (List.replicate 4 255 ++ List.replicate (n - 8) 0 ++ last).length = n := by
      rw [List.length_append, List.length_append, List.length_replicate, List.length_replicate]
      omega
    -- the field is that of the longest payload
    have hfield : lengthField (List.replicate 4 255 ++ List.replicate (n - 8) 0 ++ last)
        = 2 ^ 32 - 1 := by
      rw [lengthField, Bytes.slice, List.drop_zero, List.append_assoc,
        List.take_left' (List.length_replicate ..)]
      rfl
    exact ⟨by omega, by rw [hfield, lengthFor]; omega⟩

/-- The record that is stored at position 0 is read as the records of these payloads and a severed
rest. -/
def Misread (p : Bytes) (payloads : List Bytes) : Prop :=
  ∃ tail, encode 0 p = encodeRun 0 payloads ++ tail ∧ Severed tail

theorem Misread.length_lt {p : Bytes} {payloads : List Bytes} (h : Misread p payloads) :
    (encodeRun 0 payloads).length < (encode 0 p).length := by
  obtain ⟨tail, hencode, htail⟩ := h
  have hheader := htail.header
  have hpos : 0 < headerLength := by decide
  rw [hencode, List.length_append]
  omega

/-- For every payload there is one of 2^32 more bytes that is misread as it and as any others behind
it, if these have their place in so many bytes. -/
theorem exists_misread (x : Bytes) (others : List Bytes)
    (hroom : (encodeRun x.length others).length + headerLength ≤ 2 ^ 32) :
    ∃ p : Bytes, p.length = x.length + 2 ^ 32 ∧ Misread p (x :: others) := by
  obtain ⟨filling, hfilling, hsevered⟩ :=
    exists_severed (n := 2 ^ 32 - (encodeRun x.length others).length) (by omega) (by omega)
  obtain ⟨last, hlast, hcrc⟩ := Checksum.exists_crc32
    (Bytes.signed64 0 ++ (x ++ (encodeRun x.length others ++ filling))) (Bytes.signed64 0 ++ x)
  have hrest : (encodeRun x.length others ++ (filling ++ last)).length = 2 ^ 32 := by
    rw [List.length_append, List.length_append, hlast, hfilling]
    omega
  have hsum : checksum 0 (x ++ (encodeRun x.length others ++ (filling ++ last))) = checksum 0 x := by
    unfold checksum
    rw [← hcrc]
    simp only [List.append_assoc]
  refine ⟨x ++ (encodeRun x.length others ++ (filling ++ last)), ?_, filling ++ last, ?_,
    hsevered last hlast⟩
  · rw [List.length_append, hrest]
  · rw [encode_overlong hrest hsum, encodeRun, Int.zero_add, List.append_assoc]

end Frame

end PartitionLog
