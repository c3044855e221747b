import PartitionLog.Proofs.Codec

/-!
# Noticing a changed byte

Feeding the checksum's register loses nothing: it is injective in the register and in the byte. So one
changed byte changes the checksum (`getElem?_of_crc32_set`), and a frame with a byte changed behind
its length field does not match its checksum any more (`not_matches_of_set`). Nothing vouches for the
length field itself.
-/

namespace PartitionLog

namespace Checksum

/-- The bit that leaves the register comes back as its highest one. -/
theorem getLsbD_shift_last (r : Register) : (shift r).getLsbD 31 = r.getLsbD 0 := by
  have hpoly : polynomial.getLsbD 31 = true := by decide
  unfold shift
  split
  · next h => rw [BitVec.getLsbD_xor, hpoly, h]; simp
  · next h => simpa using h

theorem shift_injective : Function.Injective shift := by
  intro r s h
  have hlow : r.getLsbD 0 = s.getLsbD 0 := by
    rw [← getLsbD_shift_last, ← getLsbD_shift_last, h]
  have hhigh : r >>> 1 = s >>> 1 := by
    unfold shift at h
    rw [hlow] at h
    split at h
    · simpa using h
    · exact h
  apply BitVec.eq_of_getLsbD_eq
  intro i _
  cases i with
  | zero => exact hlow
  | succ i =>
    have := congrArg (·.getLsbD i) hhigh
    simpa [Nat.add_comm] using this

theorem shift8_injective : Function.Injective shift8 := by
  intro r s h
  unfold shift8 at h
  iterate 8 replace h := shift_injective h
  exact h

theorem feed_left_injective (b : UInt8) : Function.Injective (feed · b) := by
  intro r s h
  have := shift8_injective h
  simpa using this

theorem feed_right_injective (r : Register) : Function.Injective (feed r) := by
  intro b c h
  have hwide : b.toBitVec.setWidth 32 = c.toBitVec.setWidth 32 := by
    simpa using shift8_injective h
  apply UInt8.toBitVec_inj.1
  have := congrArg (BitVec.setWidth 8) hwide
  simpa using this

theorem foldl_feed_injective (bytes : Bytes) :
    Function.Injective fun r : Register => bytes.foldl feed r := by
  induction bytes with
  | nil => exact fun _ _ h => h
  | cons b rest ih => exact fun r s h => feed_left_injective b (ih h)

/-- One changed byte changes the checksum. -/
theorem getElem?_of_crc32_set {bytes : Bytes} {i : Nat} {b : UInt8} (hi : i < bytes.length)
    (h : crc32 (bytes.set i b) = crc32 bytes) : bytes[i]? = some b := by
  have hsplit : bytes = bytes.take i ++ bytes[i] :: bytes.drop (i + 1) := by
    rw [List.getElem_cons_drop, List.take_append_drop]
  have hreg := BitVec.eq_of_toNat_eq h
  rw [BitVec.not_inj, List.set_eq_take_append_cons_drop, if_pos hi] at hreg
  conv at hreg => rhs; rw [hsplit]
  simp only [List.foldl_append, List.foldl_cons] at hreg
  rw [List.getElem?_eq_getElem hi, feed_right_injective _ (foldl_feed_injective _ hreg)]

end Checksum

namespace Bytes

theorem ofLittleEndian_inj {xs ys : Bytes} (hl : xs.length = ys.length)
    (h : ofLittleEndian xs = ofLittleEndian ys) : xs = ys := by
  rw [← littleEndian_ofLittleEndian hl, h, littleEndian_ofLittleEndian rfl]

/-- Changing a byte in front of a slice or behind it does not show in the slice. -/
theorem slice_set_of_outside {bytes : Bytes} {k address len : Nat} (b : UInt8)
    (h : k < address ∨ address + len ≤ k) :
    slice (bytes.set k b) address len = slice bytes address len := by
  unfold slice
  rw [List.drop_set]
  split
  · rfl
  · rw [List.take_set, List.set_eq_of_length_le]
    rw [List.length_take]
    omega

theorem slice_set {bytes : Bytes} {k address len : Nat} (b : UInt8) (h : address ≤ k) :
    slice (bytes.set k b) address len = (slice bytes address len).set (k - address) b := by
  unfold slice
  rw [List.drop_set, if_neg (Nat.not_lt.2 h), List.take_set]

theorem slice_append_slice (bytes : Bytes) (address m n : Nat) :
    slice bytes address m ++ slice bytes (address + m) n = slice bytes address (m + n) := by
  unfold slice
  rw [← List.drop_drop, List.take_add]

theorem getElem?_slice {bytes : Bytes} {k address len : Nat} (hlo : address ≤ k)
    (hhi : k < address + len) : (slice bytes address len)[k - address]? = bytes[k]? := by
  unfold slice
  rw [List.getElem?_take_of_lt (by omega), List.getElem?_drop, Nat.add_sub_cancel' hlo]

end Bytes

namespace Frame

/-- The checksum of the frame at the start of `src` is that of its position and payload. -/
def Matches (src : Bytes) : Prop := checksum (positionField src) (payloadField src) = checksumField src

instance (src : Bytes) : Decidable (Matches src) := by unfold Matches; infer_instance

variable {src : Bytes} {address : Nat}

theorem decode_of_fits (h : lengthFor (lengthField src) ≤ src.length) :
    decode src address = if Matches src then .ok (some ⟨positionField src, address, payloadField src⟩)
      else .error (.corruption address (.checksum (positionField src))) := by
  have h16 : lengthFor (lengthField src) = 16 + lengthField src := rfl
  have hheader : headerLength = 16 := rfl
  have hne : src.isEmpty = false := by
    rw [List.isEmpty_eq_false_iff, ← List.length_pos_iff]
    omega
  unfold decode Matches
  rw [hne, if_neg Bool.false_ne_true, if_neg (by omega), if_neg (by omega), ite_not]

theorem fits_of_decode {r : Record} (h : decode src address = .ok (some r)) :
    lengthFor (lengthField src) ≤ src.length ∧ Matches src ∧
      r = ⟨positionField src, address, payloadField src⟩ := by
  unfold decode at h
  split at h
  · simp at h
  split at h
  · simp at h
  split at h
  · simp at h
  split at h
  · simp at h
  rename_i hfit hsum
  simp only [Except.ok.injEq, Option.some.injEq] at h
  exact ⟨Nat.le_of_not_lt hfit, Decidable.not_not.1 hsum, h.symm⟩

theorem frameLength_of_decode {r : Record} (h : decode src address = .ok (some r)) :
    r.frameLength = lengthFor (lengthField src) := by
  obtain ⟨hfit, -, rfl⟩ := fits_of_decode h
  have hheader : headerLength = 16 := rfl
  simp only [lengthFor, Record.frameLength, payloadField, Bytes.length_slice] at hfit ⊢
  omega

/-- The checksum is over the bytes behind it, however they are read. -/
theorem matches_iff (h : headerLength ≤ src.length) :
    Matches src ↔ Checksum.crc32 (src.slice 8 (8 + lengthField src)) = checksumField src := by
  have hposition : Bytes.signed64 (positionField src) = src.slice 8 8 :=
    Bytes.signed64_ofSigned64 (by
      rw [Bytes.length_slice]
      simp only [headerLength] at h
      omega)
  rw [Matches, checksum, hposition, payloadField, headerLength, Bytes.slice_append_slice _ 8 8]

/-- A byte that is changed behind the length field leaves a frame whose checksum does not match. -/
theorem not_matches_of_set {r : Record} (hd : decode src address = .ok (some r)) {k : Nat}
    {b : UInt8} (hk : 4 ≤ k) (hlt : k < r.frameLength) (hb : src[k]? ≠ some b) :
    lengthField (src.set k b) = lengthField src ∧ ¬ Matches (src.set k b) := by
  obtain ⟨hfit, hmatches, -⟩ := fits_of_decode hd
  rw [frameLength_of_decode hd] at hlt
  have hlength : lengthField (src.set k b) = lengthField src := by
    rw [lengthField, Bytes.slice_set_of_outside b (.inr (by omega))]
    rfl
  have h16 : headerLength ≤ src.length := Nat.le_trans (Nat.le_add_right ..) hfit
  refine ⟨hlength, fun hno => ?_⟩
  rw [matches_iff h16] at hmatches
  rw [matches_iff (by rw [List.length_set]; exact h16), hlength] at hno
  simp only [lengthFor, headerLength] at hlt hfit
  by_cases hfield : k < 8
  · -- the stored checksum changed, and the bytes that it is over did not
    rw [Bytes.slice_set_of_outside b (.inl hfield), hmatches] at hno
    have hsame : (src.slice 4 4).set (k - 4) b = src.slice 4 4 := by
      rw [← Bytes.slice_set b hk]
      exact (Bytes.ofLittleEndian_inj (by simp [Bytes.length_slice]) hno).symm
    have hslice : (src.slice 4 4)[k - 4]? = src[k]? := Bytes.getElem?_slice hk (by omega)
    rw [← hslice, ← hsame, List.getElem?_set_self] at hb
    · exact hb rfl
    · rw [Bytes.length_slice]
      omega
  · have hstored : checksumField (src.set k b) = checksumField src := by
      rw [checksumField, Bytes.slice_set_of_outside b (.inr (by omega))]
      rfl
    rw [hstored, ← hmatches, Bytes.slice_set b (by omega)] at hno
    have hbyte := Checksum.getElem?_of_crc32_set (by rw [Bytes.length_slice]; omega) hno
    rw [Bytes.getElem?_slice (by omega) (by omega)] at hbyte
    exact hb hbyte

/-- A frame that can still be read after a byte in it was changed tells of the same position. -/
theorem position_of_decode_set {r s : Record} (hd : decode src address = .ok (some r)) {k : Nat}
    {b : UInt8} (hlt : k < r.frameLength) (hb : src[k]? ≠ some b)
    (hs : decode (src.set k b) address = .ok (some s)) : s.position = r.position := by
  obtain ⟨-, hmatches, rfl⟩ := fits_of_decode hs
  obtain ⟨-, -, hr⟩ := fits_of_decode hd
  by_cases hk : 4 ≤ k
  · exact absurd hmatches (not_matches_of_set hd hk hlt hb).2
  · have hfield : positionField (src.set k b) = positionField src := by
      rw [positionField, Bytes.slice_set_of_outside b (.inl (by omega)), ← positionField]
    rw [hr, ← hfield]

end Frame

end PartitionLog
