import PartitionLog.Proofs.Detection

/-!
# Noticing a burst

A bit step of the checksum's register is linear over xor (`shift_xor`), and what is put above the
lowest byte of the register comes down unchanged as that byte leaves it. So up to four bytes are fed
like one word as wide as the register (`foldl_feed_word`), and no two such bursts leave the same
register (`eq_of_crc32_burst`). A frame that is changed in a burst behind its length field, or in its
checksum alone, does not match its checksum any more (`decode_burst`).
-/

namespace PartitionLog

namespace Checksum

theorem shift_xor (r s : Register) : shift (r ^^^ s) = shift r ^^^ shift s := by
  have hcancel : (r >>> 1 ^^^ polynomial) ^^^ (s >>> 1 ^^^ polynomial) = r >>> 1 ^^^ s >>> 1 := by
    rw [BitVec.xor_comm (s >>> 1), BitVec.xor_assoc, ← BitVec.xor_assoc polynomial,
      BitVec.xor_self, BitVec.zero_xor]
  unfold shift
  rw [BitVec.getLsbD_xor, BitVec.ushiftRight_xor_distrib]
  cases r.getLsbD 0 with
  | false =>
    cases s.getLsbD 0 with
    | false => rfl
    | true => exact BitVec.xor_assoc ..
  | true =>
    cases s.getLsbD 0 with
    | false =>
      show (r >>> 1 ^^^ s >>> 1) ^^^ polynomial = (r >>> 1 ^^^ polynomial) ^^^ s >>> 1
      rw [BitVec.xor_assoc, BitVec.xor_comm (s >>> 1), ← BitVec.xor_assoc]
    | true => exact hcancel.symm

theorem shift8_xor (r s : Register) : shift8 (r ^^^ s) = shift8 r ^^^ shift8 s := by
  unfold shift8
  iterate 8 rw [shift_xor]

/-- A lowest bit that is not set brings no polynomial in. -/
theorem shift_double {n : Nat} (h : n < 2 ^ 31) :
    shift (BitVec.ofNat 32 (2 * n)) = BitVec.ofNat 32 n := by
  have hlow : (BitVec.ofNat 32 (2 * n)).getLsbD 0 = false := by
    rw [BitVec.getLsbD_ofNat, Nat.testBit_zero, Nat.mul_mod_right]
    rfl
  unfold shift
  rw [hlow, if_neg Bool.false_ne_true]
  apply BitVec.eq_of_toNat_eq
  rw [BitVec.toNat_ushiftRight, BitVec.toNat_ofNat, BitVec.toNat_ofNat, Nat.shiftRight_one]
  omega

/-- What lies above the lowest byte comes down when that byte leaves. -/
theorem shift8_above {n : Nat} (h : n < 2 ^ 24) :
    shift8 (BitVec.ofNat 32 (256 * n)) = BitVec.ofNat 32 n := by
  have hdouble : 256 * n = 2 * (2 * (2 * (2 * (2 * (2 * (2 * (2 * n))))))) := by omega
  unfold shift8
  rw [hdouble]
  iterate 8 rw [shift_double (by omega)]

/-! ## Bursts as words -/

/-- Up to four bytes as the register takes them, the first one lowest. -/
def word (bytes : Bytes) : Register := BitVec.ofNat 32 (Bytes.ofLittleEndian bytes)

theorem word_cons (b : UInt8) (rest : Bytes) : word (b :: rest)
    = b.toBitVec.setWidth 32 ^^^ BitVec.ofNat 32 (256 * Bytes.ofLittleEndian rest) := by
  have hb : b.toNat < 2 ^ 8 := b.toNat_lt
  rw [word, Bytes.ofLittleEndian]
  apply BitVec.eq_of_getLsbD_eq
  intro i hi
  have hlow : (b.toBitVec.setWidth 32).getLsbD i = b.toNat.testBit i := by
    rw [BitVec.getLsbD_setWidth, decide_eq_true hi, Bool.true_and]
    rfl
  rw [BitVec.getLsbD_xor, hlow, BitVec.getLsbD_ofNat, BitVec.getLsbD_ofNat, decide_eq_true hi,
    Bool.true_and, Bool.true_and, Nat.add_comm, show (256 : Nat) = 2 ^ 8 from rfl,
    Nat.testBit_two_pow_mul_add _ hb, Nat.testBit_two_pow_mul]
  split
  · next hlt => simp [Nat.not_le.2 hlt]
  · next hge =>
    have hout : b.toNat.testBit i = false :=
      Nat.testBit_lt_two_pow (Nat.lt_of_lt_of_le hb (Nat.pow_le_pow_right (by decide) (by omega)))
    simp [hout, Nat.le_of_not_lt hge]

theorem word_inj {xs ys : Bytes} (hl : xs.length = ys.length) (h4 : xs.length ≤ 4)
    (h : word xs = word ys) : xs = ys := by
  have hwide (bytes : Bytes) (hle : bytes.length ≤ 4) : Bytes.ofLittleEndian bytes < 2 ^ 32 :=
    Nat.lt_of_lt_of_le (Bytes.ofLittleEndian_lt bytes) (Nat.pow_le_pow_right (by decide) hle)
  have hvalue := congrArg BitVec.toNat h
  rw [word, word, BitVec.toNat_ofNat, BitVec.toNat_ofNat, Nat.mod_eq_of_lt (hwide xs h4),
    Nat.mod_eq_of_lt (hwide ys (hl ▸ h4))] at hvalue
  exact Bytes.ofLittleEndian_inj hl hvalue

/-- Induction on the bytes: those behind the first one are fed while it leaves the register. -/
theorem foldl_feed_word {bytes : Bytes} (h : bytes.length ≤ 4) (r : Register) :
    bytes.foldl feed r = shift8^[bytes.length] (r ^^^ word bytes) := by
  induction bytes generalizing r with
  | nil => exact (BitVec.xor_zero (x := r)).symm
  | cons b rest ih =>
    rw [List.length_cons] at h
    have hvalue : Bytes.ofLittleEndian rest < 2 ^ 24 :=
      Nat.lt_of_lt_of_le (Bytes.ofLittleEndian_lt rest)
        (Nat.pow_le_pow_right (n := 256) (by decide) (show rest.length ≤ 3 by omega))
    calc
      rest.foldl feed (feed r b)
      _ = shift8^[rest.length] (feed r b ^^^ word rest) := ih (by omega) (feed r b)
      _ = shift8^[rest.length] (shift8 (r ^^^ word (b :: rest))) := by
        rw [word_cons, ← BitVec.xor_assoc, shift8_xor, shift8_above hvalue]
        rfl

theorem eq_of_foldl_feed {xs ys : Bytes} {r : Register} (hl : xs.length = ys.length)
    (h4 : xs.length ≤ 4) (h : xs.foldl feed r = ys.foldl feed r) : xs = ys := by
  rw [foldl_feed_word h4, foldl_feed_word (hl ▸ h4), ← hl] at h
  have hword := shift8_injective.iterate xs.length h
  exact word_inj hl h4 (by simpa using hword)

/-- A changed burst of up to four bytes changes the checksum, wherever it is. -/
theorem eq_of_crc32_burst {before xs ys after : Bytes} (hl : xs.length = ys.length)
    (h4 : xs.length ≤ 4) (h : crc32 (before ++ xs ++ after) = crc32 (before ++ ys ++ after)) :
    xs = ys := by
  have hregister := BitVec.not_inj.1 (BitVec.eq_of_toNat_eq h)
  rw [List.foldl_append, List.foldl_append, List.foldl_append, List.foldl_append] at hregister
  exact eq_of_foldl_feed hl h4 (foldl_feed_injective after hregister)

end Checksum

namespace Bytes

/-- The bytes are the same, but for those from `first` up to `last`. -/
structure AgreeOutside (xs ys : Bytes) (first last : Nat) : Prop where
  length : xs.length = ys.length
  before : xs.take first = ys.take first
  behind : xs.drop last = ys.drop last

variable {xs ys : Bytes} {first last : Nat}

/-- A slice in front of the change is the same. -/
theorem AgreeOutside.slice (h : xs.AgreeOutside ys first last) {address len : Nat}
    (hle : address + len ≤ first) : ys.slice address len = xs.slice address len := by
  rw [← slice_take hle, ← h.before, slice_take hle]

/-- Bytes that agree outside a part differ in it alone. -/
theorem AgreeOutside.split (h : xs.AgreeOutside ys first last) (hle : first ≤ last) :
    xs = xs.take first ++ xs.slice first (last - first) ++ xs.drop last ∧
      ys = xs.take first ++ ys.slice first (last - first) ++ xs.drop last := by
  have hparts (bytes : Bytes) : bytes = bytes.take first ++ bytes.slice first (last - first)
      ++ bytes.drop last := by
    have hend : bytes.drop last = (bytes.drop first).drop (last - first) := by
      rw [List.drop_drop, Nat.add_sub_cancel' hle]
    rw [hend, Bytes.slice, List.append_assoc, List.take_append_drop, List.take_append_drop]
  refine ⟨hparts xs, ?_⟩
  rw [h.before, h.behind]
  exact hparts ys

theorem AgreeOutside.drop (h : xs.AgreeOutside ys first last) {n : Nat} (hn : n ≤ first)
    (hle : first ≤ last) : AgreeOutside (xs.drop n) (ys.drop n) (first - n) (last - n) where
  length := by rw [List.length_drop, List.length_drop, h.length]
  before := by rw [← List.drop_take, ← List.drop_take, h.before]
  behind := by
    rw [List.drop_drop, List.drop_drop, Nat.add_sub_cancel' (Nat.le_trans hn hle)]
    exact h.behind

end Bytes

/-- Bytes that differ in a burst at most and have the same checksum are the same. -/
theorem Checksum.eq_of_agreeOutside {xs ys : Bytes} {first : Nat}
    (h : xs.AgreeOutside ys first (first + 4)) (hcrc : crc32 xs = crc32 ys) : xs = ys := by
  obtain ⟨hxs, hys⟩ := h.split (Nat.le_add_right first 4)
  rw [Nat.add_sub_cancel_left] at hxs hys
  have hl : (xs.slice first 4).length = (ys.slice first 4).length := by
    rw [Bytes.length_slice, Bytes.length_slice, h.length]
  have h4 : (xs.slice first 4).length ≤ 4 := by
    rw [Bytes.length_slice]
    exact Nat.min_le_left ..
  have hburst : xs.slice first 4 = ys.slice first 4 := by
    rw [hxs, hys] at hcrc
    exact eq_of_crc32_burst hl h4 hcrc
  rw [hys, ← hburst]
  exact hxs

namespace Frame

/-- A frame is changed in its checksum, or in at most four bytes next to each other of what the
checksum is over. -/
def Burst (frame changed : Bytes) : Prop :=
  frame.AgreeOutside changed 4 8 ∨ ∃ first, 8 ≤ first ∧ frame.AgreeOutside changed first (first + 4)

variable {position : Int} {payload changed : Bytes}

theorem Burst.keeps_length {frame : Bytes} (h : Burst frame changed) :
    changed.length = frame.length := by
  obtain h | ⟨first, -, h⟩ := h
  · exact h.length.symm
  · exact h.length.symm

theorem Burst.keeps_lengthField {frame : Bytes} (h : Burst frame changed) :
    lengthField changed = lengthField frame := by
  obtain h | ⟨first, hfirst, h⟩ := h
  · exact congrArg Bytes.ofLittleEndian (h.slice (by omega))
  · exact congrArg Bytes.ofLittleEndian (h.slice (by omega))

/-- The checksum of a frame that is there to its end is over all bytes behind that field. -/
theorem matches_iff_drop {src : Bytes} (h : src.length = lengthFor (lengthField src)) :
    Matches src ↔ Checksum.crc32 (src.drop 8) = checksumField src := by
  have hlength : src.length = 16 + lengthField src := h
  have hheader : headerLength = 16 := rfl
  rw [matches_iff (by omega), Bytes.slice, List.take_of_length_le]
  rw [List.length_drop]
  omega

theorem Burst.not_matches {frame : Bytes} (h : Burst frame changed)
    (hlength : frame.length = lengthFor (lengthField frame)) (hmatches : Matches frame)
    (hne : changed ≠ frame) : ¬ Matches changed := by
  rw [matches_iff_drop (by rw [h.keeps_length, h.keeps_lengthField, hlength])]
  rw [matches_iff_drop hlength] at hmatches
  intro hstill
  obtain hfield | ⟨first, hfirst, hregion⟩ := h
  · -- what the checksum is over is the same, and so would be the checksum
    obtain ⟨hframe, hchanged⟩ := hfield.split (by decide)
    have hsame : frame.slice 4 4 = changed.slice 4 4 := by
      apply Bytes.ofLittleEndian_inj
      · rw [Bytes.length_slice, Bytes.length_slice, hfield.length]
      · rw [← hfield.behind, hmatches] at hstill
        exact hstill
    apply hne
    rw [hchanged, ← hsame]
    exact hframe.symm
  · have hsum : checksumField changed = checksumField frame :=
      congrArg Bytes.ofLittleEndian (hregion.slice (by omega))
    have hbehind := hregion.drop hfirst (Nat.le_add_right first 4)
    rw [show first + 4 - 8 = first - 8 + 4 by omega] at hbehind
    rw [hsum, ← hmatches] at hstill
    have hsame := Checksum.eq_of_agreeOutside hbehind hstill.symm
    have hfront : frame.take 8 = changed.take 8 := by
      have htake := congrArg (List.take 8) hregion.before
      rwa [List.take_take, List.take_take, Nat.min_eq_left hfirst] at htake
    apply hne
    rw [← List.take_append_drop 8 changed, ← hfront, ← hsame, List.take_append_drop]

theorem matches_encode (position : Int) (h : payload.length < 2 ^ 32) :
    lengthField (encode position payload) = payload.length ∧ Matches (encode position payload) := by
  have hlength := lengthField_encode position payload [] h
  have hsum := checksumField_encode position payload []
  rw [List.append_nil] at hlength hsum
  refine ⟨hlength, ?_⟩
  have hbehind : (encode position payload).drop 8 = Bytes.signed64 position ++ payload := by
    rw [encode, List.append_assoc _ _ payload]
    exact List.drop_left' (by simp)
  rw [matches_iff_drop (by rw [length_encode, hlength]), hsum, hbehind]
  rfl

/-- What follows a frame has no part in it. -/
theorem decode_append_rest {bytes : Bytes} (h : bytes.length = lengthFor (lengthField bytes))
    (rest : Bytes) (address : Nat) : decode (bytes ++ rest) address = decode bytes address := by
  have hheader : headerLength ≤ bytes.length := by
    rw [h, lengthFor]
    omega
  have hfield : lengthField (bytes ++ rest) = lengthField bytes := by
    have hshort : 0 + 4 ≤ bytes.length := by
      rw [headerLength] at hheader
      omega
    have hslice := @Bytes.slice_take (bytes ++ rest) bytes.length 0 4 hshort
    rw [List.take_left] at hslice
    exact congrArg Bytes.ofLittleEndian hslice.symm
  have hfits : lengthFor (lengthField (bytes ++ rest)) ≤ bytes.length := by rw [hfield, ← h]
  have htake := decode_take hheader hfits address
  rw [List.take_left] at htake
  exact htake.symm

/-- No burst goes unnoticed, whatever follows the frame. -/
theorem decode_burst (position : Int) {payload changed : Bytes} (hshort : payload.length < 2 ^ 32)
    (hburst : Burst (encode position payload) changed) (hne : changed ≠ encode position payload)
    (rest : Bytes) (address : Nat) : decode (changed ++ rest) address
      = .error (.corruption address (.checksum (positionField changed))) := by
  obtain ⟨hfield, hmatches⟩ := matches_encode position hshort
  have hframe : (encode position payload).length
      = lengthFor (lengthField (encode position payload)) := by rw [length_encode, hfield]
  have hno := hburst.not_matches hframe hmatches hne
  have hlength : changed.length = lengthFor (lengthField changed) := by
    rw [hburst.keeps_length, hburst.keeps_lengthField, hframe]
  rw [decode_append_rest hlength, decode_of_fits (Nat.le_of_eq hlength.symm), if_neg hno]

/-- The last byte of the position and the first three of the payload, and other frames behind. -/
theorem decode_burst_straddling :
    [7, 8, 9, 10].length < 2 ^ 32 ∧
      Burst (encode 5 [7, 8, 9, 10]) ((encode 5 [7, 8, 9, 10]).take 15 ++ [1, 9, 8, 7, 10]) ∧
      (encode 5 [7, 8, 9, 10]).take 15 ++ [1, 9, 8, 7, 10] ≠ encode 5 [7, 8, 9, 10] ∧
      decode ((encode 5 [7, 8, 9, 10]).take 15 ++ [1, 9, 8, 7, 10] ++ encode 9 [1]) 40
        = .error (.corruption 40 (.checksum (5 + 2 ^ 56))) := by
  have hburst : Burst (encode 5 [7, 8, 9, 10])
      ((encode 5 [7, 8, 9, 10]).take 15 ++ [1, 9, 8, 7, 10]) :=
    .inr ⟨15, by decide, by decide +kernel, by decide +kernel, by decide +kernel⟩
  have hne : (encode 5 [7, 8, 9, 10]).take 15 ++ [1, 9, 8, 7, 10] ≠ encode 5 [7, 8, 9, 10] := by
    decide +kernel
  have hposition : positionField ((encode 5 [7, 8, 9, 10]).take 15 ++ [1, 9, 8, 7, 10])
      = 5 + 2 ^ 56 := by decide +kernel
  refine ⟨by decide, hburst, hne, ?_⟩
  rw [decode_burst 5 (by decide) hburst hne, hposition]

end Frame

end PartitionLog
