import PartitionLog.Config
import PartitionLog.Proofs.Claims
import PartitionLog.Proofs.Codec

/-!
# How long a record may be

The write buffer takes records of up to `LogConfig.maxFragment` bytes, a bound that follows from two
sizes of 64 bits, and the header of a frame has 32 bits for the length. A frame gives its record back
exactly if the length fits into them (`Frame.decode_encode_iff`). The settings do not see to that: all
that they allow can be framed only where one of the sizes is below the longest frame
(`allowed_framed_iff`).
-/

namespace PartitionLog

namespace Frame

/-- A record is read back from its frame exactly if the header tells its length. -/
theorem decode_encode_iff {position : Int} (hlo : -2 ^ 63 ≤ position) (hhi : position < 2 ^ 63)
    (payload rest : Bytes) (address : Nat) :
    decode (encode position payload ++ rest) address = .ok (some ⟨position, address, payload⟩) ↔
      payload.length < 2 ^ 32 := by
  constructor
  · intro h
    exact (encode_of_decode h).2.1.2.2
  · intro hlength
    exact decode_encode ⟨hlo, hhi, hlength⟩ rest address

end Frame

namespace LogConfig

variable {c : LogConfig}

theorem maxFragment_of_validate (h : c.validate = .ok ()) : c.maxFragment ≠ 0 := by
  unfold validate at h
  iterate 8 (split at h; · simp at h)
  assumption

/-- The buffer of valid settings can be made. -/
theorem create_of_validate (h : c.validate = .ok ()) :
    WriteBuffer.create c.writeBufferSize c.maxFragment
      = .ok { capacity := c.writeBufferSize, maxFragment := c.maxFragment } := by
  have hroom := maxFragment_of_validate h
  have hfit : Frame.lengthFor c.maxFragment ≤ c.writeBufferSize := by
    unfold maxFragment at hroom ⊢
    unfold Frame.lengthFor
    omega
  rw [WriteBuffer.create, if_neg (by omega)]

/-- Every length that the buffer takes fits into a header exactly if one of the two sizes is below
that of the longest frame. -/
theorem fits_iff (h : c.validate = .ok ()) {b : WriteBuffer} (hb : b.maxFragment = c.maxFragment) :
    (∀ length, b.checkLength length = .ok () → length < 2 ^ 32) ↔
      min c.writeBufferSize c.maxAppendBlock < 2 ^ 32 + Frame.headerLength := by
  have hroom := maxFragment_of_validate h
  have hmax : c.maxFragment = min c.writeBufferSize c.maxAppendBlock - Frame.headerLength := rfl
  simp only [WriteBuffer.checkLength_eq_ok_iff, hb]
  constructor
  · intro hall
    have := hall c.maxFragment ⟨by omega, by omega⟩
    omega
  · intro hsize length hlength
    omega

/-- Of what the buffer of valid settings takes, exactly the payloads of less than 2^32 bytes are read
back from their frames; the header of a longer one tells the rest of its length modulo 2^32. Settings
allow no longer ones exactly if one of the two sizes is below that of the longest frame. -/
theorem allowed_framed_iff (h : c.validate = .ok ()) :
    ∃ b, WriteBuffer.create c.writeBufferSize c.maxFragment = .ok b ∧
      (∀ payload, b.checkLength payload.length = .ok () →
        ∀ position, -2 ^ 63 ≤ position → position < 2 ^ 63 → ∀ rest address,
          Frame.lengthField (Frame.encode position payload ++ rest) = payload.length % 2 ^ 32 ∧
          (Frame.decode (Frame.encode position payload ++ rest) address
              = .ok (some ⟨position, address, payload⟩) ↔ payload.length < 2 ^ 32)) ∧
      ((∀ length, b.checkLength length = .ok () → length < 2 ^ 32) ↔
        min c.writeBufferSize c.maxAppendBlock < 2 ^ 32 + Frame.headerLength) := by
  refine ⟨_, create_of_validate h, fun payload _ position hlo hhi rest address => ⟨?_, ?_⟩,
    fits_iff h rfl⟩
  · exact Frame.lengthField_encode_mod position payload rest
  · exact Frame.decode_encode_iff hlo hhi payload rest address

/-- Settings whose two sizes have room for a frame of 2^32 bytes of payload. -/
def wide : LogConfig :=
  { writeBufferSize := 2 ^ 32 + 16, maxAppendBlock := 2 ^ 32 + 16 }

theorem validate_wide : wide.validate = .ok () := rfl

theorem allowed_framed_iff_wide :
    wide.validate = .ok () ∧
      ∃ b, WriteBuffer.create wide.writeBufferSize wide.maxFragment = .ok b ∧
        b.checkLength (2 ^ 32) = .ok () ∧
        ¬ (∀ length, b.checkLength length = .ok () → length < 2 ^ 32) := by
  obtain ⟨b, hb, -, hfits⟩ := allowed_framed_iff validate_wide
  have hcheck : b.checkLength (2 ^ 32) = .ok () := by
    rw [create_of_validate validate_wide, Except.ok.injEq] at hb
    subst hb
    rfl
  exact ⟨validate_wide, b, hb, hcheck, fun hall => absurd (hall _ hcheck) (by decide)⟩

/-- The buffer takes 2^32 zeros, and the header of their frame says that there are none. -/
theorem allowed_not_framed :
    wide.validate = .ok () ∧
      ∃ b, WriteBuffer.create wide.writeBufferSize wide.maxFragment = .ok b ∧
        b.checkLength (List.replicate (2 ^ 32) (0 : UInt8)).length = .ok () ∧
        Frame.lengthField (Frame.encode 0 (List.replicate (2 ^ 32) 0)) = 0 ∧
        Frame.decode (Frame.encode 0 (List.replicate (2 ^ 32) 0)) 0
          ≠ .ok (some ⟨0, 0, List.replicate (2 ^ 32) 0⟩) := by
  refine ⟨validate_wide, _, create_of_validate validate_wide, ?_, ?_, fun hread => ?_⟩
  · rw [List.length_replicate]
    rfl
  · have hfield := Frame.lengthField_encode_mod 0 (List.replicate (2 ^ 32) 0) []
    rw [List.append_nil, List.length_replicate] at hfield
    exact hfield
  · have hlength := (Frame.encode_of_decode hread).2.1.2.2
    rw [List.length_replicate] at hlength
    omega

end LogConfig

end PartitionLog
