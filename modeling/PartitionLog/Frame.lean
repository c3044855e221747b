import PartitionLog.Attempt
import PartitionLog.Checksum

/-!
# Records and their frames

A frame is the stored form of one record: the payload length (4 bytes), a checksum (4), the position
(8), all little-endian, then the payload. The checksum covers position and payload.
`Frame.encode` writes a frame, `Frame.decode` reads the one at the start of some bytes, and
`Frame.walk` reads frame after frame. Two facts carry every scan: a decoded record fits into the
bytes it was read from (`length_of_decode`), and so a walk ends.
-/

namespace PartitionLog

/-- A record as it was read back: `address` is where its frame starts in storage. -/
structure Record where
  position : Int
  address : Nat
  payload : Bytes
  deriving DecidableEq, Repr

/-- Bytes in front of the payload. -/
def Frame.headerLength : Nat := 16

/-- Length of the frame around a payload of `n` bytes. -/
def Frame.lengthFor (n : Nat) : Nat := headerLength + n

namespace Record

def frameLength (r : Record) : Nat := Frame.lengthFor r.payload.length

/-- The address right after the record. -/
def nextAddress (r : Record) : Nat := r.address + r.frameLength

/-- The position of the record after this one. -/
def nextPosition (r : Record) : Int := r.position + r.payload.length

theorem lt_nextAddress (r : Record) : r.address + 16 ≤ r.nextAddress := by
  simp [nextAddress, frameLength, Frame.lengthFor, Frame.headerLength]

end Record

namespace Frame

def checksum (position : Int) (payload : Bytes) : Nat :=
  Checksum.crc32 (Bytes.signed64 position ++ payload)

def encode (position : Int) (payload : Bytes) : Bytes :=
  Bytes.littleEndian 4 payload.length ++ Bytes.littleEndian 4 (checksum position payload)
    ++ Bytes.signed64 position ++ payload

/-- The frames of `payloads`, each at the position where the one before it ends. -/
def encodeRun (position : Int) : List Bytes → Bytes
  | [] => []
  | payload :: rest => encode position payload ++ encodeRun (position + payload.length) rest

def lengthField (src : Bytes) : Nat := Bytes.ofLittleEndian (src.slice 0 4)

def checksumField (src : Bytes) : Nat := Bytes.ofLittleEndian (src.slice 4 4)

def positionField (src : Bytes) : Int := Bytes.ofSigned64 (src.slice 8 8)

def payloadField (src : Bytes) : Bytes := src.slice headerLength (lengthField src)

/-- Read the frame at the start of `src`. No bytes at all are the end of the log; a frame that is
cut off or does not match its checksum is damage. `address` only names the place. -/
def decode (src : Bytes) (address : Nat) : Except LogError (Option Record) :=
  if src.isEmpty then .ok none
  else if src.length < headerLength then
    .error (.corruption address (.partialHeader src.length))
  else if src.length < lengthFor (lengthField src) then
    .error (.corruption address (.partialPayload (lengthField src) (src.length - headerLength)))
  else if checksum (positionField src) (payloadField src) ≠ checksumField src then
    .error (.corruption address (.checksum (positionField src)))
  else .ok (some ⟨positionField src, address, payloadField src⟩)

theorem length_encode (position : Int) (payload : Bytes) :
    (encode position payload).length = lengthFor payload.length := by
  simp [encode, lengthFor, headerLength]; omega

theorem length_of_decode {src : Bytes} {address : Nat} {r : Record}
    (h : decode src address = .ok (some r)) :
    r.address = address ∧ r.frameLength ≤ src.length := by
  unfold decode at h
  split at h; · simp at h
  split at h; · simp at h
  split at h; · simp at h
  split at h; · simp at h
  rename_i hfit _
  simp only [Except.ok.injEq, Option.some.injEq] at h
  subst h
  refine ⟨rfl, ?_⟩
  simp only [Record.frameLength, payloadField, lengthFor, headerLength, Bytes.length_slice] at *
  omega

/-- Frames one after the other from `address` on, and why there are no more: `none` at the end of
the bytes. -/
def walk (src : Bytes) (address : Nat) : List Record × Option LogError :=
  match _h : decode src address with
  | .ok none => ([], none)
  | .error e => ([], some e)
  | .ok (some r) =>
    let (records, stop) := walk (src.drop r.frameLength) r.nextAddress
    (r :: records, stop)
termination_by src.length
decreasing_by
  have := (length_of_decode _h).2
  simp only [Record.frameLength, lengthFor, headerLength, List.length_drop] at *
  omega

end Frame

end PartitionLog
