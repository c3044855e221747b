import Mathlib.Algebra.Ring.Int.Defs
import Mathlib.Algebra.Ring.Nat
import PartitionLog.Frame

/-!
# Reading frames back

`Frame.decode` gives exactly the records whose frame the bytes start with (`decode_eq_some_iff`),
and it looks at no byte beyond that frame (`decode_take`). `Readable p xs` says that the frames of
`xs` from position `p` on can be read back: every position fits into 64 bits and every length into
32. Bytes that start with such a run are walked through record by record (`walk_encodeRun`), so a
run is determined by its bytes (`isPrefix_of_encodeRun`).
-/

namespace PartitionLog

namespace Bytes

theorem ofLittleEndian_littleEndian (width n : Nat) :
    ofLittleEndian (littleEndian width n) = n % 256 ^ width := by
  induction width generalizing n with
  | zero => simp [littleEndian, ofLittleEndian, Nat.mod_one]
  | succ width ih =>
    simp [littleEndian, ofLittleEndian, ih, Nat.pow_succ', Nat.mod_mul]

theorem ofLittleEndian_lt (bytes : Bytes) : ofLittleEndian bytes < 256 ^ bytes.length := by
  induction bytes with
  | nil => simp [ofLittleEndian]
  | cons b rest ih =>
    have hb := b.toNat_lt
    simp only [ofLittleEndian, List.length_cons, Nat.pow_succ]
    omega

theorem littleEndian_ofLittleEndian {width : Nat} {bytes : Bytes} (h : bytes.length = width) :
    littleEndian width (ofLittleEndian bytes) = bytes := by
  subst h
  induction bytes with
  | nil => rfl
  | cons b rest ih =>
    have hb := b.toNat_lt
    have hdiv : (b.toNat + 256 * ofLittleEndian rest) / 256 = ofLittleEndian rest := by omega
    have hmod : UInt8.ofNat (b.toNat + 256 * ofLittleEndian rest) = b := by
      apply UInt8.toNat_inj.1
      rw [UInt8.toNat_ofNat']
      omega
    simp only [ofLittleEndian, List.length_cons, littleEndian, hdiv, hmod, ih]

theorem ofSigned64_range (bytes : Bytes) :
    -2 ^ 63 ≤ ofSigned64 bytes ∧ ofSigned64 bytes < 2 ^ 63 := by
  unfold ofSigned64 UInt64.size
  have h1 := Int.le_bmod (x := (ofLittleEndian bytes : Int)) (m := 18446744073709551616) (by decide)
  have h2 := Int.bmod_lt (x := (ofLittleEndian bytes : Int)) (m := 18446744073709551616) (by decide)
  omega

theorem ofSigned64_signed64 {p : Int} (hlo : -2 ^ 63 ≤ p) (hhi : p < 2 ^ 63) :
    ofSigned64 (signed64 p) = p := by
  unfold ofSigned64 signed64
  rw [ofLittleEndian_littleEndian]
  have hpow : (256 : Nat) ^ 8 = UInt64.size := rfl
  have hmod : (((p % UInt64.size).toNat % UInt64.size : Nat) : Int) = p % UInt64.size := by
    unfold UInt64.size
    omega
  rw [hpow, hmod, Int.emod_bmod]
  unfold UInt64.size
  exact Int.bmod_eq_of_le (by omega) (by omega)

theorem signed64_ofSigned64 {bytes : Bytes} (h : bytes.length = 8) :
    signed64 (ofSigned64 bytes) = bytes := by
  have hlt := ofLittleEndian_lt bytes
  rw [h] at hlt
  have hmod : (ofSigned64 bytes % UInt64.size).toNat = ofLittleEndian bytes := by
    unfold ofSigned64
    rw [Int.bmod_emod]
    unfold UInt64.size
    omega
  rw [signed64, hmod, littleEndian_ofLittleEndian h]

theorem slice_take {bytes : Bytes} {n address len : Nat} (h : address + len ≤ n) :
    slice (bytes.take n) address len = slice bytes address len := by
  unfold slice
  rw [List.drop_take, List.take_take, Nat.min_eq_left (by omega)]

end Bytes

namespace Frame

/-! ## One frame -/

/-- What the header of a frame can hold. -/
def Framable (position : Int) (payload : Bytes) : Prop :=
  -2 ^ 63 ≤ position ∧ position < 2 ^ 63 ∧ payload.length < 2 ^ 32

theorem headerLength_le_length_encode (position : Int) (payload : Bytes) :
    headerLength ≤ (encode position payload).length := by
  rw [length_encode, lengthFor]; omega

section Fields

variable (position : Int) (payload rest : Bytes)

/-- The header has four bytes for the length, so it tells the length only up to 2^32. -/
theorem lengthField_encode_mod :
    lengthField (encode position payload ++ rest) = payload.length % 2 ^ 32 := by
  have hs : Bytes.slice (encode position payload ++ rest) 0 4
      = Bytes.littleEndian 4 payload.length := by
    simp [Bytes.slice, encode]
  rw [lengthField, hs, Bytes.ofLittleEndian_littleEndian, show (256 : Nat) ^ 4 = 2 ^ 32 from rfl]

theorem lengthField_encode (h : payload.length < 2 ^ 32) :
    lengthField (encode position payload ++ rest) = payload.length := by
  rw [lengthField_encode_mod, Nat.mod_eq_of_lt h]

theorem checksumField_encode :
    checksumField (encode position payload ++ rest) = checksum position payload := by
  have hs : Bytes.slice (encode position payload ++ rest) 4 4
      = Bytes.littleEndian 4 (checksum position payload) := by
    simp [Bytes.slice, encode]
  have hlt : checksum position payload < 256 ^ 4 := Checksum.crc32_lt _
  rw [checksumField, hs, Bytes.ofLittleEndian_littleEndian, Nat.mod_eq_of_lt hlt]

theorem positionField_encode (hlo : -2 ^ 63 ≤ position) (hhi : position < 2 ^ 63) :
    positionField (encode position payload ++ rest) = position := by
  have hs : Bytes.slice (encode position payload ++ rest) 8 8 = Bytes.signed64 position := by
    simp [Bytes.slice, encode, List.drop_append, List.take_append]
  rw [positionField, hs, Bytes.ofSigned64_signed64 hlo hhi]

theorem payloadField_encode (h : payload.length < 2 ^ 32) :
    payloadField (encode position payload ++ rest) = payload := by
  have hhead : (Bytes.littleEndian 4 payload.length
      ++ Bytes.littleEndian 4 (checksum position payload) ++ Bytes.signed64 position).length
      = headerLength := by simp [headerLength]
  rw [payloadField, lengthField_encode position payload rest h, Bytes.slice, encode,
    List.append_assoc _ payload, List.drop_left' hhead, List.take_left']
  rfl

end Fields

theorem decode_encode {position : Int} {payload : Bytes} (h : Framable position payload)
    (rest : Bytes) (address : Nat) :
    decode (encode position payload ++ rest) address = .ok (some ⟨position, address, payload⟩) := by
  obtain ⟨hlo, hhi, hlen⟩ := h
  have hle := headerLength_le_length_encode position payload
  have hl : (encode position payload ++ rest).length = lengthFor payload.length + rest.length := by
    rw [List.length_append, length_encode]
  have hne : (encode position payload ++ rest).isEmpty = false := by
    rw [List.isEmpty_eq_false_iff, ← List.length_pos_iff, hl, lengthFor, headerLength]; omega
  unfold decode
  rw [hne, if_neg (by decide), if_neg (by rw [List.length_append]; omega),
    lengthField_encode _ _ _ hlen, if_neg (by omega), positionField_encode _ _ _ hlo hhi,
    payloadField_encode _ _ _ hlen, checksumField_encode]
  simp

/-- Reading looks at no byte behind the frame. -/
theorem decode_take {src : Bytes} {n : Nat} (hn : headerLength ≤ n)
    (h : lengthFor (lengthField src) ≤ n) (address : Nat) :
    decode (src.take n) address = decode src address := by
  rcases Nat.le_total src.length n with hle | hle
  · rw [List.take_of_length_le hle]
  have hlen : (src.take n).length = n := by rw [List.length_take, Nat.min_eq_left hle]
  have h16 : headerLength = 16 := rfl
  have hfor : lengthFor (lengthField src) = 16 + lengthField src := rfl
  have hl : lengthField (src.take n) = lengthField src := by
    unfold lengthField; rw [Bytes.slice_take (by omega)]
  have hc : checksumField (src.take n) = checksumField src := by
    unfold checksumField; rw [Bytes.slice_take (by omega)]
  have hp : positionField (src.take n) = positionField src := by
    unfold positionField; rw [Bytes.slice_take (by omega)]
  have hx : payloadField (src.take n) = payloadField src := by
    unfold payloadField; rw [hl, Bytes.slice_take (by omega)]
  have he : (src.take n).isEmpty = src.isEmpty := by
    rw [Bool.eq_iff_iff, List.isEmpty_iff_length_eq_zero, List.isEmpty_iff_length_eq_zero]
    omega
  unfold decode
  rw [he, hl, hc, hp, hx, hlen]
  simp only [if_neg (show ¬ n < headerLength by omega),
    if_neg (show ¬ src.length < headerLength by omega),
    if_neg (show ¬ n < lengthFor (lengthField src) by omega),
    if_neg (show ¬ src.length < lengthFor (lengthField src) by omega)]

/-- The record that is read has the frame that the bytes start with. -/
theorem encode_of_decode {src : Bytes} {address : Nat} {r : Record}
    (h : decode src address = .ok (some r)) :
    r.address = address ∧ Framable r.position r.payload ∧
      encode r.position r.payload = src.take r.frameLength := by
  unfold decode at h
  split at h
  · simp at h
  split at h
  · simp at h
  split at h
  · simp at h
  split at h
  · simp at h
  rename_i _ hhead hfit hsum
  simp only [Except.ok.injEq, Option.some.injEq] at h
  subst h
  have h16 : headerLength = 16 := rfl
  have hfor : lengthFor (lengthField src) = 16 + lengthField src := rfl
  have hpay : (payloadField src).length = lengthField src := by
    rw [payloadField, Bytes.length_slice]; omega
  have hlt : lengthField src < 2 ^ 32 := by
    have := Bytes.ofLittleEndian_lt (src.slice 0 4)
    rw [Bytes.length_slice, Nat.min_eq_left (by omega)] at this
    exact this
  have h1 : Bytes.littleEndian 4 (payloadField src).length = src.slice 0 4 := by
    rw [hpay, lengthField]
    exact Bytes.littleEndian_ofLittleEndian (by rw [Bytes.length_slice]; omega)
  have h2 : Bytes.littleEndian 4 (checksum (positionField src) (payloadField src))
      = src.slice 4 4 := by
    rw [Decidable.not_not.1 hsum, checksumField]
    exact Bytes.littleEndian_ofLittleEndian (by rw [Bytes.length_slice]; omega)
  have h3 : Bytes.signed64 (positionField src) = src.slice 8 8 :=
    Bytes.signed64_ofSigned64 (by rw [Bytes.length_slice]; omega)
  have hframable : Framable (positionField src) (payloadField src) := by
    obtain ⟨hlo, hhi⟩ := Bytes.ofSigned64_range (src.slice 8 8)
    unfold Framable positionField
    exact ⟨hlo, hhi, hpay ▸ hlt⟩
  dsimp only [Record.frameLength]
  refine ⟨rfl, hframable, ?_⟩
  have hparts : ∀ n, src.take (16 + n)
      = src.slice 0 4 ++ src.slice 4 4 ++ src.slice 8 8 ++ src.slice 16 n := by
    intro n
    simp only [Bytes.slice, List.drop_zero, ← List.take_add, Nat.reduceAdd]
  have hframe : src.take (lengthFor (payloadField src).length)
      = src.slice 0 4 ++ src.slice 4 4 ++ src.slice 8 8 ++ src.slice 16 (lengthField src) := by
    rw [hpay, hfor, hparts]
  rw [hframe, encode, h1, h2, h3]
  rfl

theorem decode_eq_some_iff {src : Bytes} {address : Nat} {r : Record} :
    decode src address = .ok (some r) ↔
      r.address = address ∧ Framable r.position r.payload ∧
        encode r.position r.payload <+: src := by
  constructor
  · intro h
    obtain ⟨ha, hf, he⟩ := encode_of_decode h
    exact ⟨ha, hf, he ▸ List.take_prefix _ _⟩
  · rintro ⟨rfl, hf, rest, rfl⟩
    exact decode_encode hf rest r.address

@[simp] theorem decode_nil (address : Nat) : decode [] address = .ok none := rfl

/-- Reading finds the end of the log only where there is no byte left. -/
theorem decode_eq_none_iff {src : Bytes} {address : Nat} :
    decode src address = .ok none ↔ src = [] := by
  refine ⟨fun h => ?_, fun h => h ▸ rfl⟩
  unfold decode at h
  split at h
  · simpa using ‹src.isEmpty = true›
  · repeat (split at h; · simp at h)
    simp at h

/-- All that reading reports is damage at the address it was given. -/
theorem decode_error {src : Bytes} {address : Nat} {e : LogError}
    (h : decode src address = .error e) : ∃ damage, e = .corruption address damage := by
  unfold decode at h
  split at h
  · simp at h
  repeat (split at h; · simp only [Except.error.injEq] at h; exact ⟨_, h.symm⟩)
  simp at h

/-! ## Runs of frames -/

/-- The positions that the payloads take up. -/
def span (payloads : List Bytes) : Nat := payloads.flatten.length

@[simp] theorem span_nil : span [] = 0 := rfl

@[simp] theorem span_cons (payload : Bytes) (rest : List Bytes) :
    span (payload :: rest) = payload.length + span rest := by simp [span]

@[simp] theorem span_append (xs ys : List Bytes) : span (xs ++ ys) = span xs + span ys := by
  simp [span]

/-- The records whose frames `encodeRun` writes, if they are put at `address`. -/
def recordsOf (position : Int) (address : Nat) : List Bytes → List Record
  | [] => []
  | payload :: rest =>
    ⟨position, address, payload⟩
      :: recordsOf (position + payload.length) (address + lengthFor payload.length) rest

/-- Whether the frames of a run can be read back. -/
def Readable (position : Int) : List Bytes → Prop
  | [] => True
  | payload :: rest => Framable position payload ∧ Readable (position + payload.length) rest

theorem encodeRun_append (position : Int) (xs ys : List Bytes) :
    encodeRun position (xs ++ ys)
      = encodeRun position xs ++ encodeRun (position + span xs) ys := by
  induction xs generalizing position with
  | nil => simp [encodeRun]
  | cons x xs ih =>
    simp only [List.cons_append, encodeRun, ih, List.append_assoc, span_cons]
    congr 3
    omega

theorem length_encodeRun (position : Int) (payloads : List Bytes) :
    (encodeRun position payloads).length = span payloads + headerLength * payloads.length := by
  induction payloads generalizing position with
  | nil => rfl
  | cons x xs ih =>
    simp only [encodeRun, List.length_append, length_encode, lengthFor, ih, span_cons,
      List.length_cons, Nat.mul_succ]
    omega

@[simp] theorem encodeRun_eq_nil {position : Int} {payloads : List Bytes} :
    encodeRun position payloads = [] ↔ payloads = [] := by
  cases payloads with
  | nil => simp [encodeRun]
  | cons x xs =>
    have := headerLength_le_length_encode position x
    have h16 : headerLength = 16 := rfl
    constructor
    · intro h
      have := congrArg List.length h
      simp only [encodeRun, List.length_append, List.length_nil] at this
      omega
    · simp

theorem readable_append {position : Int} {xs ys : List Bytes} :
    Readable position (xs ++ ys) ↔ Readable position xs ∧ Readable (position + span xs) ys := by
  induction xs generalizing position with
  | nil => simp [Readable]
  | cons x xs ih =>
    have hpos : position + x.length + span xs = position + (span (x :: xs) : Nat) := by
      rw [span_cons]; omega
    simp only [List.cons_append, Readable, ih, hpos, and_assoc]

/-- A run from a position on that takes up fewer than `2 ^ 63` positions can be read back. -/
theorem readable_of_lt {position : Int} {payloads : List Bytes} (h0 : 0 ≤ position)
    (hend : position + span payloads < 2 ^ 63) (hlen : ∀ x ∈ payloads, x.length < 2 ^ 32) :
    Readable position payloads := by
  induction payloads generalizing position with
  | nil => trivial
  | cons x xs ih =>
    rw [span_cons] at hend
    refine ⟨⟨by omega, by omega, hlen x List.mem_cons_self⟩, ?_⟩
    exact ih (by omega) (by omega) fun y hy => hlen y (List.mem_cons_of_mem _ hy)

theorem Readable.lengths {position : Int} {payloads : List Bytes} (h : Readable position payloads) :
    ∀ x ∈ payloads, x.length < 2 ^ 32 := by
  induction payloads generalizing position with
  | nil => simp
  | cons x xs ih =>
    intro y hy
    rcases List.mem_cons.1 hy with rfl | hy
    · exact h.1.2.2
    · exact ih h.2 y hy

theorem recordsOf_append (position : Int) (address : Nat) (xs ys : List Bytes) :
    recordsOf position address (xs ++ ys)
      = recordsOf position address xs
        ++ recordsOf (position + span xs) (address + (encodeRun position xs).length) ys := by
  induction xs generalizing position address with
  | nil => simp [recordsOf, encodeRun]
  | cons x xs ih =>
    simp only [List.cons_append, recordsOf, ih, encodeRun, List.length_append, length_encode,
      span_cons]
    congr 3 <;> omega

/-- The frames of some records, one after the other. -/
def framesOf (records : List Record) : Bytes := records.flatMap fun r => encode r.position r.payload

/-- Every record has the position where the one before it ends. -/
def Contiguous : List Record → Prop
  | r :: s :: rest => s.position = r.nextPosition ∧ Contiguous (s :: rest)
  | _ => True

theorem framesOf_recordsOf (position : Int) (address : Nat) (payloads : List Bytes) :
    framesOf (recordsOf position address payloads) = encodeRun position payloads := by
  induction payloads generalizing position address with
  | nil => rfl
  | cons x xs ih => exact congrArg (encode position x ++ ·) (ih ..)

theorem contiguous_recordsOf (position : Int) (address : Nat) (payloads : List Bytes) :
    Contiguous (recordsOf position address payloads) := by
  induction payloads generalizing position address with
  | nil => trivial
  | cons x xs ih =>
    cases xs with
    | nil => trivial
    | cons y ys => exact ⟨rfl, ih ..⟩

/-! ## Walking through a run -/

theorem walk_encodeRun {position : Int} {payloads : List Bytes} (h : Readable position payloads)
    (rest : Bytes) (address : Nat) :
    walk (encodeRun position payloads ++ rest) address
      = (recordsOf position address payloads
            ++ (walk rest (address + (encodeRun position payloads).length)).1,
          (walk rest (address + (encodeRun position payloads).length)).2) := by
  induction payloads generalizing position address with
  | nil => simp [encodeRun, recordsOf]
  | cons x xs ih =>
    have hdec := decode_encode h.1 (encodeRun (position + x.length) xs ++ rest) address
    rw [← List.append_assoc] at hdec
    rw [walk]
    simp only [encodeRun]
    split
    · next hd => rw [hdec] at hd; simp at hd
    · next hd => rw [hdec] at hd; simp at hd
    · next r hd =>
      rw [hdec] at hd
      simp only [Except.ok.injEq, Option.some.injEq] at hd
      subst hd
      have hdrop : List.drop (lengthFor x.length)
          (encode position x ++ encodeRun (position + x.length) xs ++ rest)
          = encodeRun (position + x.length) xs ++ rest := by
        rw [List.append_assoc, List.drop_left' (length_encode position x)]
      simp only [Record.frameLength, Record.nextAddress, hdrop, ih h.2, recordsOf,
        List.length_append, length_encode, List.cons_append, Nat.add_assoc]

theorem walk_eq_nil {src : Bytes} {address : Nat} {e : LogError}
    (h : decode src address = .error e) : walk src address = ([], some e) := by
  rw [walk]
  split <;> simp_all

@[simp] theorem walk_nil (address : Nat) : walk [] address = ([], none) := by
  rw [walk]
  split <;> simp_all

theorem walk_cons {src : Bytes} {address : Nat} {r : Record}
    (h : decode src address = .ok (some r)) :
    walk src address = (r :: (walk (src.drop r.frameLength) r.nextAddress).1,
      (walk (src.drop r.frameLength) r.nextAddress).2) := by
  rw [walk]
  split
  · next hd => rw [h] at hd; simp at hd
  · next hd => rw [h] at hd; simp at hd
  · next s hd =>
    rw [h] at hd
    simp only [Except.ok.injEq, Option.some.injEq] at hd
    subst hd
    rfl

/-- Behind a record, the walk goes on at the next address. -/
theorem walk_of_decode {log : Bytes} {address : Nat} {r : Record}
    (h : decode (log.drop address) address = .ok (some r)) :
    walk (log.drop address) address
      = (r :: (walk (log.drop r.nextAddress) r.nextAddress).1,
          (walk (log.drop r.nextAddress) r.nextAddress).2) := by
  have hdrop : (log.drop address).drop r.frameLength = log.drop r.nextAddress := by
    rw [List.drop_drop, Record.nextAddress, (length_of_decode h).1]
  rw [walk_cons h, hdrop]

/-- The bytes of a run determine it, up to where it goes on. -/
theorem isPrefix_of_encodeRun {position : Int} {xs ys : List Bytes}
    (hx : Readable position xs) (hy : Readable position ys)
    (h : encodeRun position xs <+: encodeRun position ys) : xs <+: ys := by
  induction xs generalizing position ys with
  | nil => exact List.nil_prefix
  | cons x xs ih =>
    cases ys with
    | nil =>
      have := List.prefix_nil.1 h
      simp at this
    | cons y ys =>
      obtain ⟨rest, hrest⟩ := h
      have hdx := decode_encode hx.1 (encodeRun (position + x.length) xs ++ rest) 0
      have hdy := decode_encode hy.1 (encodeRun (position + y.length) ys) 0
      simp only [encodeRun, List.append_assoc] at hrest
      rw [hrest, hdy] at hdx
      simp only [Except.ok.injEq, Option.some.injEq, Record.mk.injEq, true_and] at hdx
      subst hdx
      have htail := List.append_cancel_left hrest
      obtain ⟨zs, rfl⟩ := ih hx.2 hy.2 ⟨rest, htail⟩
      exact ⟨zs, rfl⟩

end Frame

end PartitionLog
