import PartitionLog.BlockIndex
import PartitionLog.Frame
import PartitionLog.Storage

/-!
# Readers

A reader fetches storage in windows and answers from the window where it can. `readAt` reads the
record at an address, `seek` finds the first record from a position on, `collect` reads to the end.
Every record that is read lies inside the storage or the window (`readAt_some`), so `Reading.limit`
bounds what a scan can still move through, and scans end.
-/

namespace PartitionLog

structure Reader where
  blockSize : Nat
  /-- Address of the record that is read next. -/
  next : Nat := Storage.firstAddress
  window : Bytes := []
  windowAddress : Nat := 0
  deriving DecidableEq, Repr

namespace Reader

/-- A reader at the first record; a window holds at least a frame header. -/
def ofWindow (size : Nat) : Reader := { blockSize := max size Frame.headerLength }

def windowEnd (r : Reader) : Nat := r.windowAddress + r.window.length

def Covers (r : Reader) (address length : Nat) : Prop :=
  r.windowAddress ≤ address ∧ address + length ≤ r.windowEnd

instance (r : Reader) (address length : Nat) : Decidable (r.Covers address length) := by
  unfold Covers; infer_instance

end Reader

/-- A reader and the storage it reads. -/
structure Reading where
  reader : Reader
  storage : Storage

namespace Reading

/-- No record ends beyond this address. -/
def limit (rs : Reading) : Nat := max rs.storage.stored.length rs.reader.windowEnd

def moveTo (rs : Reading) (address : Nat) : Reading :=
  { rs with reader := { rs.reader with next := address } }

/-- At most `length` bytes at `address`, refilling the window if it does not cover them. -/
def fetch (address length : Nat) : Attempt Reading Bytes := fun rs =>
  if rs.reader.Covers address length then
    (.ok (rs.reader.window.slice (address - rs.reader.windowAddress) length), rs)
  else
    match (Storage.read address (max length rs.reader.blockSize)).run rs.storage with
    | (.error e, storage) => (.error e, { rs with storage := storage })
    | (.ok bytes, storage) =>
      (.ok (bytes.take length),
        ⟨{ rs.reader with window := bytes, windowAddress := address }, storage⟩)

/-- The record at `address`; `none` at the end of the log. The reader does not move. -/
def readAt (address : Nat) : Attempt Reading (Option Record) := do
  let header ← fetch address Frame.headerLength
  if header.length < Frame.headerLength then .ofExcept (Frame.decode header address)
  else
    let frame ← fetch address (Frame.lengthFor (Frame.lengthField header))
    .ofExcept (Frame.decode frame address)

/-- Read the next record and move behind it. -/
def nextRecord : Attempt Reading (Option Record) := fun rs =>
  match (readAt rs.reader.next).run rs with
  | (.ok (some r), rs) => (.ok (some r), rs.moveTo r.nextAddress)
  | answer => answer

end Reading

/-! ## Bounds -/

namespace Storage

theorem stored_allow {call : StorageCall} {s : Storage} :
    ((allow call).run s).2.stored = s.stored := by
  simp only [Attempt.run, allow]; split <;> rfl

theorem readMedium_ok {address max : Nat} {s t : Storage} {bytes : Bytes}
    (h : (readMedium address max).run s = (.ok bytes, t)) :
    t = s ∧ bytes.length ≤ s.stored.length - address := by
  unfold Attempt.run readMedium at h
  split at h
  · next hm =>
    simp only [Prod.mk.injEq, Except.ok.injEq] at h
    obtain ⟨rfl, rfl⟩ := h
    simp only [stored, hm, Bytes.length_slice, true_and]
    omega
  · next hm =>
    dsimp only at h
    split at h
    · simp only [Prod.mk.injEq, Except.ok.injEq] at h
      obtain ⟨rfl, rfl⟩ := h
      simp only [stored, hm, Bytes.length_slice, true_and]
      omega
    · simp at h
  · simp at h

theorem read_ok {address max : Nat} {s t : Storage} {bytes : Bytes}
    (h : (read address max).run s = (.ok bytes, t)) :
    t.stored = s.stored ∧ bytes.length ≤ s.stored.length - address := by
  have hs : ((allow .read).run s).2.stored = s.stored := stored_allow
  rw [read, Attempt.run_bind] at h
  split at h
  · next u hu =>
    rw [hu] at hs
    obtain ⟨rfl, hl⟩ := readMedium_ok h
    exact ⟨hs, hs ▸ hl⟩
  · simp at h

end Storage

namespace Reading

theorem fetch_ok {address length : Nat} {rs ts : Reading} {bytes : Bytes}
    (h : (fetch address length).run rs = (.ok bytes, ts)) (hne : 0 < bytes.length) :
    address + bytes.length ≤ rs.limit ∧ ts.limit ≤ rs.limit := by
  simp only [Attempt.run, fetch] at h
  split at h
  · next hc =>
    simp only [Prod.mk.injEq, Except.ok.injEq] at h
    obtain ⟨rfl, rfl⟩ := h
    simp only [Reader.Covers, Reader.windowEnd, limit, Bytes.length_slice] at *
    omega
  · split at h
    · simp at h
    · next hr =>
      simp only [Prod.mk.injEq, Except.ok.injEq] at h
      obtain ⟨rfl, rfl⟩ := h
      obtain ⟨hs, hl⟩ := Storage.read_ok hr
      simp only [limit, Reader.windowEnd, hs, List.length_take] at *
      omega

/-- A record that is read lies below the limit, and reading it does not raise the limit. -/
theorem readAt_some {address : Nat} {rs ts : Reading} {r : Record}
    (h : (readAt address).run rs = (.ok (some r), ts)) :
    r.address = address ∧ address + 16 ≤ r.nextAddress ∧ r.nextAddress ≤ rs.limit
      ∧ ts.limit ≤ rs.limit := by
  have hdecode : ∀ {bytes : Bytes} {us vs : Reading},
      (Attempt.ofExcept (Frame.decode bytes address)).run us = (.ok (some r), vs) →
      vs = us ∧ Frame.decode bytes address = .ok (some r) := by
    intro bytes us vs hd
    revert hd
    cases Frame.decode bytes address with
    | error e => intro hd; simp [Attempt.ofExcept, Attempt.run, Attempt.fail] at hd
    | ok o =>
      intro hd
      simp only [Attempt.ofExcept, Attempt.run, Attempt.pure, Prod.mk.injEq, Except.ok.injEq] at hd
      exact ⟨hd.2.symm, by rw [hd.1]⟩
  rw [readAt, Attempt.run_bind] at h
  split at h
  · next header us hh =>
    split at h
    · obtain ⟨_, hd⟩ := hdecode h
      have := (Frame.length_of_decode hd).2
      simp only [Record.frameLength, Frame.lengthFor, Frame.headerLength] at *
      omega
    · next hfull =>
      rw [Attempt.run_bind] at h
      split at h
      · next frame vs hf =>
        obtain ⟨rfl, hd⟩ := hdecode h
        obtain ⟨ha, hl⟩ := Frame.length_of_decode hd
        have hnext := r.lt_nextAddress
        simp only [Record.nextAddress, Record.frameLength, Frame.lengthFor, Frame.headerLength] at *
        obtain ⟨_, h1⟩ := fetch_ok hh (by omega)
        obtain ⟨h2, h3⟩ := fetch_ok hf (by omega)
        omega
      · simp at h
  · simp at h

/-! ## Scans -/

/-- From `address` on, move to the first record whose position is not below `position`, else to the
end of the log; the answer is whether a record has that position. -/
def seekFrom (position : Int) (address : Nat) (rs : Reading) : Except LogError Bool × Reading :=
  match _h : (readAt address).run rs with
  | (.error e, ts) => (.error e, ts)
  | (.ok none, ts) => (.ok false, ts.moveTo address)
  | (.ok (some r), ts) =>
    if r.position < position then seekFrom position r.nextAddress ts
    else (.ok (r.position == position), ts.moveTo r.address)
termination_by rs.limit - address
decreasing_by
  have := readAt_some _h
  omega

def seek (ix : BlockIndex) (position : Int) : Attempt Reading Bool :=
  seekFrom position (ix.startFor position Storage.firstAddress)

/-- The address of the record with exactly this position. -/
def findAddress (ix : BlockIndex) (position : Int) : Attempt Reading (Option Nat) := do
  if ← seek ix position then return some (← .get).reader.next else return none

/-- The records from `address` on, why there are no more, and the reader behind the last one. -/
def collectFrom (address : Nat) (rs : Reading) : (List Record × Option LogError) × Reading :=
  match _h : (readAt address).run rs with
  | (.error e, ts) => (([], some e), ts.moveTo address)
  | (.ok none, ts) => (([], none), ts.moveTo address)
  | (.ok (some r), ts) =>
    let ((records, stop), us) := collectFrom r.nextAddress ts
    ((r :: records, stop), us)
termination_by rs.limit - address
decreasing_by
  have := readAt_some _h
  omega

/-- The records from the next one on, and why there are no more. -/
def collect (rs : Reading) : (List Record × Option LogError) × Reading :=
  collectFrom rs.reader.next rs

/-- The last record of the log; the reader is left at the end. -/
def readLast (ix : BlockIndex) : Attempt Reading (Option Record) := fun rs =>
  match collectFrom (ix.lastStart Storage.firstAddress) rs with
  | ((records, none), ts) => (.ok records.getLast?, ts)
  | ((_, some e), ts) => (.error e, ts)

end Reading

end PartitionLog
