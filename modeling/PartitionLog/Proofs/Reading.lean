import PartitionLog.Proofs.Codec
import PartitionLog.Proofs.Storage
import PartitionLog.Reader

/-!
# What a reader sees

`rs.Sees log`: the storage holds the bytes `log`, and the window holds bytes of `log`. Reading a
record then answers what decoding `log` at its address answers, or fails without blaming the log
(`readAt_spec`); windows do not show. A successful seek in a run of frames ends at a record of it
(`seekFrom_spec`).
-/

namespace PartitionLog

namespace Reading

structure Sees (rs : Reading) (log : Bytes) : Prop where
  sound : rs.storage.Sound
  stored : rs.storage.stored = log
  window : rs.reader.window = log.slice rs.reader.windowAddress rs.reader.window.length

variable {rs ts : Reading} {log : Bytes}

theorem Sees.moveTo (h : rs.Sees log) (address : Nat) : (rs.moveTo address).Sees log :=
  ⟨h.sound, h.stored, h.window⟩

theorem Sees.ofWindow {s : Storage} (hs : s.Sound) (size : Nat) :
    (⟨.ofWindow size, s⟩ : Reading).Sees s.stored :=
  ⟨hs, rfl, by simp [Reader.ofWindow, Bytes.slice]⟩

theorem slice_of_covers (h : rs.Sees log) {address length : Nat}
    (hc : rs.reader.Covers address length) :
    rs.reader.window.slice (address - rs.reader.windowAddress) length
      = log.slice address length := by
  obtain ⟨hlo, hhi⟩ := hc
  unfold Reader.windowEnd at hhi
  rw [h.window]
  simp only [Bytes.slice, List.drop_take, List.drop_drop, List.take_take]
  rw [Nat.add_sub_cancel' hlo, Nat.min_eq_left (by omega)]

theorem slice_length_slice (bytes : Bytes) (address n : Nat) :
    bytes.slice address (bytes.slice address n).length = bytes.slice address n := by
  simp [Bytes.slice, List.take_eq_take_iff]

theorem fetch_spec {address length : Nat} {r : Except LogError Bytes} (h : rs.Sees log)
    (hr : (fetch address length).run rs = (r, ts)) :
    ts.Sees log ∧ match r with
      | .ok bytes => bytes = log.slice address length
      | .error e => ∀ bad damage, e ≠ .corruption bad damage := by
  unfold Attempt.run fetch at hr
  split at hr
  · next hc =>
    simp only [Prod.mk.injEq] at hr
    obtain ⟨rfl, rfl⟩ := hr
    exact ⟨h, slice_of_covers h hc⟩
  · split at hr
    · next e s he =>
      simp only [Prod.mk.injEq] at hr
      obtain ⟨rfl, rfl⟩ := hr
      obtain ⟨⟨hsound, hstored⟩, hne⟩ := Storage.read_spec h.sound he
      exact ⟨⟨hsound, hstored.trans h.stored, h.window⟩, hne⟩
    · next bytes s hb =>
      simp only [Prod.mk.injEq] at hr
      obtain ⟨rfl, rfl⟩ := hr
      obtain ⟨⟨hsound, hstored⟩, hbytes⟩ := Storage.read_spec h.sound hb
      simp only [h.stored] at hbytes
      subst hbytes
      refine ⟨⟨hsound, hstored.trans h.stored, ?_⟩, ?_⟩
      · exact (slice_length_slice ..).symm
      · simp only [Bytes.slice, List.take_take]
        rw [Nat.min_eq_left (by omega)]

/-- What reading at an address can answer. -/
def Reads (log : Bytes) (address : Nat) (r : Except LogError (Option Record)) : Prop :=
  r = Frame.decode (log.drop address) address ∨
    ∃ e, r = .error e ∧ ∀ bad damage, e ≠ .corruption bad damage

theorem run_ofExcept {σ α : Type} (x : Except LogError α) (s : σ) :
    (Attempt.ofExcept x).run s = (x, s) := by
  cases x <;> rfl

theorem readAt_spec {address : Nat} {r : Except LogError (Option Record)} (h : rs.Sees log)
    (hr : (readAt address).run rs = (r, ts)) : ts.Sees log ∧ Reads log address r := by
  rw [readAt, Attempt.run_bind] at hr
  split at hr
  · next header us hh =>
    obtain ⟨hus, hheader⟩ := fetch_spec h hh
    simp only [Bytes.slice] at hheader
    split at hr
    · next hshort =>
      rw [run_ofExcept, Prod.mk.injEq] at hr
      obtain ⟨rfl, rfl⟩ := hr
      -- a header that is cut off is all that is left of the log
      have hall : header = log.drop address := by
        rw [hheader, List.length_take] at hshort
        rw [hheader, List.take_of_length_le (by omega)]
      exact ⟨hus, .inl (by rw [hall])⟩
    · next hfull =>
      have hfield : Frame.lengthField header = Frame.lengthField (log.drop address) := by
        unfold Frame.lengthField
        rw [hheader, Bytes.slice_take (by decide)]
      rw [Attempt.run_bind] at hr
      split at hr
      · next frame vs hf =>
        obtain ⟨hvs, hframe⟩ := fetch_spec hus hf
        rw [run_ofExcept, Prod.mk.injEq] at hr
        obtain ⟨rfl, rfl⟩ := hr
        refine ⟨hvs, .inl ?_⟩
        simp only [Bytes.slice, hfield] at hframe
        rw [hframe, Frame.decode_take]
        · simp only [Frame.lengthFor]; omega
        · exact Nat.le_refl _
      · next e vs hf =>
        obtain ⟨hvs, hne⟩ := fetch_spec hus hf
        simp only [Prod.mk.injEq] at hr
        obtain ⟨rfl, rfl⟩ := hr
        exact ⟨hvs, .inr ⟨e, rfl, hne⟩⟩
  · next e us hh =>
    obtain ⟨hus, hne⟩ := fetch_spec h hh
    simp only [Prod.mk.injEq] at hr
    obtain ⟨rfl, rfl⟩ := hr
    exact ⟨hus, .inr ⟨e, rfl, hne⟩⟩

/-- A record that is read is in the log at that address. -/
theorem Reads.some {address : Nat} {r : Record} (h : Reads log address (.ok (some r))) :
    Frame.decode (log.drop address) address = .ok (some r) := by
  rcases h with h | ⟨e, he, -⟩
  · exact h.symm
  · simp at he

theorem Reads.none {address : Nat} (h : Reads log address (.ok none)) : log.drop address = [] := by
  rcases h with h | ⟨e, he, -⟩
  · exact Frame.decode_eq_none_iff.1 h.symm
  · simp at he

theorem Reads.corruption {address bad : Nat} {damage : Damage}
    (h : Reads log address (.error (.corruption bad damage))) :
    bad = address ∧ Frame.decode (log.drop address) address = .error (.corruption bad damage) := by
  rcases h with h | ⟨e, he, hne⟩
  · obtain ⟨_, hd⟩ := Frame.decode_error h.symm
    simp only [LogError.corruption.injEq] at hd
    exact ⟨hd.1, h.symm⟩
  · simp only [Except.error.injEq] at he
    exact absurd he.symm (hne _ _)

/-! ## Seeking -/

/-- Where a run of frames is read, the record at its start is the first of the run. -/
theorem cons_of_decode {log : Bytes} {address : Nat} {position : Int} {xs : List Bytes}
    {r : Record} (hlog : log.drop address = Frame.encodeRun position xs)
    (hx : Frame.Readable position xs) (hd : Frame.decode (log.drop address) address = .ok (some r)) :
    ∃ x rest, xs = x :: rest ∧ r = ⟨position, address, x⟩ ∧
      log.drop r.nextAddress = Frame.encodeRun r.nextPosition rest ∧
      Frame.Readable r.nextPosition rest := by
  cases xs with
  | nil => rw [hlog, Frame.encodeRun, Frame.decode_nil] at hd; simp at hd
  | cons x rest =>
    have hfirst := Frame.decode_encode hx.1 (Frame.encodeRun (position + x.length) rest) address
    rw [hlog, Frame.encodeRun, hfirst] at hd
    simp only [Except.ok.injEq, Option.some.injEq] at hd
    subst hd
    refine ⟨x, rest, rfl, rfl, ?_, hx.2⟩
    rw [Record.nextAddress, ← List.drop_drop, hlog, Frame.encodeRun]
    exact List.drop_left' (Frame.length_encode position x)

theorem seekFrom_spec (position : Int) (address : Nat) (rs : Reading) {ts : Reading} {log : Bytes}
    {r : Except LogError Bool} {start : Int} {xs : List Bytes} (h : rs.Sees log)
    (hlog : log.drop address = Frame.encodeRun start xs) (hx : Frame.Readable start xs)
    (hr : seekFrom position address rs = (r, ts)) :
    ts.Sees log ∧ (r = .ok true → ∃ ys z zs, xs = ys ++ z :: zs ∧ start + Frame.span ys = position ∧
      ts.reader.next = address + (Frame.encodeRun start ys).length) := by
  fun_induction seekFrom position address rs generalizing start xs with
  | case1 address rs e us hread =>
    simp only [Prod.mk.injEq] at hr
    obtain ⟨rfl, rfl⟩ := hr
    exact ⟨(readAt_spec h hread).1, by simp⟩
  | case2 address rs us hread =>
    simp only [Prod.mk.injEq] at hr
    obtain ⟨rfl, rfl⟩ := hr
    exact ⟨(readAt_spec h hread).1.moveTo _, by simp⟩
  | case3 address rs found us hread hlt ih =>
    obtain ⟨hus, hreads⟩ := readAt_spec h hread
    obtain ⟨x, rest, rfl, rfl, hrest, hreadable⟩ := cons_of_decode hlog hx hreads.some
    obtain ⟨hts, hfound⟩ := ih hus hrest hreadable hr
    refine ⟨hts, fun hr => ?_⟩
    obtain ⟨ys, z, zs, rfl, hpos, hnext⟩ := hfound hr
    refine ⟨x :: ys, z, zs, rfl, ?_, ?_⟩
    · simp only [Record.nextPosition] at hpos
      rw [Frame.span_cons]
      omega
    · rw [hnext]
      simp only [Record.nextAddress, Record.frameLength, Record.nextPosition, Frame.encodeRun,
        List.length_append, Frame.length_encode, Nat.add_assoc]
  | case4 address rs found us hread hge =>
    simp only [Prod.mk.injEq] at hr
    obtain ⟨rfl, rfl⟩ := hr
    obtain ⟨hus, hreads⟩ := readAt_spec h hread
    obtain ⟨x, rest, rfl, rfl, -, -⟩ := cons_of_decode hlog hx hreads.some
    refine ⟨hus.moveTo _, fun htrue => ⟨[], x, rest, rfl, ?_, ?_⟩⟩
    · simpa using htrue
    · simp [moveTo, Frame.encodeRun]

/-- The record that is found for a position has payloads before it that end there. -/
theorem findAddress_spec {ix : BlockIndex} {position : Int} {log : Bytes} {start : Int}
    {xs : List Bytes} {r : Except LogError (Option Nat)} (h : rs.Sees log)
    (hlog : log.drop (ix.startFor position Storage.firstAddress) = Frame.encodeRun start xs)
    (hx : Frame.Readable start xs) (hr : (findAddress ix position).run rs = (r, ts)) :
    ts.Sees log ∧ ∀ address, r = .ok (some address) → ∃ ys z zs, xs = ys ++ z :: zs ∧
      start + Frame.span ys = position ∧
      address = ix.startFor position Storage.firstAddress + (Frame.encodeRun start ys).length := by
  rw [findAddress, Attempt.run_bind] at hr
  generalize hseek : (seek ix position).run rs = sought at hr
  obtain ⟨outcome, us⟩ := sought
  obtain ⟨hus, hfound⟩ := seekFrom_spec position _ _ h hlog hx hseek
  cases outcome with
  | error e =>
    simp only [Prod.mk.injEq] at hr
    obtain ⟨rfl, rfl⟩ := hr
    exact ⟨hus, by simp⟩
  | ok found =>
    cases found with
    | false =>
      obtain ⟨rfl, rfl⟩ : .ok none = r ∧ us = ts := by simpa using hr
      exact ⟨hus, by simp⟩
    | true =>
      obtain ⟨rfl, rfl⟩ : .ok (some us.reader.next) = r ∧ us = ts := by
        simpa [Attempt.run_bind] using hr
      refine ⟨hus, fun address haddress => ?_⟩
      obtain ⟨ys, z, zs, hsplit, hposition, hnext⟩ := hfound rfl
      simp only [Except.ok.injEq, Option.some.injEq] at haddress
      exact ⟨ys, z, zs, hsplit, hposition, haddress ▸ hnext⟩

end Reading

end PartitionLog
